import RemoteScreenCapture.SessionRun
/-!
# Messages that wait

`ParseMessage` puts every complete frame of a batch into the queue, and
`HandleInEvent` then takes one message at most. The epoll registration is
edge-triggered, so what is left waits for more bytes. This file says exactly
when nothing is left, what is lost when the connection closes, and when a
message of unknown type blocks those behind it.
-/
open Lib Lib.BigEndian

namespace RemoteScreenCapture

/-! ## Streams of accepted frames -/

/-- The bytes are the frames `fs` and the start of one more. -/
def Carries (bs : Bytes) (fs : List (Frame Limit.maxMessageSize)) : Prop :=
  ∃ part, bs = Frame.encodeAll fs ++ part ∧ look part = .more

section Carries
variable {bs bs' : Bytes} {fs gs ns : List (Frame Limit.maxMessageSize)}

theorem Carries.items (h : Carries bs fs) :
    (wire.items bs).1 = fs.map Frame.item ∧ wire.look (wire.items bs).2 = .more := by
  obtain ⟨part, rfl, hm⟩ := h
  rw [wire_items (fun f _ => f.accepted) hm]
  exact ⟨rfl, hm⟩

/-- What has arrived before carries the first of the frames. -/
theorem Carries.before (h : Carries (bs ++ bs') fs) : ∃ gs ns, fs = gs ++ ns ∧ Carries bs gs := by
  obtain ⟨hi, hm⟩ := h.items
  have hp := wire.items_prefix bs bs'
  rw [hi] at hp
  obtain ⟨gs, ⟨ns, rfl⟩, hg⟩ := List.prefix_map_iff.1 hp
  refine ⟨gs, ns, rfl, (wire.items bs).2, ?_, wire.items_more hm⟩
  rw [← wire_encAll, ← hg]
  exact wire.items_covers bs

/-- A connection that has read a stream of accepted frames has found them all. -/
theorem Tracks.carries {r : Decoder.Reading UInt8 Item} {c : Conn} (ht : Tracks bs r c) (h : Carries bs fs) :
    r.found = fs.map Frame.item ∧ r.stopped = false := by
  have hst : r.stopped = false := by
    cases hs : r.stopped with
    | false => rfl
    | true =>
      -- A call stops at rejected headers only, and there are none.
      have hheld := ht.reads.held hs
      cases hl : r.found.getLast? with
      | none => simp [hl] at hheld
      | some i =>
        have hi : i ∈ fs.map Frame.item := by
          rw [← h.items.1]
          exact ht.reads.found.subset (List.mem_of_getLast? hl)
        simp [hl, isOversized_items fs i hi] at hheld
  have hrun := ht.reads.running hst
  exact ⟨by rw [← h.items.1, hrun], hst⟩

end Carries

theorem toMessage_known {f : Frame Limit.maxMessageSize} : f.toMessage.Known ↔ f.Known := by
  simp [Message.Known, Frame.Known, Frame.toMessage]

/-! ## One IN event -/

/-- The queue after an IN event: the new messages at the end, the front one gone. -/
theorem in_event_queue {bs : Bytes} {r : Decoder.Reading UInt8 Item} {c c' : Conn} {e : Event}
    {gs ns : List (Frame Limit.maxMessageSize)} (ht : Tracks bs r c) (hg : Carries bs gs)
    (hn : Carries (bs ++ e.data) (gs ++ ns)) (hk : ∀ f ∈ gs ++ ns, f.Known) (he : e.epollin = true)
    (hs : serveEvent e c = .returns true c') :
    c'.session.messages = (c.session.messages ++ ns.map Frame.toMessage).tail := by
  obtain ⟨c₁, hrep, hin⟩ := serveEvent_true hs
  rw [if_pos he] at hin
  have h₁ := ht.replies hrep
  obtain ⟨is, t, hc, hd⟩ := handleInEvent_true h₁.ready h₁.typed hin
  rw [h₁.pending] at hc
  have hdata : e.data = e.inp.data := if_pos he
  rw [hdata] at hn
  have hfound := ((h₁.receive hc hd).carries hn).1
  simp only [(ht.carries hg).1, List.map_append, List.append_cancel_left_eq] at hfound
  have hq : (⟨(c₁.session.receive e.inp.data).after is t, c₁.effects⟩ : Conn).session.messages =
      c.session.messages ++ ns.map Frame.toMessage := by
    rw [hfound, Session.after_messages, pushed_items, hrep.session]
    rfl
  have hknown : ∀ m ∈ c.session.messages ++ ns.map Frame.toMessage, m.Known := by
    have hqueue := ht.queue
    rw [(ht.carries hg).1, pushed_items] at hqueue
    intro m hm
    have hmem : m ∈ (gs ++ ns).map Frame.toMessage := by
      rw [List.map_append, ← hqueue, List.append_assoc]
      exact List.mem_append_right _ hm
    obtain ⟨f, hf, rfl⟩ := List.mem_map.1 hmem
    exact toMessage_known.2 (hk f hf)
  rw [← hq] at hknown ⊢
  exact hd.tail hknown

/-- An event without `EPOLLIN` leaves the queue as it is. -/
theorem other_event_queue {c c' : Conn} {e : Event} (he : e.epollin = false)
    (hs : serveEvent e c = .returns true c') : c'.session.messages = c.session.messages := by
  obtain ⟨c₁, hrep, hin⟩ := serveEvent_true hs
  simp only [he, Bool.false_eq_true, if_false] at hin
  rw [hin, hrep.session]

/-! ## Nothing waits after an IN event -/

/-- How many frames are complete only with the bytes of `e`. -/
def completes (es : List Event) (e : Event) : Nat :=
  (wire.items (received (es ++ [e]))).1.length - (wire.items (received es)).1.length

/-- The queue is empty after every IN event of the run. -/
def Drained (c₀ : Conn) (es : List Event) : Prop :=
  ∀ before e after c, es = before ++ e :: after → e.epollin = true →
    sessions.Goes c₀ (before ++ [e]) c → c.session.messages = []

section Run
variable {fd : UniqueFD} {host port : Bytes} {fs : List (Frame Limit.maxMessageSize)}

/-- One event of a run over accepted frames of known type. -/
theorem event_queue {before : List Event} {e : Event} {c c' : Conn}
    (hg : sessions.Goes (Conn.fresh fd host port) before c) (hs : serveEvent e c = .returns true c')
    (hc : Carries (received (before ++ [e])) fs) (hk : ∀ f ∈ fs, f.Known) :
    ∃ ms, ms.length = completes before e ∧
      c'.session.messages = if e.epollin then (c.session.messages ++ ms).tail else c.session.messages := by
  obtain ⟨r, ht⟩ := run_tracks hg
  rw [received_append, received_singleton] at hc
  obtain ⟨gs, ns, rfl, hgs⟩ := hc.before
  refine ⟨ns.map Frame.toMessage, ?_, ?_⟩
  · rw [completes, received_append, received_singleton, hc.items.1, hgs.items.1]
    simp
  · cases he : e.epollin with
    | true => simpa using in_event_queue ht hgs hc hk he hs
    | false => simpa using other_event_queue he hs

theorem tail_eq_nil {α : Type} {l : List α} : l.tail = [] ↔ l.length ≤ 1 := by
  match l with
  | [] => simp
  | [_] => simp
  | _ :: _ :: _ => simp

/-- A queue that is empty after every IN event is empty all along. -/
theorem queue_empty (es : List Event) {c : Conn} {before : List Event}
    (hin : ∀ before e c c', sessions.Goes (Conn.fresh fd host port) before c → c.session.messages = [] →
      (∃ after, es = before ++ e :: after) → e.epollin = true → serveEvent e c = .returns true c' →
      c'.session.messages = [])
    (hg : sessions.Goes (Conn.fresh fd host port) before c) : before <+: es → c.session.messages = [] := by
  apply hg.inv fun before c => before <+: es → c.session.messages = []
  · exact fun _ => rfl
  · rintro before e c c' hg ih hs ⟨after, he⟩
    have hprev := ih ⟨e :: after, by rw [← he]; simp⟩
    cases hepoll : e.epollin with
    | true => exact hin before e c c' hg hprev ⟨after, by rw [← he]; simp⟩ hepoll hs
    | false => rw [other_event_queue hepoll hs, hprev]

/-- In a run over frames of known type the queue is empty after every IN event
if and only if each of them completes at most one frame. -/
theorem drained_iff (fd : UniqueFD) (host port : Bytes) (es : List Event) (c : Conn)
    (h : sessions.Goes (Conn.fresh fd host port) es c) (fs : List (Frame Limit.maxMessageSize))
    (hc : Carries (received es) fs) (hk : ∀ f ∈ fs, f.Known) :
    Drained (Conn.fresh fd host port) es ↔
      ∀ before e after, es = before ++ e :: after → e.epollin = true → completes before e ≤ 1 := by
  -- An IN event in the run, from an empty queue.
  have hstep : ∀ before e after c c', es = before ++ e :: after → e.epollin = true →
      sessions.Goes (Conn.fresh fd host port) before c → serveEvent e c = .returns true c' →
      c.session.messages = [] → (c'.session.messages = [] ↔ completes before e ≤ 1) := by
    intro before e after c c' he hepoll hg hs hempty
    have hc' : Carries (received (before ++ [e]) ++ received after) fs := by
      rw [← received_append]
      simpa [he] using hc
    obtain ⟨gs, ns, rfl, hgs⟩ := hc'.before
    obtain ⟨ms, hlen, hq⟩ := event_queue hg hs hgs (fun f hf => hk f (by simp [hf]))
    rw [hq, if_pos hepoll, hempty, List.nil_append, tail_eq_nil, hlen]
  constructor
  · intro hd before e after he hepoll
    have hempty : ∀ {before c}, sessions.Goes (Conn.fresh fd host port) before c → before <+: es →
        c.session.messages = [] := by
      intro before c hg
      refine queue_empty es ?_ hg
      rintro before e c c' hg - ⟨after, he⟩ hepoll hs
      exact hd before e after c' he hepoll (hg.snoc hs)
    rw [he] at h
    obtain ⟨c₀, hg, h'⟩ := h.split
    obtain ⟨c₁, hs, -⟩ := h'.cons_inv
    have h₀ := hempty hg ⟨e :: after, he.symm⟩
    exact (hstep before e after c₀ c₁ he hepoll hg hs h₀).1 (hd before e after c₁ he hepoll (hg.snoc hs))
  · intro hle before e after c' he hepoll hg'
    refine queue_empty es ?_ hg' ⟨after, by simp [he]⟩
    rintro before e c c' hg hempty ⟨after, he⟩ hepoll hs
    exact (hstep before e after c c' he hepoll hg hs hempty).2 (hle before e after he hepoll)

end Run

/-- Two images, each complete in an event of its own. -/
theorem drained_iff_single :
    Drained .sample [.brings [.data (.of [73, 0, 0, 0, 1, 7, 73, 0])],
      .brings [.data (.of [0, 0, 1, 8])]] := by
  let es : List Event := [.brings [.data (.of [73, 0, 0, 0, 1, 7, 73, 0])],
    .brings [.data (.of [0, 0, 1, 8])]]
  obtain ⟨c, hc⟩ := Option.isSome_iff_exists.1 (show (serveAll es .sample).isSome by decide +kernel)
  refine (drained_iff _ _ _ es c (serveAll_goes hc) [.of 73 [7], .of 73 [8]]
    ⟨[], by decide, rfl⟩ (by decide)).2 ?_
  intro before e after he _
  match before with
  | [] =>
    simp only [es, List.nil_append, List.cons.injEq] at he
    rw [← he.1]
    decide +kernel
  | [_] =>
    simp only [es, List.cons_append, List.nil_append, List.cons.injEq] at he
    rw [← he.1, ← he.2.1]
    decide +kernel
  | _ :: _ :: _ => simp [es] at he

/-- Two images in one batch: the second waits. -/
theorem two_images_wait :
    ¬∀ (es : List Event) (c : Conn) (fs : List (Frame Limit.maxMessageSize)), sessions.Goes .sample es c →
      Carries (received es) fs → (∀ f ∈ fs, f.Known) → Drained .sample es := by
  intro h
  let e : Event := .brings [.data (.of [73, 0, 0, 0, 1, 7, 73, 0, 0, 0, 1, 8])]
  have hrun : (serveAll [e] .sample).map (fun c => c.session.messages) = some [⟨[73], [0, 0, 0, 1], [8]⟩] := by
    decide +kernel
  obtain ⟨c, hc, hm⟩ := Option.map_eq_some_iff.1 hrun
  have hd := h [e] c [.of 73 [7], .of 73 [8]] (serveAll_goes hc)
    ⟨[], by decide, rfl⟩ (by decide)
  have hempty := hd [] e [] c rfl rfl (serveAll_goes hc)
  rw [hempty] at hm
  cases hm

/-! ## The last event of a connection -/

/-- If the end of the stream comes in the same event as some bytes, all frames
have been dispatched when the session is closed if and only if those bytes
complete none. -/
theorem closing_dispatches_iff (fd : UniqueFD) (host port : Bytes) (es : List Event) (c : Conn)
    (h : sessions.Goes (Conn.fresh fd host port) es c) (hq : c.session.messages = [])
    (fs gs : List (Frame Limit.maxMessageSize)) (hc : Carries (received es) fs) (i : InInput)
    (hs : i.recv.stop = .closed) (hc' : Carries (received es ++ i.data) (fs ++ gs)) :
    (∃ c', serveEvent (.onlyIn i) c = .returns false c' ∧
      taken c'.effects = pushed (wire.items (received es ++ i.data)).1) ↔ gs = [] := by
  obtain ⟨r, ht⟩ := run_tracks h
  have htaken : taken c.effects = fs.map Frame.toMessage := by
    have hqueue := ht.queue
    rwa [hq, List.append_nil, (ht.carries hc).1, pushed_items] at hqueue
  have hclosed : serveEvent (.onlyIn i) c = .returns false { c with session := c.session.receive i.data } := by
    rw [serveEvent_onlyIn, handleInEvent_closed (by simp [hs])]
  rw [hc'.items.1, pushed_items]
  constructor
  · rintro ⟨c', hserve, hall⟩
    rw [hclosed] at hserve
    cases hserve
    simpa [htaken] using hall
  · rintro rfl
    exact ⟨_, hclosed, by simpa using htaken⟩

/-- The input of an IN event that brings the bytes of `reads` and then the end
of the stream. -/
def InInput.closes (reads : List Read) : InInput := { InInput.brings reads with recv := ⟨reads, .closed⟩ }

/-- An image, and then half a header with the end of the stream. -/
theorem closing_dispatches_iff_part :
    ∃ c c', serveAll [.brings [.data (.of [73, 0, 0, 0, 1, 7])]] .sample = some c ∧
      serveEvent (.onlyIn (.closes [.data (.of [73, 0, 0])])) c = .returns false c' ∧
      taken c'.effects = pushed (wire.items [73, 0, 0, 0, 1, 7, 73, 0, 0]).1 := by
  have hrun : (serveAll [.brings [.data (.of [73, 0, 0, 0, 1, 7])]] .sample).map
      (fun c => c.session.messages) = some [] := by decide +kernel
  obtain ⟨c, hc, hq⟩ := Option.map_eq_some_iff.1 hrun
  obtain ⟨c', hs, ht⟩ := (closing_dispatches_iff _ _ _ _ c (serveAll_goes hc) hq
    [.of 73 [7]] [] ⟨[], by decide, rfl⟩
    (.closes [.data (.of [73, 0, 0])]) rfl ⟨[73, 0, 0], by decide, rfl⟩).2 rfl
  exact ⟨c, c', hc, hs, ht⟩

/-- An image that arrives together with the end of the stream is lost. -/
theorem last_image_lost :
    ¬∀ (es : List Event) (c : Conn) (fs gs : List (Frame Limit.maxMessageSize)) (i : InInput),
      sessions.Goes .sample es c → c.session.messages = [] → Carries (received es) fs →
      i.recv.stop = .closed → Carries (received es ++ i.data) (fs ++ gs) → (∀ f ∈ fs ++ gs, f.Known) →
        ∃ c', serveEvent (.onlyIn i) c = .returns false c' ∧
          taken c'.effects = pushed (wire.items (received es ++ i.data)).1 := by
  intro h
  let i : InInput := .closes [.data (.of [73, 0, 0, 0, 1, 7])]
  obtain ⟨c', hs, ht⟩ := h [] .sample [] [.of 73 [7]] i .nil rfl ⟨[], rfl, rfl⟩ rfl
    ⟨[], by decide, rfl⟩ (by decide)
  have hclosed : serveEvent (.onlyIn i) .sample =
      .returns false { Conn.sample with session := Conn.sample.session.receive i.data } := by
    rw [serveEvent_onlyIn]
    exact handleInEvent_closed (by decide)
  rw [hclosed] at hs
  cases hs
  exact absurd ht (by decide +kernel)

/-! ## Messages of unknown type -/

/-- Further IN events, one after the other, each of which succeeds. -/
def InRun (c : Conn) (is : List InInput) (c' : Conn) : Prop := sessions.Goes c (is.map .onlyIn) c'

/-- After some number of further IN events that succeed, and whatever they
bring, every message that has a handler has been taken from the queue. -/
def Drains (c : Conn) : Prop :=
  ∃ n, (∃ is c', is.length = n ∧ InRun c is c') ∧
    ∀ is c', is.length = n → InRun c is c' → ∃ ms, taken c'.effects = taken c.effects ++ ms ∧
      (c.session.messages.filter fun m => m.Known).Sublist ms

/-- No message that has a handler stands behind one that has none. -/
def Unblocked (ms : List Message) : Prop := ∀ m ∈ ms.dropWhile (fun m => m.Known), ¬m.Known

section InRun
variable {bs : Bytes} {r : Decoder.Reading UInt8 Item} {c c' : Conn}

/-- One further IN event. -/
theorem Tracks.onlyIn (ht : Tracks bs r c) {i : InInput} (h : serveEvent (.onlyIn i) c = .returns true c') :
    ∃ is t ns, wire.call Item.isOversized (r.left ++ i.data) = some (is, t) ∧
      Tracks (bs ++ i.data) ⟨r.found ++ is, t, Decoder.stopped Item.isOversized is⟩ c' ∧
      Dispatched { c with session := (c.session.receive i.data).after is t } c' ∧
      ((c.session.receive i.data).after is t).messages = c.session.messages ++ ns := by
  rw [serveEvent_onlyIn] at h
  obtain ⟨is, t, hc, hd⟩ := handleInEvent_true ht.ready ht.typed h
  rw [ht.pending] at hc
  exact ⟨is, t, pushed is, hc, ht.receive hc hd, hd, rfl⟩

/-- Messages with a handler at the front are taken, one an event. -/
theorem inRun_takes {is : List InInput} {ks rest : List Message} (ht : Tracks bs r c) (h : InRun c is c')
    (hm : c.session.messages = ks ++ rest) (hk : ∀ m ∈ ks, m.Known) (hn : ks.length ≤ is.length) :
    ∃ ms, taken c'.effects = taken c.effects ++ ms ∧ ks <+: ms := by
  induction is generalizing bs r c ks rest with
  | nil =>
    have hnil : ks = [] := by simpa using hn
    cases System.Goes.nil_inv h
    exact ⟨[], by simp, by simp [hnil]⟩
  | cons i is ih =>
    obtain ⟨c₁, hs, h'⟩ := System.Goes.cons_inv h
    obtain ⟨found, t, ns, -, ht₁, hd, hq⟩ := ht.onlyIn hs
    rw [hm, List.append_assoc] at hq
    rcases hd.front with ⟨he, hfront⟩ | ⟨m, ms, hm', -, hm₁, htaken⟩
    · cases ks with
      | nil =>
        obtain ⟨ms, htaken, -⟩ := @ih _ _ c₁ [] c₁.session.messages ht₁ h' rfl (by simp) (by simp)
        exact ⟨ms, by rw [htaken, he], List.nil_prefix⟩
      | cons k ks => exact absurd (hk k (by simp)) (hfront k _ hq)
    · rw [hm'] at hq
      cases ks with
      | nil =>
        obtain ⟨ms', he, -⟩ := @ih _ _ c₁ [] c₁.session.messages ht₁ h' rfl (by simp) (by simp)
        exact ⟨m :: ms', by rw [he, htaken, List.append_assoc]; rfl, List.nil_prefix⟩
      | cons k ks =>
        obtain ⟨rfl, rfl⟩ := List.cons.inj hq
        obtain ⟨ms', he, hp⟩ := ih ht₁ h' hm₁ (fun x hx => hk x (by simp [hx])) (by simpa using hn)
        exact ⟨m :: ms', by rw [he, htaken, List.append_assoc]; rfl, (List.prefix_cons_inj m).2 hp⟩

/-- Nothing behind a message without a handler is taken. -/
theorem inRun_blocked {is : List InInput} {ks rest : List Message} {u : Message} (ht : Tracks bs r c)
    (h : InRun c is c') (hm : c.session.messages = ks ++ u :: rest) (hk : ∀ m ∈ ks, m.Known) (hu : ¬u.Known) :
    ∃ ms, taken c'.effects = taken c.effects ++ ms ∧ ms <+: ks := by
  induction is generalizing bs r c ks rest with
  | nil =>
    cases System.Goes.nil_inv h
    exact ⟨[], by simp, List.nil_prefix⟩
  | cons i is ih =>
    obtain ⟨c₁, hs, h'⟩ := System.Goes.cons_inv h
    obtain ⟨found, t, ns, -, ht₁, hd, hq⟩ := ht.onlyIn hs
    rw [hm, List.append_assoc, List.cons_append] at hq
    rcases hd.front with ⟨he, -⟩ | ⟨m, ms, hm', hknown, hm₁, htaken⟩
    · have hq₁ : c₁.session.messages = ks ++ u :: (rest ++ ns) := by rw [he, ← hq]
      obtain ⟨ms, htaken, hp⟩ := ih ht₁ h' hq₁ hk
      exact ⟨ms, by rw [htaken, he], hp⟩
    · rw [hm'] at hq
      cases ks with
      | nil =>
        obtain ⟨rfl, -⟩ := List.cons.inj hq
        exact absurd hknown hu
      | cons k ks =>
        obtain ⟨rfl, rfl⟩ := List.cons.inj hq
        obtain ⟨ms', he, hp⟩ := ih ht₁ h' hm₁ (fun x hx => hk x (by simp [hx]))
        exact ⟨m :: ms', by rw [he, htaken, List.append_assoc]; rfl, (List.prefix_cons_inj m).2 hp⟩

/-- The calls of `ParseMessage` in a run return without the bytes it brought. -/
theorem inRun_resumes {is : List InInput} {xs ys : Bytes} (ht : Tracks bs r c) (h : InRun c is c')
    (hl : r.left = xs ++ ys) : wire.resumes Item.isOversized is.length xs = true := by
  induction is generalizing bs r c xs ys with
  | nil => rfl
  | cons i is ih =>
    obtain ⟨c₁, hs, h'⟩ := System.Goes.cons_inv h
    obtain ⟨found, t, ns, hc, ht₁, -, -⟩ := ht.onlyIn hs
    rw [hl, List.append_assoc] at hc
    exact wire.resumes_step hc fun u hu => ih ht₁ h' hu

/-- The input of an IN event that brings nothing. -/
def InInput.idle : InInput := .brings []

/-- If the calls of `ParseMessage` return, IN events that bring nothing succeed. -/
theorem exists_inRun (n : Nat) (ht : Tracks bs r c) (hr : wire.resumes Item.isOversized n r.left = true) :
    ∃ c', InRun c (List.replicate n .idle) c' := by
  induction n generalizing bs r c with
  | zero => exact ⟨c, .nil⟩
  | succ n ih =>
    simp only [Decoder.resumes] at hr
    cases hc : wire.call Item.isOversized r.left with
    | none => simp [hc] at hr
    | some found =>
      obtain ⟨is, t⟩ := found
      rw [hc, Option.any_some] at hr
      have hidle : c.session.pending ++ InInput.idle.data = r.left := by
        rw [ht.pending, show InInput.idle.data = [] from rfl, List.append_nil]
      have hin := handleInEvent_eagain (i := .idle) ht.ready rfl
      rw [hidle, hc] at hin
      have htyped : (c.session.receive InInput.idle.data).Typed := ht.typed
      obtain ⟨c₁, hd⟩ := @dispatchMessage_succeeds
        { c with session := (c.session.receive InInput.idle.data).after is t } .idle (htyped.after is t) rfl rfl
      have hs : serveEvent (.onlyIn .idle) c = .returns true c₁ := by
        rw [serveEvent_onlyIn, hin]
        exact hd
      obtain ⟨is', t', -, hc', ht₁, -, -⟩ := ht.onlyIn hs
      rw [← ht.pending, hidle, hc] at hc'
      cases hc'
      obtain ⟨c', h'⟩ := ih ht₁ hr
      exact ⟨c', h'.cons hs⟩

/-- An event takes one message at most. -/
theorem inRun_taken_length {is : List InInput} (ht : Tracks bs r c) (h : InRun c is c') :
    (taken c'.effects).length ≤ (taken c.effects).length + is.length := by
  induction is generalizing bs r c with
  | nil =>
    cases System.Goes.nil_inv h
    exact Nat.le_refl _
  | cons i is ih =>
    obtain ⟨c₁, hs, h'⟩ := System.Goes.cons_inv h
    obtain ⟨found, t, ns, -, ht₁, hd, -⟩ := ht.onlyIn hs
    have hrest := ih ht₁ h'
    have hstep : (taken c₁.effects).length ≤ (taken c.effects).length + 1 := by
      rcases hd.front with ⟨he, -⟩ | ⟨m, ms, -, -, -, htaken⟩
      · rw [he]
        exact Nat.le_succ _
      · rw [htaken]
        simp
    simp only [List.length_cons]
    omega

end InRun

theorem unblocked_cons {m : Message} {ms : List Message} (hm : m.Known) : Unblocked (m :: ms) ↔ Unblocked ms := by
  simp [Unblocked, hm]

/-- If no message blocks, those with a handler come first. -/
theorem Unblocked.filter {ms : List Message} (h : Unblocked ms) : (ms.filter fun m => m.Known) <+: ms := by
  induction ms with
  | nil => exact List.nil_prefix
  | cons m ms ih =>
    by_cases hm : m.Known
    · rw [List.filter_cons_of_pos (by simpa using hm)]
      exact (List.prefix_cons_inj m).2 (ih ((unblocked_cons hm).1 h))
    · have hnone : ((m :: ms).filter fun m => m.Known) = [] := by
        simpa [Unblocked, hm] using h
      rw [hnone]
      exact List.nil_prefix

/-- Otherwise a message without a handler has fewer of the others in front of it than there are. -/
theorem exists_blocking {ms : List Message} (h : ¬Unblocked ms) :
    ∃ ks u rest, ms = ks ++ u :: rest ∧ (∀ m ∈ ks, m.Known) ∧ ¬u.Known ∧
      ks.length < (ms.filter fun m => m.Known).length := by
  induction ms with
  | nil => exact absurd (by simp [Unblocked]) h
  | cons m ms ih =>
    by_cases hm : m.Known
    · obtain ⟨ks, u, rest, rfl, hks, hu, hlt⟩ := ih (mt (unblocked_cons hm).2 h)
      refine ⟨m :: ks, u, rest, rfl, ?_, hu, ?_⟩
      · intro x hx
        rcases List.mem_cons.1 hx with rfl | hx
        · exact hm
        · exact hks x hx
      · rw [List.filter_cons_of_pos (by simpa using hm)]
        simpa using hlt
    · refine ⟨[], m, ms, rfl, by simp, hm, ?_⟩
      rw [List.length_nil, List.length_filter_pos_iff]
      simpa [Unblocked, hm] using h

/-- A queue of messages is drained by further IN events if and only if none
with a handler stands behind one without, and the calls of `ParseMessage` on
what was received return while they are needed. -/
theorem drains_iff (fd : UniqueFD) (host port : Bytes) (es : List Event) (c : Conn)
    (h : sessions.Goes (Conn.fresh fd host port) es c) :
    Drains c ↔ Unblocked c.session.messages ∧
      wire.resumes Item.isOversized (c.session.messages.filter fun m => m.Known).length c.session.pending := by
  obtain ⟨r, ht⟩ := run_tracks h
  rw [ht.pending]
  constructor
  · rintro ⟨n, ⟨is, c', hn, hrun⟩, hall⟩
    obtain ⟨ms, hms, hsub⟩ := hall is c' hn hrun
    have hlen := hsub.length_le
    constructor
    · by_contra hb
      obtain ⟨ks, u, rest, hq, hks, hu, hlt⟩ := exists_blocking hb
      obtain ⟨ms', hms', hp⟩ := inRun_blocked ht hrun hq hks hu
      obtain rfl := List.append_cancel_left (hms.symm.trans hms')
      have := hp.length_le
      omega
    · have hres := inRun_resumes ht hrun (List.append_nil r.left).symm
      have htaken := inRun_taken_length ht hrun
      rw [hms, List.length_append] at htaken
      exact wire.resumes_le (by omega) hres
  · rintro ⟨hu, hres⟩
    obtain ⟨rest, hq⟩ := hu.filter
    refine ⟨(c.session.messages.filter fun m => m.Known).length, ?_, fun is c' hn hrun => ?_⟩
    · obtain ⟨c', hrun⟩ := exists_inRun _ ht hres
      exact ⟨_, c', List.length_replicate, hrun⟩
    · obtain ⟨ms, hms, hp⟩ := inRun_takes ht hrun hq.symm (by simp) (Nat.le_of_eq hn.symm)
      exact ⟨ms, hms, hp.sublist⟩

/-- Two images in one batch and a frame of type `'X'` behind them: the image
that waits is dispatched by a further event, and the `'X'` stays. -/
theorem drains_iff_images :
    ∃ c, serveAll [.brings [.data (.of [73, 0, 0, 0, 1, 7, 73, 0, 0, 0, 1, 8, 88, 0, 0, 0, 1, 9])]] .sample = some c ∧
      c.session.messages = [⟨[73], [0, 0, 0, 1], [8]⟩, ⟨[88], [0, 0, 0, 1], [9]⟩] ∧ Drains c := by
  have hrun : (serveAll [.brings [.data (.of [73, 0, 0, 0, 1, 7, 73, 0, 0, 0, 1, 8, 88, 0, 0, 0, 1, 9])]] .sample).map
      (fun c => (c.session.messages, c.session.pending)) =
        some ([⟨[73], [0, 0, 0, 1], [8]⟩, ⟨[88], [0, 0, 0, 1], [9]⟩], []) := by
    decide +kernel
  obtain ⟨c, hc, hm⟩ := Option.map_eq_some_iff.1 hrun
  obtain ⟨hq, hp⟩ := Prod.mk.inj hm
  refine ⟨c, hc, hq, (drains_iff _ _ _ _ c (serveAll_goes hc)).2 ?_⟩
  rw [hq, hp]
  exact ⟨by unfold Unblocked; decide, by decide⟩

/-- An image behind a frame of type `'X'` is never dispatched. -/
theorem unknown_type_blocks :
    ¬∀ (es : List Event) (c : Conn) (fs : List (Frame Limit.maxMessageSize)), sessions.Goes .sample es c →
      Carries (received es) fs → Drains c := by
  intro h
  let e : Event := .brings [.data (.of [88, 0, 0, 0, 1, 7, 73, 0, 0, 0, 1, 8])]
  have hrun : (serveAll [e] .sample).map (fun c => c.session.messages) =
      some [⟨[88], [0, 0, 0, 1], [7]⟩, ⟨[73], [0, 0, 0, 1], [8]⟩] := by
    decide +kernel
  obtain ⟨c, hc, hq⟩ := Option.map_eq_some_iff.1 hrun
  obtain ⟨n, ⟨is, c', hn, hgoes⟩, hall⟩ := h [e] c [.of 88 [7], .of 73 [8]]
    (serveAll_goes hc) ⟨[], by decide, rfl⟩
  obtain ⟨ms, hms, hsub⟩ := hall is c' hn hgoes
  obtain ⟨r, ht⟩ := run_tracks (serveAll_goes hc)
  -- The 'X' message stays at the front, so nothing is taken.
  obtain ⟨ms', hms', hp⟩ := @inRun_blocked _ _ _ _ _ [] _ _ ht hgoes hq (by simp) (by decide)
  obtain rfl := List.append_cancel_left (hms.symm.trans hms')
  rw [List.prefix_nil.1 hp, hq] at hsub
  exact absurd hsub (by decide)

end RemoteScreenCapture
