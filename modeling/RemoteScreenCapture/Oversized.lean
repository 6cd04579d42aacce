import RemoteScreenCapture.Stream
/-!
# Rejected frames

A header above the limit makes `ParseMessage` clear `_message` and return, and
nothing remembers that a payload follows. The next call takes the first byte of
that payload for a type. So a session stays in step with a stream of frames if
and only if no call comes after the one that met the first rejected header
(`inSync_iff`).
-/
open Lib Lib.BigEndian

namespace RemoteScreenCapture

/-- Which offsets of the stream the bytes have that `fill` moves, when `n`
bytes have arrived. -/
def filledAt (n : Nat) (vec : Message.Vec) (len : Nat) (s : Session) : List Nat :=
  match fill vec len s with
  | .returns _ s' => List.range' (n - s.request.length) (s.request.length - s'.request.length)
  | _ => []

/-- Which offsets the bytes have that a pass takes for a type or a length. -/
def headerOffsets (n : Nat) (s : Session) : List Nat :=
  filledAt n .type 1 s ++
    match fill .type 1 s with
    | .returns true s' => filledAt n .size 4 s'
    | _ => []

/-- A pass of the loop of `ParseMessage` is about to run in the state `s`, when
`n` bytes have arrived. -/
inductive AtPass (chunks : List Bytes) (s₀ : Session) : Nat → Session → Prop
  | call {cs : List Bytes} {c : Bytes} {s : Session} : cs ++ [c] <+: chunks → feedAll cs s₀ = .returns () s →
      AtPass chunks s₀ (cs ++ [c]).flatten.length (s.receive c)
  | again {n : Nat} {s s' : Session} : AtPass chunks s₀ n s → parsePass s = .returns true s' →
      AtPass chunks s₀ n s'

/-- A frame of any length that a header can announce. -/
abbrev AnyFrame := Frame (2 ^ 32 - 1)

/-- The byte at the offset `o` of the stream is in the payload of a rejected frame. -/
def RejectedPayload (fs : List AnyFrame) (o : Nat) : Prop :=
  ∃ pre f post, fs = pre ++ f :: post ∧ ¬f.Accepted ∧
    (Frame.encodeAll pre).length + 5 ≤ o ∧ o < (Frame.encodeAll pre).length + f.encode.length

/-- The session stays in step with the frames of its stream. -/
structure InSync (fs : List AnyFrame) (chunks : List Bytes) (s₀ : Session) : Prop where
  pushed : ∀ n s ok s', AtPass chunks s₀ n s → parsePass s = .returns ok s' →
    s'.messages.Sublist ((fs.filter fun f => f.Accepted).map Frame.toMessage)
  header : ∀ n s, AtPass chunks s₀ n s → ∀ o ∈ headerOffsets n s, ¬RejectedPayload fs o

/-! ## While nothing has been rejected -/

theorem filledAt_bounds {n len o : Nat} {vec : Message.Vec} {s : Session} (h : o ∈ filledAt n vec len s) :
    n - s.request.length ≤ o ∧ o < n - s.request.length + len := by
  unfold filledAt at h
  by_cases hd : (s.message.vec vec).length = len
  · simp [fill_done hd] at h
  by_cases hr : s.request.length < len
  · simp [fill_short hd hr] at h
  · rw [fill_take hd (by omega)] at h
    simp only [List.length_drop, List.mem_range'_1] at h
    omega

/-- A pass takes no more than a header, from the front of what is held. -/
theorem headerOffsets_bounds {n o : Nat} {s : Session} (hs : s.Ready) (hn : s.pending.length ≤ n)
    (h : o ∈ headerOffsets n s) : n - s.pending.length ≤ o ∧ o < n - s.pending.length + 5 := by
  obtain ⟨m, hm⟩ : ∃ m, s.message = m := ⟨_, rfl⟩
  unfold Session.Ready at hs
  rw [hm] at hs
  unfold headerOffsets at h
  cases hs with
  | none =>
    have hp : s.pending.length = s.request.length := by simp [Session.pending, hm, Message.held]
    have hlen : (s.message.vec .type).length ≠ 1 := by simp [hm, Message.vec]
    rw [hp] at hn ⊢
    rcases List.mem_append.1 h with h | h
    · have := filledAt_bounds h
      omega
    · by_cases hr : s.request.length < 1
      · simp [fill_short hlen hr] at h
      · rw [fill_take hlen (by omega)] at h
        have := filledAt_bounds h
        simp only [List.length_drop] at this
        omega
  | type t =>
    have hp : s.pending.length = s.request.length + 1 := by simp [Session.pending, hm, Message.held]
    rw [hp] at hn ⊢
    have hd : fill .type 1 s = .returns true s := fill_done (by simp [hm, Message.vec])
    have hz : filledAt n .type 1 s = [] := by simp [filledAt, hd]
    simp only [hd, hz, List.nil_append] at h
    have := filledAt_bounds h
    omega
  | header t a b c d =>
    have hd : fill .type 1 s = .returns true s := fill_done (by simp [hm, Message.vec])
    have hd' : fill .size 4 s = .returns true s := fill_done (by simp [hm, Message.vec])
    simp [filledAt, hd, hd'] at h

theorem look_rejected {f : AnyFrame} (h : ¬f.Accepted) (ys : Bytes) :
    look (f.encode ++ ys) = .item (.oversized f.type f.payload.length) (f.payload ++ ys) := by
  have he : f.encode ++ ys = (Item.oversized f.type f.payload.length).encode ++ (f.payload ++ ys) := by
    simp [Frame.encode, Item.encode]
  have hlt : f.payload.length < 2 ^ 32 := lt_of_le_of_lt f.fits (by decide)
  rw [he, look_oversized (Nat.not_le.1 h) hlt]

/-- A frame found at the front of a stream of frames is the first of them. -/
theorem look_encodeAll {fs : List AnyFrame} {t : UInt8} {p xs rest : Bytes}
    (h : look xs = .item (.frame t p) rest) (hx : xs <+: Frame.encodeAll fs) :
    ∃ f gs, fs = f :: gs ∧ f.item = .frame t p ∧ f.Accepted := by
  obtain ⟨ys, hys⟩ := hx
  have hl := wire.item_append h ys
  rw [hys] at hl
  cases fs with
  | nil => cases hl
  | cons f gs =>
    refine ⟨f, gs, rfl, ?_⟩
    by_cases hf : f.Accepted
    · have hfound : look (f.encode ++ Frame.encodeAll gs) = _ := wire_found hf (Frame.encodeAll gs)
      have heq := hfound.symm.trans hl
      simp only [Look.item.injEq] at heq
      exact ⟨heq.1, hf⟩
    · have heq := (look_rejected hf (Frame.encodeAll gs)).symm.trans hl
      simp at heq

/-- Where a pass finds the session while nothing has been rejected, when the
bytes `xs` have arrived: some of the frames `pre` have been pushed, and the
rest of `xs` is held. -/
structure Parsing (pre : List AnyFrame) (xs : Bytes) (s : Session) : Prop where
  ready : s.Ready
  pushed : ∃ gs, gs <+: pre ∧ s.messages = gs.map Frame.toMessage ∧ xs = Frame.encodeAll gs ++ s.pending

section Parsing
variable {pre tail : List AnyFrame}

/-- The first pass of a call, if the calls before it met no rejected header. -/
theorem Parsing.call {fd : UniqueFD} {host port : Bytes} {cs : List Bytes} {c : Bytes} {s : Session}
    (hpre : ∀ f ∈ pre, f.Accepted) (hx : cs.flatten <+: Frame.encodeAll (pre ++ tail))
    (hcut : tail = [] ∨ cs.flatten.length < (Frame.encodeAll pre).length + 5)
    (hs : feedAll cs (Session.new fd host port).1 = .returns () s) :
    Parsing pre (cs ++ [c]).flatten (s.receive c) := by
  obtain ⟨gs, part, hg, hcs, hm⟩ := arrived hpre hx hcut
  have hacc : ∀ f ∈ gs, f.Accepted := fun f hf => hpre f (hg.subset hf)
  rw [feedAll_frames fd host port hacc hm hcs] at hs
  cases hs
  refine ⟨(Session.reading_ready _ _).receive c, gs, hg, pushed_items gs, ?_⟩
  rw [Session.receive_pending, Session.reading_pending]
  simp [hcs]

/-- A pass that goes on has pushed the next frame, or nothing. -/
theorem Parsing.again {xs : Bytes} {s s' : Session} (htail : ∀ f post, tail = f :: post → ¬f.Accepted)
    (hx : xs <+: Frame.encodeAll (pre ++ tail)) (h : Parsing pre xs s) (hp : parsePass s = .returns true s') :
    Parsing pre xs s' := by
  obtain ⟨hs, gs, hg, hmsg, hxs⟩ := h
  match hl : look s.pending with
  | .more => rw [parsePass_more hs hl] at hp; cases hp
  | .stuck =>
    rw [parsePass_stuck hs hl] at hp
    cases hp
    exact ⟨s.split_ready, gs, hg, hmsg, by rw [s.split_pending]; exact hxs⟩
  | .item (.oversized t len) rest => rw [parsePass_item hs hl] at hp; cases hp
  | .item (.frame t p) rest =>
    rw [parsePass_item hs hl] at hp
    cases hp
    obtain ⟨pre', rfl⟩ := hg
    have hnext : s.pending <+: Frame.encodeAll (pre' ++ tail) := by
      rw [hxs, List.append_assoc, Frame.encodeAll_append] at hx
      exact (List.prefix_append_right_inj _).1 hx
    obtain ⟨f, fs, hfs, hf, hacc⟩ := look_encodeAll hl hnext
    cases pre' with
    | nil => exact absurd hacc (htail f fs hfs)
    | cons g pre' =>
      cases hfs
      refine ⟨.none, gs ++ [f], ⟨pre', by simp⟩, ?_, ?_⟩
      · simp only [← hf, hmsg, List.map_append]
        exact congrArg _ (pushed_items [f])
      · have hpend := (look_item hl).1
        rw [← hf] at hpend
        rw [hxs, hpend, Frame.encodeAll_append, List.append_assoc]
        simp [Session.pending, Message.held, Message.clear]
        rfl

/-- The state before each pass, as long as no call follows one that rejected a
header: the frames before that header have been pushed, as far as they came. -/
theorem AtPass.parsing {fd : UniqueFD} {host port : Bytes} {chunks : List Bytes}
    (hpre : ∀ f ∈ pre, f.Accepted) (htail : ∀ f post, tail = f :: post → ¬f.Accepted)
    (hc : chunks.flatten = Frame.encodeAll (pre ++ tail))
    (hcut : tail = [] ∨ chunks.dropLast.flatten.length < (Frame.encodeAll pre).length + 5)
    {n : Nat} {s : Session} (h : AtPass chunks (Session.new fd host port).1 n s) :
    n ≤ chunks.flatten.length ∧ Parsing pre (chunks.flatten.take n) s := by
  induction h with
  | @call cs c s hp hs =>
    obtain ⟨rest, hrest⟩ := hp
    have hchunks : chunks = cs ++ (c :: rest) := by rw [← hrest]; simp
    have hall : chunks.flatten = (cs ++ [c]).flatten ++ rest.flatten := by rw [hchunks]; simp
    have hx : cs.flatten <+: Frame.encodeAll (pre ++ tail) := by
      rw [← hc, hchunks, List.flatten_append]
      exact List.prefix_append _ _
    have hdrop : cs.flatten.length ≤ chunks.dropLast.flatten.length := by
      rw [hchunks, List.dropLast_append_of_ne_nil (by simp)]
      simp
    have hparsing := Parsing.call (c := c) hpre hx (hcut.imp_right fun h => by omega) hs
    rw [hall, List.take_left, List.length_append]
    exact ⟨Nat.le_add_right _ _, hparsing⟩
  | @again n s s' _ hp ih =>
    have hx : chunks.flatten.take n <+: Frame.encodeAll (pre ++ tail) := by
      rw [← hc]
      exact List.take_prefix n _
    exact ⟨ih.1, ih.2.again htail hx hp⟩

end Parsing

/-- The frames before the first rejected one, and the rest. -/
theorem exists_first_rejected (fs : List AnyFrame) : ∃ pre tail, fs = pre ++ tail ∧ (∀ f ∈ pre, f.Accepted) ∧
    ∀ f post, tail = f :: post → ¬f.Accepted := by
  induction fs with
  | nil => exact ⟨[], [], rfl, by simp, by simp⟩
  | cons g fs ih =>
    by_cases hg : g.Accepted
    · obtain ⟨pre, tail, rfl, hpre, htail⟩ := ih
      refine ⟨g :: pre, tail, rfl, ?_, htail⟩
      intro f hf
      rcases List.mem_cons.1 hf with rfl | hf
      · exact hg
      · exact hpre f hf
    · refine ⟨[], g :: fs, rfl, by simp, ?_⟩
      rintro f post he
      cases he
      exact hg

/-- Headers that are read at a frame's start are not in a rejected payload, if
the frames before it are accepted. -/
theorem not_rejectedPayload {gs rest : List AnyFrame} {o : Nat} (hgs : ∀ f ∈ gs, f.Accepted)
    (hlo : (Frame.encodeAll gs).length ≤ o) (hhi : o < (Frame.encodeAll gs).length + 5) :
    ¬RejectedPayload (gs ++ rest) o := by
  rintro ⟨pre, f, post, he, hf, hge, hlt⟩
  rcases List.append_eq_append_iff.1 he with ⟨us, rfl, hrest⟩ | ⟨us, rfl, hrest⟩
  · -- The rejected frame starts behind `gs`.
    simp only [Frame.encodeAll_append, List.length_append] at hge
    omega
  · cases us with
    | nil =>
      simp only [List.append_nil] at hlo hhi
      omega
    | cons g us =>
      obtain ⟨rfl, -⟩ := List.cons.inj hrest
      exact hf (hgs f (by simp))

theorem inSync_of_cut {fd : UniqueFD} {host port : Bytes} {pre tail : List AnyFrame} {chunks : List Bytes}
    (hpre : ∀ f ∈ pre, f.Accepted) (htail : ∀ f post, tail = f :: post → ¬f.Accepted)
    (hc : chunks.flatten = Frame.encodeAll (pre ++ tail))
    (hcut : tail = [] ∨ chunks.dropLast.flatten.length < (Frame.encodeAll pre).length + 5) :
    InSync (pre ++ tail) chunks (Session.new fd host port).1 := by
  have hfilter : ∀ gs, gs <+: pre →
      (gs.map Frame.toMessage).Sublist (((pre ++ tail).filter fun f => f.Accepted).map Frame.toMessage) := by
    rintro gs ⟨us, rfl⟩
    have hgs : (gs.filter fun f => f.Accepted) = gs :=
      List.filter_eq_self.2 fun f hf => by simpa using hpre f (by simp [hf])
    apply List.Sublist.map
    rw [List.append_assoc, List.filter_append, hgs]
    exact List.sublist_append_left _ _
  constructor
  · intro n s ok s' h hp
    obtain ⟨-, hs, gs, hg, hmsg, -⟩ := h.parsing hpre htail hc hcut
    cases ok with
    | true =>
      obtain ⟨-, -, gs', hg', hmsg', -⟩ := (h.again hp).parsing hpre htail hc hcut
      rw [hmsg']
      exact hfilter gs' hg'
    | false =>
      -- A pass that returns pushes nothing.
      have hsame : s'.messages = s.messages := by
        match hl : look s.pending with
        | .more => rw [parsePass_more hs hl] at hp; cases hp; rfl
        | .stuck => rw [parsePass_stuck hs hl] at hp; cases hp
        | .item (.frame t p) rest => rw [parsePass_item hs hl] at hp; cases hp
        | .item (.oversized t len) rest =>
          rw [parsePass_item hs hl] at hp
          cases hp
          simp [pushed, Item.toMessage?]
      rw [hsame, hmsg]
      exact hfilter gs hg
  · intro n s h o ho
    obtain ⟨hn, hs, gs, hg, -, htake⟩ := h.parsing hpre htail hc hcut
    have hlen := congrArg List.length htake
    rw [List.length_take, Nat.min_eq_left hn, List.length_append] at hlen
    have hbounds := headerOffsets_bounds hs (by omega) ho
    obtain ⟨us, rfl⟩ := hg
    rw [List.append_assoc]
    exact not_rejectedPayload (fun f hf => hpre f (by simp [hf])) (by omega) (by omega)

/-! ## After a rejection -/

theorem feedAll_append (cs cs' : List Bytes) (s : Session) :
    feedAll (cs ++ cs') s = (feedAll cs >>= fun _ => feedAll cs') s := by
  induction cs generalizing s with
  | nil => rfl
  | cons c cs ih =>
    simp only [List.cons_append, feedAll, Proc.bind_apply, Proc.modify_apply]
    cases parseMessage (s.receive c) with
    | returns _ s' => exact ih s'
    | throws e s' => rfl
    | diverges => rfl

theorem feedAll_snoc {cs : List Bytes} {c : Bytes} {s₀ s s' : Session} (h : feedAll cs s₀ = .returns () s)
    (hp : parseMessage (s.receive c) = .returns () s') : feedAll (cs ++ [c]) s₀ = .returns () s' := by
  rw [feedAll_append, Proc.bind_returns h]
  simp [feedAll, Proc.bind_apply, hp]

/-- The chunk with which the first `e` bytes have arrived. -/
theorem exists_cut {e : Nat} {cs : List Bytes} (hpos : 0 < e) (he : e ≤ cs.flatten.length) :
    ∃ ds d rest, cs = ds ++ d :: rest ∧ ds.flatten.length < e ∧ e ≤ (ds ++ [d]).flatten.length := by
  induction cs generalizing e with
  | nil => simp at he; omega
  | cons c cs ih =>
    by_cases hc : e ≤ c.length
    · exact ⟨[], c, cs, rfl, by simpa using hpos, by simpa using hc⟩
    · have he' : e - c.length ≤ cs.flatten.length := by
        simp only [List.flatten_cons, List.length_append] at he
        omega
      obtain ⟨ds, d, rest, rfl, hlt, hle⟩ := ih (by omega) he'
      refine ⟨c :: ds, d, rest, rfl, ?_, ?_⟩
      · simp only [List.flatten_cons, List.length_append]
        omega
      · simp only [List.cons_append, List.flatten_cons, List.length_append] at hle ⊢
        omega

theorem encode_rejected (f : AnyFrame) :
    f.encode = (Item.oversized f.type f.payload.length).encode ++ f.payload := by
  simp [Frame.encode, Item.encode]

/-- A call stops behind a rejected header, with the accepted frames before it. -/
theorem call_rejected {us : List AnyFrame} {f : AnyFrame} (hus : ∀ g ∈ us, g.Accepted) (hf : ¬f.Accepted)
    (left : Bytes) :
    wire.call Item.isOversized
        (Frame.encodeAll us ++ (Item.oversized f.type f.payload.length).encode ++ left) =
      some (us.map Frame.item ++ [.oversized f.type f.payload.length], left) := by
  refine wire.call_stop ?_ ?_ rfl ?_
  · intro i hi
    refine ⟨?_, isOversized_items us i hi⟩
    obtain ⟨g, hg, rfl⟩ := List.mem_map.1 hi
    exact wire_found (hus g hg)
  · exact look_oversized (Nat.not_le.1 hf) (lt_of_le_of_lt f.fits (by decide))
  · rw [List.append_assoc, wire_encAll]
    rfl

/-- The call that meets the first rejected header stops behind it. -/
theorem feedAll_rejects (fd : UniqueFD) (host port : Bytes) {pre post : List AnyFrame} {f : AnyFrame}
    {cs rest : List Bytes} {c : Bytes} (hpre : ∀ g ∈ pre, g.Accepted) (hf : ¬f.Accepted)
    (hc : (cs ++ c :: rest).flatten = Frame.encodeAll (pre ++ f :: post))
    (hlt : cs.flatten.length < (Frame.encodeAll pre).length + 5)
    (hle : (Frame.encodeAll pre).length + 5 ≤ (cs ++ [c]).flatten.length) :
    ∃ left, (cs ++ [c]).flatten.length = (Frame.encodeAll pre).length + 5 + left.length ∧
      left ++ rest.flatten = f.payload ++ Frame.encodeAll post ∧
      feedAll (cs ++ [c]) (Session.new fd host port).1 = .returns ()
        ((Session.new fd host port).1.reading ⟨pre.map Frame.item ++ [.oversized f.type f.payload.length], left, true⟩) := by
  have hx : cs.flatten <+: Frame.encodeAll (pre ++ f :: post) := by
    rw [← hc, List.flatten_append]
    exact List.prefix_append _ _
  obtain ⟨gs, part, ⟨us, rfl⟩, hcs, hm⟩ := arrived hpre hx (.inr hlt)
  have hrun := feedAll_frames fd host port (fun g hg => hpre g (by simp [hg])) hm hcs
  -- What the last call looks at: the rest of the accepted frames, the header, and what is behind it.
  let front := Frame.encodeAll us ++ (Item.oversized f.type f.payload.length).encode
  have hfront : front.length = (Frame.encodeAll us).length + 5 := by simp [front, Item.encode]
  have hrest : part ++ c ++ rest.flatten = front ++ (f.payload ++ Frame.encodeAll post) := by
    have h : Frame.encodeAll gs ++ (part ++ c ++ rest.flatten) =
        Frame.encodeAll gs ++ (front ++ (f.payload ++ Frame.encodeAll post)) := by
      simp only [List.flatten_append, List.flatten_cons, hcs, Frame.encodeAll_append, Frame.encodeAll_cons,
        encode_rejected f, List.append_assoc] at hc
      simp only [front, List.append_assoc]
      exact hc
    exact List.append_cancel_left h
  have hlen : front.length ≤ (part ++ c).length := by
    simp only [List.flatten_append, List.flatten_singleton, hcs, Frame.encodeAll_append, List.length_append] at hle ⊢
    omega
  obtain ⟨left, hleft⟩ : front <+: part ++ c := List.prefix_of_prefix_length_le ⟨_, hrest.symm⟩ ⟨_, rfl⟩ hlen
  rw [← hleft, List.append_assoc] at hrest
  refine ⟨left, ?_, List.append_cancel_left hrest, feedAll_snoc hrun ?_⟩
  · have := congrArg List.length hleft
    simp only [List.flatten_append, List.flatten_singleton, hcs, Frame.encodeAll_append, List.length_append,
      hfront] at this ⊢
    omega
  · have hcall : wire.call Item.isOversized (part ++ c) =
        some (us.map Frame.item ++ [.oversized f.type f.payload.length], left) := by
      rw [← hleft]
      exact call_rejected (fun g hg => hpre g (by simp [hg])) hf left
    rw [feedOne_spec]
    simp [Decoder.feedStep, hcall, Decoder.stopped, Item.isOversized]

/-- Behind a rejected header, the next byte that arrives is taken for a type. -/
theorem payload_read {s₀ : Session} {r : Decoder.Reading UInt8 Item} {chunks cs rest : List Bytes}
    (hr : r.stopped = true) (hc : chunks = cs ++ rest)
    (hrun : feedAll cs s₀ = .returns () (s₀.reading r)) (hne : r.left ++ rest.flatten ≠ []) (hrest : rest ≠ [])
    (hleft : r.left.length ≤ cs.flatten.length) :
    ∃ n s, AtPass chunks s₀ n s ∧ cs.flatten.length - r.left.length ∈ headerOffsets n s := by
  induction rest generalizing cs with
  | nil => exact absurd rfl hrest
  | cons c rest ih =>
    subst hc
    by_cases hb : r.left ++ c = []
    · -- Nothing is there to read yet.
      obtain ⟨hl, rfl⟩ := List.append_eq_nil_iff.1 hb
      have hne' : r.left ++ rest.flatten ≠ [] := by simpa using hne
      have hcall : wire.call Item.isOversized [] = some ([], []) := wire.call_of_more (show wire.look [] = _ from rfl)
      have hp : parseMessage ((s₀.reading r).receive []) = .returns () (s₀.reading r) := by
        rw [feedOne_spec]
        simp [Decoder.feedStep, hl, hcall, Decoder.stopped, Session.reading, unread, hr, splitHeader]
      have hrest' : rest ≠ [] := by
        rintro rfl
        simp [hl] at hne'
      have h := ih (by simp) (feedAll_snoc hrun hp) hne' hrest' (by simp [hl])
      simpa using h
    · refine ⟨_, _, .call (c := c) ⟨rest, by simp⟩ hrun, ?_⟩
      have hm : (s₀.reading r).message = .clear ∧ (s₀.reading r).request = r.left := by
        simp [Session.reading, unread, hr]
      have hlen : 1 ≤ ((s₀.reading r).receive c).request.length := by
        rw [Session.receive, hm.2]
        exact List.length_pos_iff.2 hb
      have htype : (((s₀.reading r).receive c).message.vec .type).length ≠ 1 := by
        simp [Session.receive, hm.1, Message.clear, Message.vec]
      apply List.mem_append_left
      rw [filledAt, fill_take htype hlen]
      simp only [List.length_drop, List.mem_range'_1, Session.receive, hm.2, List.flatten_append,
        List.flatten_singleton, List.length_append] at hlen ⊢
      omega

/-- The header of the first rejected frame, if there is one, is complete only
with the last chunk. -/
def RejectedLast (fs : List AnyFrame) (chunks : List Bytes) : Prop :=
  ∀ pre f post, fs = pre ++ f :: post → (∀ g ∈ pre, g.Accepted) → ¬f.Accepted →
    chunks.dropLast.flatten.length < (Frame.encodeAll pre).length + 5

/-- A session stays in step with its frames if and only if no call comes after
the one that met the first rejected header. -/
theorem inSync_iff (fd : UniqueFD) (host port : Bytes) (fs : List AnyFrame) (chunks : List Bytes)
    (hc : chunks.flatten = Frame.encodeAll fs) :
    InSync fs chunks (Session.new fd host port).1 ↔ RejectedLast fs chunks := by
  constructor
  · rintro h pre f post rfl hpre hf
    by_contra hge
    obtain ⟨cs, c, rest, hdrop, hlt, hle⟩ := exists_cut (by omega) (Nat.not_lt.1 hge)
    have hne : chunks ≠ [] := by
      rintro rfl
      simp at hdrop
    obtain ⟨last, hlast⟩ : ∃ last, chunks = cs ++ c :: (rest ++ [last]) := by
      refine ⟨chunks.getLast hne, ?_⟩
      conv_lhs => rw [← List.dropLast_append_getLast hne, hdrop]
      simp
    rw [hlast] at hc
    obtain ⟨left, hlen, hrest, hrun⟩ := feedAll_rejects fd host port hpre hf hc hlt hle
    have hpos := f.nonempty
    have hsplit : chunks = (cs ++ [c]) ++ (rest ++ [last]) := by simp [hlast]
    obtain ⟨n, s, hat, hmem⟩ := payload_read rfl hsplit hrun
      (by rw [hrest]; exact List.append_ne_nil_of_left_ne_nil (List.length_pos_iff.1 hpos) _) (by simp)
      (by simp only [hlen]; omega)
    refine h.header n s hat _ hmem ⟨pre, f, post, rfl, hf, ?_, ?_⟩
    · simp only [hlen]
      omega
    · simp only [hlen, f.length_encode]
      omega
  · intro h
    obtain ⟨pre, tail, rfl, hpre, htail⟩ := exists_first_rejected fs
    apply inSync_of_cut hpre htail hc
    cases tail with
    | nil => exact .inl rfl
    | cons f post => exact .inr (h pre f post rfl hpre (htail f post rfl))

/-- A frame above the limit, whose payload starts like an image of one byte. -/
def hiddenFrame : AnyFrame where
  type := 'I'.toUInt8
  payload := [73, 0, 0, 0, 1, 7] ++ List.replicate Limit.maxMessageSize 1
  nonempty := by rw [List.length_append]; exact Nat.add_pos_left (by decide) _
  fits := by rw [List.length_append, List.length_replicate]; decide

theorem hiddenFrame_rejected : ¬hiddenFrame.Accepted := by
  rw [Frame.Accepted, hiddenFrame, List.length_append, List.length_replicate]
  decide

/-- A small frame, and one above the limit whose header is complete with the last chunk. -/
theorem inSync_iff_small :
    InSync [⟨73, [9], by decide, by decide⟩, hiddenFrame] [[73, 0, 0, 0, 1, 9, 73, 0, 160, 0], 6 :: hiddenFrame.payload]
      (Session.new (makeUniqueFD 5) (lit "10.0.0.1") (lit "4000")).1 := by
  have hheader : (Item.oversized hiddenFrame.type hiddenFrame.payload.length).encode = [73, 0, 160, 0, 6] := by
    rw [hiddenFrame, List.length_append, List.length_replicate]
    decide
  refine (inSync_iff (makeUniqueFD 5) (lit "10.0.0.1") (lit "4000") _ _ ?_).2 ?_
  · have hsmall : Frame.encode (⟨73, [9], by decide, by decide⟩ : AnyFrame) = [73, 0, 0, 0, 1, 9] := by decide
    simp only [Frame.encodeAll_cons, Frame.encodeAll_nil, encode_rejected hiddenFrame, hheader, hsmall,
      List.flatten_cons, List.flatten_nil, List.append_nil, List.cons_append, List.nil_append]
  · intro pre f post he hpre hf
    -- The rejected frame is the second one.
    match pre, he with
    | [], he =>
      obtain ⟨rfl, -⟩ := List.cons.inj he
      exact absurd (by decide) hf
    | [g], he =>
      obtain ⟨rfl, -⟩ := List.cons.inj he
      decide
    | g :: g' :: pre, he =>
      obtain ⟨rfl, -⟩ := List.cons.inj (List.cons.inj he).2
      exact absurd (hpre hiddenFrame (by simp)) hiddenFrame_rejected

/-- If the header of a rejected frame comes alone, a payload that starts like
an image of one byte gives a message. -/
theorem not_inSync_of_hidden {f : AnyFrame} {ys : Bytes} (fd : UniqueFD) (host port : Bytes)
    (hf : ¬f.Accepted) (hp : f.payload = [73, 0, 0, 0, 1, 7] ++ ys) :
    ¬InSync [f] [(Item.oversized f.type f.payload.length).encode, f.payload] (Session.new fd host port).1 := by
  intro h
  have hc : ([] ++ (Item.oversized f.type f.payload.length).encode :: [f.payload]).flatten =
      Frame.encodeAll ([] ++ f :: []) := by simp [encode_rejected]
  obtain ⟨left, hlen, -, hrun⟩ := feedAll_rejects fd host port (by simp) hf hc (by simp) (by simp [Item.encode])
  have hleft : left = [] := by simpa [Item.encode] using hlen
  subst hleft
  have hat : AtPass [(Item.oversized f.type f.payload.length).encode, f.payload] _ _ _ :=
    .call (c := f.payload) ⟨[], by simp⟩ hrun
  have hlook : look ([] ++ f.payload) = .item (.frame 73 [7]) ys := by
    have henc : (Item.frame 73 [7]).encode = [73, 0, 0, 0, 1, 7] := by decide
    rw [List.nil_append, hp, ← henc]
    exact look_frame (by decide) (by decide) ys
  have hready := Session.reading_ready (Session.new fd host port).1
    ⟨([] : List AnyFrame).map Frame.item ++ [.oversized f.type f.payload.length], [], true⟩
  have hpass := parsePass_item (hready.receive f.payload)
    (by rw [Session.receive_pending, Session.reading_pending]; exact hlook)
  have hsub := h.pushed _ _ _ _ hat hpass
  simp [hf, pushed, Item.toMessage?] at hsub

theorem hiddenFrame_not_inSync :
    ¬∀ chunks : List Bytes, chunks.flatten = Frame.encodeAll [hiddenFrame] →
      InSync [hiddenFrame] chunks (Session.new (makeUniqueFD 5) (lit "10.0.0.1") (lit "4000")).1 := by
  intro h
  refine not_inSync_of_hidden (makeUniqueFD 5) (lit "10.0.0.1") (lit "4000") hiddenFrame_rejected rfl (h _ ?_)
  rw [List.flatten_cons, List.flatten_singleton, ← encode_rejected]
  exact (List.append_nil _).symm

end RemoteScreenCapture
