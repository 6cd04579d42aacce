import RemoteScreenCapture.Dispatch
import RemoteScreenCapture.Lib.Run
/-!
# Runs of a session

A session serves events, one after the other, until one makes the server close
it. `Tracks` says how far it has read its stream, `Named` where the names come
from that it saves images under.
-/
open Lib Lib.BigEndian

namespace RemoteScreenCapture

/-- A session serving events. -/
def sessions : System Conn Event := .ofProc serveEvent

/-- A connection just accepted. -/
def Conn.fresh (fd : UniqueFD) (host port : Bytes) : Conn where
  session := (Session.new fd host port).1

/-- An event with the flag `EPOLLIN` alone. -/
def Event.onlyIn (i : InInput) : Event where
  err := false
  epollout := false
  epollin := true
  out := { send := ⟨[], .eagain⟩, mod := none }
  inp := i

theorem serveEvent_onlyIn (i : InInput) (c : Conn) : serveEvent (.onlyIn i) c = handleInEvent i c := by
  simp [serveEvent, Event.onlyIn, serveOut, Proc.bind_apply]

/-- Serves events as long as the session is kept. -/
def serveAll : List Event → Conn → Option Conn
  | [], c => some c
  | e :: es, c =>
    match serveEvent e c with
    | .returns true c' => serveAll es c'
    | _ => none

theorem serveAll_goes {es : List Event} {c c' : Conn} (h : serveAll es c = some c') : sessions.Goes c es c' := by
  induction es generalizing c with
  | nil => cases h; exact .nil
  | cons e es ih =>
    unfold serveAll at h
    split at h
    · rename_i c₁ hs
      exact .cons hs (ih h)
    · cases h

/-! ## Events for concrete runs -/

/-- A chunk written out, whose length is checked on the spot. -/
def Chunk.of (bytes : Bytes) (h : 0 < bytes.length ∧ bytes.length ≤ 4096 := by decide) : Chunk := ⟨bytes, h.1, h.2⟩

/-- The input of an IN event that brings the bytes of `reads` and meets no failure. -/
def InInput.brings (reads : List Read) : InInput where
  recv := ⟨reads, .eagain⟩
  send := ⟨[.sent 0], .eagain⟩
  save := { now := ⟨2025, 3, 9, 7, 5, 0⟩, dirsOk := true, openOk := true }
  mod := none

def Event.brings (reads : List Read) : Event := .onlyIn (.brings reads)

/-- A request for the names `pc` and `ann`. -/
def Chunk.request : Chunk := .of ([65, 0, 0, 0, 9, 0, 2] ++ lit "pc" ++ [0, 3] ++ lit "ann")

def samplePeer : Server.Endpoint := ⟨10, 0, 0, 1, 4000⟩

/-- A connection from it. -/
def Conn.sample : Conn := .fresh (makeUniqueFD 5) (Server.inetNtop samplePeer) (toDecimal samplePeer.port.toNat)

/-! ## Steps -/

theorem sessions_leaves {e : Event} {c c' : Conn} (h : sessions.last e c c') : (serveEvent e c).Leaves c' := by
  rcases h with h | ⟨x, h⟩ <;> rw [h] <;> rfl

theorem sessions_next {e : Event} {c c' : Conn} (h : sessions.next e c c') : (serveEvent e c).Leaves c' := by
  have h : serveEvent e c = _ := h
  rw [h]
  rfl

/-- A run is determined by its events. -/
theorem sessions_unique {es : List Event} {c c₁ c₂ : Conn} (h₁ : sessions.Goes c es c₁) (h₂ : sessions.Goes c es c₂) :
    c₁ = c₂ := by
  refine h₁.unique (fun e c c₁ c₂ hn hn' => ?_) h₂
  have hn : serveEvent e c = .returns true c₁ := hn
  have hn' : serveEvent e c = .returns true c₂ := hn'
  rw [hn] at hn'
  cases hn'
  rfl

/-- What an event keeps, however it ends, holds in every state of a run. -/
theorem sessions_induct {c₀ : Conn} (I : List Event → Conn → Prop) (h0 : I [] c₀)
    (hs : ∀ es e c c', sessions.Goes c₀ es c → I es c → (serveEvent e c).Leaves c' → I (es ++ [e]) c')
    {es : List Event} {c : Conn} (h : sessions.Visits c₀ es c) : I es c := by
  have hgoes : ∀ {es c}, sessions.Goes c₀ es c → I es c := fun hg =>
    hg.inv I h0 fun _ _ _ _ hg hc hn => hs _ _ _ _ hg hc (sessions_next hn)
  cases h with
  | goes hg => exact hgoes hg
  | ends hg hl => exact hs _ _ _ _ hg (hgoes hg) (sessions_leaves hl)

/-! ## What has been received -/

/-- The bytes that an event brings. -/
def Event.data (e : Event) : Bytes := if e.epollin then e.inp.data else []

def received (es : List Event) : Bytes := es.flatMap Event.data

@[simp] theorem received_append (es es' : List Event) : received (es ++ es') = received es ++ received es' :=
  List.flatMap_append

@[simp] theorem received_singleton (e : Event) : received [e] = e.data := by
  simp [received]

/-- The connection has read the bytes `bs` as far as `r`: what the parser found
has been dispatched or is in the queue, what it left is in the buffers. -/
structure Tracks (bs : Bytes) (r : Decoder.Reading UInt8 Item) (c : Conn) : Prop where
  reads : wire.Reads Item.isOversized bs r
  buffers : (c.session.message, c.session.request) = unread r.stopped r.left
  queue : taken c.effects ++ c.session.messages = pushed r.found

theorem tracks_fresh (fd : UniqueFD) (host port : Bytes) : Tracks [] .start (Conn.fresh fd host port) :=
  ⟨wire.reads_start, rfl, rfl⟩

section Tracks
variable {bs : Bytes} {r : Decoder.Reading UInt8 Item} {c c' : Conn}

theorem Tracks.ready (h : Tracks bs r c) : c.session.Ready := by
  have hm : c.session.message = (unread r.stopped r.left).1 := congrArg Prod.fst h.buffers
  unfold Session.Ready
  rw [hm]
  exact unread_partial _ _

theorem Tracks.pending (h : Tracks bs r c) : c.session.pending = r.left := by
  have hm : c.session.message = (unread r.stopped r.left).1 := congrArg Prod.fst h.buffers
  have hr : c.session.request = (unread r.stopped r.left).2 := congrArg Prod.snd h.buffers
  rw [Session.pending, hm, hr, unread_held]

theorem Tracks.typed (h : Tracks bs r c) : c.session.Typed := by
  intro m hm
  apply pushed_typed r.found
  rw [← h.queue]
  exact List.mem_append_right _ hm

/-- Sending changes nothing that has been read. -/
theorem Tracks.replies (h : Tracks bs r c) (hrep : Replies c c') : Tracks bs r c' := by
  constructor
  · exact h.reads
  · rw [hrep.session]
    exact h.buffers
  · rw [hrep.taken, hrep.session]
    exact h.queue

/-- A dispatch changes nothing in the buffers. -/
theorem Dispatched.buffers (h : Dispatched c c') :
    (c'.session.message, c'.session.request) = (c.session.message, c.session.request) := by
  cases h with
  | idle => rfl
  | image => rfl
  | auth _ _ hrep => rw [hrep.session]; rfl

/-- One call of `ParseMessage` and one dispatch. -/
theorem Tracks.receive (h : Tracks bs r c) {data t : Bytes} {is : List Item}
    (hc : wire.call Item.isOversized (r.left ++ data) = some (is, t))
    (hd : Dispatched { c with session := (c.session.receive data).after is t } c') :
    Tracks (bs ++ data) ⟨r.found ++ is, t, Decoder.stopped Item.isOversized is⟩ c' := by
  constructor
  · exact wire.reads_step h.reads (by simp [Decoder.feedStep, hc])
  · rw [hd.buffers]
    rfl
  · rw [hd.taken, pushed_append, ← h.queue]
    simp [Session.receive]

/-- Any event that leaves the session: it has been read, or nothing was dispatched. -/
theorem Tracks.leaves (h : Tracks bs r c) {e : Event} (hl : (serveEvent e c).Leaves c') :
    taken c'.effects = taken c.effects ∨ ∃ r', Tracks (bs ++ e.data) r' c' := by
  obtain ⟨c₁, hrep, rfl | ⟨hin, hl⟩⟩ := serveEvent_leaves hl
  · exact .inl hrep.taken
  · have h₁ := h.replies hrep
    rcases handleInEvent_leaves h₁.ready h₁.typed hl with ⟨-, rfl⟩ | ⟨is, t, hc, hd⟩
    · exact .inl hrep.taken
    · rw [h₁.pending] at hc
      right
      rw [show e.data = e.inp.data from if_pos hin]
      exact ⟨_, h₁.receive hc hd⟩

/-- An event after which the session is kept. -/
theorem Tracks.next (h : Tracks bs r c) {e : Event} (hn : serveEvent e c = .returns true c') :
    ∃ r', Tracks (bs ++ e.data) r' c' := by
  obtain ⟨c₁, hrep, hin⟩ := serveEvent_true hn
  have h₁ := h.replies hrep
  cases he : e.epollin with
  | true =>
    simp only [he, if_true] at hin
    obtain ⟨is, t, hc, hd⟩ := handleInEvent_true h₁.ready h₁.typed hin
    rw [h₁.pending] at hc
    rw [show e.data = e.inp.data from if_pos he]
    exact ⟨_, h₁.receive hc hd⟩
  | false =>
    simp only [he, Bool.false_eq_true, if_false] at hin
    subst hin
    exact ⟨r, by simpa [Event.data, he] using h₁⟩

end Tracks

/-- In every run, the session has read what it received. -/
theorem run_tracks {fd : UniqueFD} {host port : Bytes} {es : List Event} {c : Conn}
    (h : sessions.Goes (Conn.fresh fd host port) es c) : ∃ r, Tracks (received es) r c := by
  apply h.inv fun es c => ∃ r, Tracks (received es) r c
  · exact ⟨_, tracks_fresh fd host port⟩
  · rintro es e c c' - ⟨r, ht⟩ hn
    rw [received_append, received_singleton]
    exact ht.next hn

/-- Whatever a session dispatches, it has received, in that order. -/
theorem run_taken {fd : UniqueFD} {host port : Bytes} {es : List Event} {c : Conn}
    (h : sessions.Visits (Conn.fresh fd host port) es c) :
    taken c.effects <+: pushed (wire.items (received es)).1 := by
  have hpre : ∀ {bs r c}, Tracks bs r c → taken c.effects <+: pushed (wire.items bs).1 := by
    intro bs r c ht
    have hp : pushed r.found <+: pushed (wire.items bs).1 := ht.reads.found.filterMap _
    rw [← ht.queue] at hp
    exact (List.prefix_append _ _).trans hp
  cases h with
  | goes hg =>
    obtain ⟨r, ht⟩ := run_tracks hg
    exact hpre ht
  | ends hg hl =>
    obtain ⟨r, ht⟩ := run_tracks hg
    rw [received_append, received_singleton]
    rcases ht.leaves (sessions_leaves hl) with he | ⟨r', ht'⟩
    · rw [he]
      exact (hpre ht).trans ((wire.items_prefix _ _).filterMap _)
    · exact hpre ht'

/-! ## Invariants of sessions -/

/-- `c'` differs from `c` in what was received and not yet dispatched only. -/
def Conn.Rebuffered (c c' : Conn) : Prop :=
  ∃ message messages request, c' = { c with session :=
    { c.session with message := message, messages := messages, request := request } }

theorem Conn.Rebuffered.refl (c : Conn) : c.Rebuffered c := ⟨_, _, _, rfl⟩

/-- The event comes to the dispatch of a message, in the state `c'`. -/
def Dispatches (e : Event) (c c' : Conn) : Prop :=
  e.err = false ∧ e.epollin = true ∧ e.inp.recv.stop = .eagain ∧
    ∃ c₁ s, serveOut e c = .returns true c₁ ∧ parseMessage (c₁.session.receive e.inp.data) = .returns () s ∧
      c' = { c₁ with session := s }

theorem Dispatches.unique {e : Event} {c c' c'' : Conn} (h : Dispatches e c c') (h' : Dispatches e c c'') :
    c' = c'' := by
  obtain ⟨-, -, -, c₁, s, hout, hparse, rfl⟩ := h
  obtain ⟨-, -, -, c₂, s', hout', hparse', rfl⟩ := h'
  rw [hout] at hout'
  cases hout'
  rw [hparse] at hparse'
  cases hparse'
  rfl

/-- Up to the dispatch, some of the response was sent and bytes were read. -/
theorem Dispatches.before {e : Event} {c c' : Conn} (hr : c.session.Ready) (hq : c.session.Typed)
    (h : Dispatches e c c') : ∃ c₁, Replies c c₁ ∧ c₁.Rebuffered c' ∧ c'.session.Typed := by
  obtain ⟨-, -, -, c₁, s, hout, hparse, rfl⟩ := h
  have hrep : Replies c c₁ := serveOut_leaves (by rw [hout]; rfl)
  have hr₁ : c₁.session.Ready := by
    rw [hrep.session]
    exact hr
  have hq₁ : c₁.session.Typed := by
    rw [hrep.session]
    exact hq
  rw [parseMessage_spec (hr₁.receive _)] at hparse
  cases hc : wire.call Item.isOversized (c₁.session.receive e.inp.data).pending with
  | none =>
    rw [hc] at hparse
    cases hparse
  | some found =>
    rw [hc] at hparse
    cases hparse
    exact ⟨c₁, hrep, ⟨_, _, _, rfl⟩, Session.Typed.after (s := c₁.session.receive e.inp.data) hq₁ _ _⟩

/-- What an event leaves, the dispatch has left, or there was none. -/
theorem serveEvent_dispatch {e : Event} {c c' : Conn} (hr : c.session.Ready) (h : (serveEvent e c).Leaves c') :
    (∃ c₂, Dispatches e c c₂ ∧ (dispatchMessage e.inp c₂).Leaves c') ∨
      (∀ c₂, ¬Dispatches e c c₂) ∧ ∃ c₁, Replies c c₁ ∧ c₁.Rebuffered c' := by
  rcases serveEvent_cases e c with
    ⟨he, hs⟩ | ⟨he, c₁, hrep, ⟨x, hout, hs⟩ | ⟨hout, hs⟩ | ⟨hout, hs⟩⟩ <;> rw [hs] at h
  · cases h
    exact .inr ⟨fun c₂ hd => by simp [he, Dispatches] at hd, c, .refl c, .refl c⟩
  · cases h
    refine .inr ⟨?_, _, hrep, .refl _⟩
    rintro c₂ ⟨-, -, -, c₁, s, hout', -⟩
    rw [hout] at hout'
    cases hout'
  · cases h
    refine .inr ⟨?_, _, hrep, .refl _⟩
    rintro c₂ ⟨-, -, -, c₁, s, hout', -⟩
    rw [hout] at hout'
    cases hout'
  · split at h
    · rename_i hin
      by_cases hstop : e.inp.recv.stop = .eagain
      · have hr₁ : c₁.session.Ready := by
          rw [hrep.session]
          exact hr
        have hparse := parseMessage_spec (hr₁.receive e.inp.data)
        rw [Session.receive_pending] at hparse
        rw [handleInEvent_eagain hr₁ hstop] at h
        cases hc : wire.call Item.isOversized (c₁.session.pending ++ e.inp.data) with
        | none =>
          rw [hc] at h
          cases h
        | some found =>
          rw [hc] at h hparse
          exact .inl ⟨_, ⟨he, hin, hstop, c₁, _, hout, hparse, rfl⟩, h⟩
      · rw [handleInEvent_closed hstop] at h
        cases h
        exact .inr ⟨fun c₂ hd => hstop hd.2.2.1, c₁, hrep, ⟨_, _, _, rfl⟩⟩
    · rename_i hin
      cases h
      exact .inr ⟨fun c₂ hd => hin hd.2.1, _, hrep, .refl _⟩

/-- An event sends some of the response, reads and dispatches. -/
theorem Tracks.moves {bs : Bytes} {r : Decoder.Reading UInt8 Item} {c c' : Conn} {e : Event} (ht : Tracks bs r c)
    (hl : (serveEvent e c).Leaves c') :
    ∃ c₁ c₂, Replies c c₁ ∧ c₁.Rebuffered c₂ ∧ (c' = c₂ ∨ Dispatched c₂ c') := by
  obtain ⟨c₁, hrep, rfl | ⟨-, hl⟩⟩ := serveEvent_leaves hl
  · exact ⟨c', c', hrep, ⟨_, _, _, rfl⟩, .inl rfl⟩
  · have h₁ := ht.replies hrep
    rcases handleInEvent_leaves h₁.ready h₁.typed hl with ⟨-, rfl⟩ | ⟨is, t, -, hd⟩
    · exact ⟨c₁, _, hrep, ⟨_, _, _, rfl⟩, .inl rfl⟩
    · exact ⟨c₁, _, hrep, ⟨_, _, _, rfl⟩, .inr hd⟩

/-- What holds of a new connection and is kept by sending, reading and
dispatching holds in every state of a run. -/
theorem run_inv {P : Conn → Prop} {fd : UniqueFD} {host port : Bytes} {es : List Event} {c : Conn}
    (h0 : P (Conn.fresh fd host port)) (hrep : ∀ c c', P c → Replies c c' → P c')
    (hbuf : ∀ c c', P c → c.Rebuffered c' → P c') (hdis : ∀ c c', P c → Dispatched c c' → P c')
    (h : sessions.Visits (Conn.fresh fd host port) es c) : P c := by
  apply sessions_induct (fun _ c => P c) h0 _ h
  intro es e c c' hg hc hl
  obtain ⟨r, ht⟩ := run_tracks hg
  obtain ⟨c₁, c₂, h₁, h₂, h₃⟩ := ht.moves hl
  have hc₂ := hbuf _ _ (hrep _ _ hc h₁) h₂
  rcases h₃ with rfl | hd
  · exact hc₂
  · exact hdis _ _ hc₂ hd

/-- An effect about a message has a message of its type. -/
def Effect.Typed : Effect → Prop
  | .auth msg _ => msg.typeVec = ['A'.toUInt8]
  | .save call => call.msg.typeVec = ['I'.toUInt8]
  | _ => True

/-- Requests are authenticated and images saved, never the other way round. -/
theorem run_effects_typed {fd : UniqueFD} {host port : Bytes} {es : List Event} {c : Conn}
    (h : sessions.Visits (Conn.fresh fd host port) es c) : ∀ e ∈ c.effects, e.Typed := by
  have hreply : ∀ {c c' : Conn}, (∀ e ∈ c.effects, e.Typed) → Replies c c' → ∀ e ∈ c'.effects, e.Typed := by
    intro c c' hc hrep e he
    obtain ⟨es, hes, hr, -⟩ := hrep.effects
    rw [hes] at he
    rcases List.mem_append.1 he with he | he
    · exact hc e he
    · have := hr e he
      cases e <;> trivial
  have hsnoc : ∀ {es : List Effect} {e : Effect}, (∀ e ∈ es, e.Typed) → e.Typed → ∀ e' ∈ es ++ [e], e'.Typed := by
    intro es e hes he e' he'
    rcases List.mem_append.1 he' with he' | he'
    · exact hes e' he'
    · rw [List.mem_singleton.1 he']
      exact he
  apply run_inv _ (fun _ _ => hreply) _ _ h
  · simp [Conn.fresh]
  · rintro c _ hc ⟨_, _, _, rfl⟩
    exact hc
  · intro c c' hc hd
    cases hd with
    | idle => exact hc
    | image _ ht => exact hsnoc hc ht
    | @auth m ms _ _ ht hrep =>
      have hauth : Effect.Typed (.auth m (announced m.bytesVec).ok) := ht
      exact hreply (hsnoc hc hauth) hrep

/-- The answer `'Y'` stands in the response, or was sent, for accepted requests only. -/
def Answered (c : Conn) : Prop :=
  'Y'.toUInt8 ∈ sentBytes c.effects ++ c.session.response → ∃ m, .auth m true ∈ c.effects

theorem Answered.replies {c c' : Conn} (h : Answered c) (hrep : Replies c c') : Answered c' := by
  intro hy
  obtain ⟨es, hes, -, hb⟩ := hrep.effects
  rw [hes, sentBytes_append, List.append_assoc, hb] at hy
  obtain ⟨m, hm⟩ := h hy
  exact ⟨m, by rw [hes]; exact List.mem_append_left _ hm⟩

theorem mem_answer {c : Conn} {ok : Bool} {b : UInt8} (h : b ∈ (c.answer ok).session.response) :
    b ∈ c.session.response ∨ b = if ok then 'Y'.toUInt8 else 'N'.toUInt8 := by
  unfold Conn.answer at h
  dsimp only at h
  split at h
  · exact List.mem_or_eq_of_mem_set h
  · exact .inr (List.mem_singleton.1 h)

theorem Answered.answer {c : Conn} {m : Message} {ms : List Message} (h : Answered c) :
    Answered ((c.authenticated m ms).answer (announced m.bytesVec).ok) := by
  intro hy
  have hsent : sentBytes ((c.authenticated m ms).answer (announced m.bytesVec).ok).effects = sentBytes c.effects := by
    simp [Conn.answer, Conn.authenticated, sentBytes, Effect.sentBytes]
  have hold : 'Y'.toUInt8 ∈ sentBytes c.effects ++ c.session.response →
      ∃ m', .auth m' true ∈ c.effects ++ [.auth m (announced m.bytesVec).ok] := by
    intro hy
    obtain ⟨m', hm'⟩ := h hy
    exact ⟨m', List.mem_append_left _ hm'⟩
  rw [hsent] at hy
  rcases List.mem_append.1 hy with hy | hy
  · exact hold (List.mem_append_left _ hy)
  · rcases mem_answer hy with hy | hy
    · exact hold (List.mem_append_right _ hy)
    · cases hok : (announced m.bytesVec).ok with
      | true => exact ⟨m, by simp [Conn.answer, Conn.authenticated, hok]⟩
      | false =>
        rw [hok] at hy
        exact absurd hy (by decide)

theorem run_answered {fd : UniqueFD} {host port : Bytes} {es : List Event} {c : Conn}
    (h : sessions.Visits (Conn.fresh fd host port) es c) : Answered c := by
  apply run_inv _ (fun _ _ => Answered.replies) _ _ h
  · intro hy
    simp [Conn.fresh, Session.new, sentBytes] at hy
  · rintro c _ hc ⟨_, _, _, rfl⟩
    exact hc
  · intro c c' hc hd
    cases hd with
    | idle => exact hc
    | image => simpa [Answered, Conn.saved, sentBytes, Effect.sentBytes] using hc
    | auth _ _ hrep => exact hc.answer.replies hrep

/-! ## Whose images a session saves -/

/-- The calls of `SaveScreen`, in order. -/
def saves (es : List Effect) : List SaveCall :=
  es.filterMap fun e => match e with | .save call => some call | _ => none

/-- The names that the requests handled so far have stored, in order. -/
def stored (es : List Effect) : Identity :=
  es.foldl (fun i e => match e with | .auth msg _ => i.announce msg.bytesVec | _ => i) ⟨[], []⟩

theorem stored_append (es es' : List Effect) :
    stored (es ++ es') =
      es'.foldl (fun i e => match e with | .auth msg _ => i.announce msg.bytesVec | _ => i) (stored es) :=
  List.foldl_append

/-- The effect is a call of `HandleAuthRequest` that has returned. -/
def Effect.IsAuth : Effect → Prop
  | .auth _ _ => True
  | _ => False

/-- Only requests store names. -/
theorem stored_of_no_auth {es es' : List Effect} (h : ∀ e ∈ es', ¬e.IsAuth) : stored (es ++ es') = stored es := by
  rw [stored_append]
  induction es' with
  | nil => rfl
  | cons e es' ih =>
    have he := h e (by simp)
    have ih := ih fun e he => h e (by simp [he])
    rw [List.foldl_cons]
    cases e with
    | auth msg ok => exact absurd trivial he
    | _ => exact ih

theorem stored_replies {es es' : List Effect} (h : ∀ e ∈ es', e.IsReply) : stored (es ++ es') = stored es := by
  apply stored_of_no_auth
  intro e he hauth
  have hreply := h e he
  cases e <;> cases hreply <;> cases hauth

/-- A call of `SaveScreen` in a session of the given peer that holds the names `i`. -/
def SavesAs (host port : Bytes) (i : Identity) (call : SaveCall) : Prop :=
  ∃ s m env, call = Session.saveCall s m env ∧ s.clientHost = host ∧ s.clientPort = port ∧ s.identity = i

/-- Every image was saved under the names that the requests before it stored. -/
structure Named (host port : Bytes) (c : Conn) : Prop where
  ofHost : c.session.clientHost = host
  ofPort : c.session.clientPort = port
  names : c.session.identity = stored c.effects
  saves : ∀ pre call post, c.effects = pre ++ .save call :: post → SavesAs host port (stored pre) call
  auths : ∀ m ok, .auth m ok ∈ c.effects → ok = (announced m.bytesVec).ok

theorem named_fresh (fd : UniqueFD) (host port : Bytes) : Named host port (Conn.fresh fd host port) :=
  ⟨rfl, rfl, rfl, by simp [Conn.fresh], by simp [Conn.fresh]⟩

section Named
variable {host port : Bytes} {c c' : Conn}

/-- Effects that are no calls of `SaveScreen` leave the calls as they were. -/
theorem savesAs_append {es es' : List Effect} (hes' : ∀ call, .save call ∉ es')
    (h : ∀ pre call post, es = pre ++ .save call :: post → SavesAs host port (stored pre) call) :
    ∀ pre call post, es ++ es' = pre ++ .save call :: post → SavesAs host port (stored pre) call := by
  intro pre call post he
  rcases List.append_eq_append_iff.1 he with ⟨us, rfl, hu⟩ | ⟨us, rfl, hu⟩
  · exact absurd (by rw [hu]; simp) (hes' call)
  · cases us with
    | nil => exact absurd (by rw [List.nil_append] at hu; rw [← hu]; simp) (hes' call)
    | cons u us =>
      obtain ⟨rfl, -⟩ := List.cons.inj hu
      exact h pre _ us rfl

theorem Named.replies (h : Named host port c) (hrep : Replies c c') : Named host port c' := by
  obtain ⟨es, he, hes, -⟩ := hrep.effects
  have hsave : ∀ call, .save call ∉ es := fun call hm => hes _ hm
  constructor
  · rw [hrep.session]
    exact h.ofHost
  · rw [hrep.session]
    exact h.ofPort
  · rw [hrep.session, he, stored_replies hes]
    exact h.names
  · rw [he]
    exact savesAs_append hsave h.saves
  · intro m ok hm
    rw [he] at hm
    rcases List.mem_append.1 hm with hm | hm
    · exact h.auths m ok hm
    · exact absurd (hes _ hm) id

theorem Named.dispatched (h : Named host port c) (hd : Dispatched c c') : Named host port c' := by
  cases hd with
  | idle => exact h
  | @image m ms env hm =>
    constructor
    · exact h.ofHost
    · exact h.ofPort
    · rw [Conn.saved, stored_append]
      exact h.names
    · intro pre call post he
      rcases List.eq_nil_or_concat post with rfl | ⟨post, e, rfl⟩
      · obtain ⟨rfl, hcall⟩ := List.append_inj' he rfl
        cases hcall
        exact ⟨c.session, m, env, rfl, h.ofHost, h.ofPort, h.names⟩
      · rw [List.concat_eq_append, ← List.cons_append, ← List.append_assoc] at he
        exact h.saves pre call post (List.append_inj' he rfl).1
    · intro m' ok hm'
      rcases List.mem_append.1 hm' with hm' | hm'
      · exact h.auths m' ok hm'
      · simp at hm'
  | @auth m ms _ hm _ hrep =>
    refine Named.replies ?_ hrep
    constructor
    · exact h.ofHost
    · exact h.ofPort
    · have hnames := h.names
      simp only [Conn.answer, Conn.authenticated, stored_append, List.foldl_cons, List.foldl_nil, ← hnames]
      rfl
    · exact savesAs_append (by simp) h.saves
    · intro m' ok hm'
      rcases List.mem_append.1 hm' with hm' | hm'
      · exact h.auths m' ok hm'
      · simp only [List.mem_singleton, Effect.auth.injEq] at hm'
        rw [hm'.1, hm'.2]

theorem Named.rebuffered (h : Named host port c) (hb : c.Rebuffered c') : Named host port c' := by
  obtain ⟨_, _, _, rfl⟩ := hb
  exact ⟨h.ofHost, h.ofPort, h.names, h.saves, h.auths⟩

end Named

/-- In every run, images are saved under the names stored before them. -/
theorem run_named {fd : UniqueFD} {host port : Bytes} {es : List Event} {c : Conn}
    (h : sessions.Visits (Conn.fresh fd host port) es c) : Named host port c := by
  apply run_inv (named_fresh fd host port) _ _ _ h
  · exact fun _ _ => Named.replies
  · exact fun _ _ => Named.rebuffered
  · exact fun _ _ => Named.dispatched

end RemoteScreenCapture
