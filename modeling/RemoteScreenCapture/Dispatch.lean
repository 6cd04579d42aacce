import RemoteScreenCapture.Auth
import RemoteScreenCapture.Server
import RemoteScreenCapture.Stream
/-!
# What one event does to a session

`serveEvent_leaves` sums up the handlers: an event sends some of the response,
then appends what arrived, lets `ParseMessage` read it and dispatches at most
the message at the front of the queue. Every invariant of a session's runs is
derived from these few moves.
-/
open Lib Lib.BigEndian

namespace RemoteScreenCapture

/-- The bytes that the kernel accepted. -/
def Effect.sentBytes : Effect → Bytes
  | .sent bytes => bytes
  | _ => []

def sentBytes (es : List Effect) : Bytes := es.flatMap Effect.sentBytes

/-- The message that a handler took from the queue. -/
def Effect.taken? : Effect → Option Message
  | .auth msg _ => some msg
  | .save call => some call.msg
  | _ => none

/-- The messages dispatched, in order. -/
def taken (es : List Effect) : List Message := es.filterMap Effect.taken?

/-- An effect of sending. -/
def Effect.IsReply : Effect → Prop
  | .sent _ => True
  | .epollMod _ => True
  | _ => False

@[simp] theorem sentBytes_append (es es' : List Effect) : sentBytes (es ++ es') = sentBytes es ++ sentBytes es' :=
  List.flatMap_append

@[simp] theorem taken_append (es es' : List Effect) : taken (es ++ es') = taken es ++ taken es' :=
  List.filterMap_append

/-- Where effects of sending count for nothing, a list of them does. -/
theorem filterMap_replies {α : Type} {f : Effect → Option α} (hf : ∀ e : Effect, e.IsReply → f e = none)
    {es : List Effect} (h : ∀ e ∈ es, e.IsReply) : es.filterMap f = [] :=
  List.filterMap_eq_nil_iff.2 fun e he => hf e (h e he)

theorem taken_replies {es : List Effect} (h : ∀ e ∈ es, e.IsReply) : taken es = [] := by
  apply filterMap_replies _ h
  intro e he
  cases e <;> first | rfl | cases he

/-! ## Sending -/

/-- `c'` is `c` after some of its response has been sent. -/
structure Replies (c c' : Conn) : Prop where
  session : c'.session = { c.session with response := c'.session.response }
  effects : ∃ es, c'.effects = c.effects ++ es ∧ (∀ e ∈ es, e.IsReply) ∧
    sentBytes es ++ c'.session.response = c.session.response

theorem Replies.refl (c : Conn) : Replies c c :=
  ⟨rfl, [], by simp, by simp, rfl⟩

theorem Replies.trans {a b c : Conn} (h : Replies a b) (h' : Replies b c) : Replies a c := by
  obtain ⟨es, he, hr, hb⟩ := h.effects
  obtain ⟨es', he', hr', hb'⟩ := h'.effects
  refine ⟨by rw [h'.session, h.session], es ++ es', ?_, ?_, ?_⟩
  · rw [he', he, List.append_assoc]
  · intro e hm
    rcases List.mem_append.1 hm with hm | hm
    · exact hr e hm
    · exact hr' e hm
  · rw [sentBytes_append, List.append_assoc, hb', hb]

theorem Replies.taken {c c' : Conn} (h : Replies c c') : taken c'.effects = taken c.effects := by
  obtain ⟨es, he, hr, -⟩ := h.effects
  rw [he, taken_append, taken_replies hr, List.append_nil]

theorem replies_emit {c : Conn} {e : Effect} (h : e.IsReply) (hb : e.sentBytes = []) :
    Replies c { c with effects := c.effects ++ [e] } :=
  ⟨rfl, [e], rfl, by simpa using h, by simp [sentBytes, hb]⟩

section Send
variable {script : SendScript} {c : Conn} {sends : List Send}

theorem trySend_go_empty (h : c.session.response = []) : trySend.go script sends c = .returns true c := by
  rw [trySend.go]
  simp [Proc.bind_apply, h]

theorem trySend_go_nil (h : c.session.response ≠ []) :
    trySend.go script [] c = .returns (script.stop = .eagain) c := by
  rw [trySend.go]
  simp [Proc.bind_apply, h]

theorem trySend_go_eintr (h : c.session.response ≠ []) :
    trySend.go script (.eintr :: sends) c = trySend.go script sends c := by
  rw [trySend.go]
  simp [Proc.bind_apply, h]

/-- The response without its first `n` bytes, which the kernel accepted. -/
def Conn.accept (c : Conn) (n : Nat) : Conn where
  session := { c.session with response := c.session.response.drop n }
  effects := c.effects ++ [.sent (c.session.response.take n)]

theorem replies_accept (c : Conn) (n : Nat) : Replies c (c.accept n) := by
  refine ⟨rfl, [.sent (c.session.response.take n)], rfl, ?_, ?_⟩
  · simp [Effect.IsReply]
  · simp [sentBytes, Effect.sentBytes, Conn.accept]

theorem trySend_go_sent {k : Nat} (h : c.session.response ≠ []) :
    trySend.go script (.sent k :: sends) c =
      trySend.go script sends (c.accept (min (k + 1) c.session.response.length)) := by
  rw [trySend.go]
  simp [Proc.bind_apply, h, emit, Conn.accept]

end Send

theorem trySend_go_spec (script : SendScript) (sends : List Send) (c : Conn) :
    ∃ ok c', trySend.go script sends c = .returns ok c' ∧ Replies c c' ∧ (script.stop = .eagain → ok = true) := by
  induction sends generalizing c with
  | nil =>
    by_cases hr : c.session.response = []
    · exact ⟨true, c, trySend_go_empty hr, .refl c, fun _ => rfl⟩
    · exact ⟨_, c, trySend_go_nil hr, .refl c, by simp⟩
  | cons send sends ih =>
    by_cases hr : c.session.response = []
    · exact ⟨true, c, trySend_go_empty hr, .refl c, fun _ => rfl⟩
    cases send with
    | eintr =>
      rw [trySend_go_eintr hr]
      exact ih c
    | sent k =>
      rw [trySend_go_sent hr]
      obtain ⟨ok, c', hc, hrep, hok⟩ := ih (c.accept (min (k + 1) c.session.response.length))
      exact ⟨ok, c', hc, (replies_accept c _).trans hrep, hok⟩

/-- `TrySend` always returns, having sent some of the response. -/
theorem trySend_spec (script : SendScript) (c : Conn) :
    ∃ ok c', trySend script c = .returns ok c' ∧ Replies c c' ∧ (script.stop = .eagain → ok = true) :=
  trySend_go_spec script script.sends c

/-- The exception that `UpdateEpollEvents` throws. -/
def epollError (err : String) : Exn := .runtimeError ("epoll_ctl(): " ++ err)

/-- How a handler ends whose last act is to set the mask. -/
def Conn.remask (c : Conn) (mask : Mask) : Option String → Outcome Conn Exn Bool
  | none => .returns true { c with effects := c.effects ++ [.epollMod mask] }
  | some err => .throws (epollError err) c

section Remask
variable {c c' : Conn} {mask : Mask} {mod : Option String}

theorem updateEpollEvents_spec :
    (do updateEpollEvents mask mod; return true : ConnProc Bool) c = c.remask mask mod := by
  cases mod <;> rfl

theorem remask_ends (c : Conn) (mask : Mask) (mod : Option String) : ∃ c', (c.remask mask mod).Leaves c' := by
  cases mod <;> exact ⟨_, rfl⟩

theorem remask_leaves (h : (c.remask mask mod).Leaves c') : Replies c c' := by
  cases mod with
  | none =>
    cases h
    exact replies_emit trivial rfl
  | some err =>
    cases h
    exact .refl c

theorem remask_returns {ok : Bool} (h : c.remask mask mod = .returns ok c') :
    c' = { c with effects := c.effects ++ [.epollMod mask] } := by
  cases mod with
  | none =>
    cases h
    rfl
  | some err => cases h

theorem remask_throws {e : Exn} (h : c.remask mask mod = .throws e c') : ∃ err, mod = some err ∧ e = epollError err := by
  cases mod with
  | none => cases h
  | some err =>
    cases h
    exact ⟨err, rfl, rfl⟩

end Remask

/-- `HandleOutEvent` sends, and waits for `EPOLLIN` alone once all has been sent. -/
theorem handleOutEvent_spec (i : OutInput) (c : Conn) :
    ∃ ok c₁, trySend i.send c = .returns ok c₁ ∧ Replies c c₁ ∧
      handleOutEvent i c = if ok then
        if c₁.session.response = [] then
          c₁.remask { epollin := true, epollout := false, epollet := true } i.mod
        else .returns true c₁
      else .returns false c₁ := by
  obtain ⟨ok, c₁, hsend, hrep, -⟩ := trySend_spec i.send c
  refine ⟨ok, c₁, hsend, hrep, ?_⟩
  unfold handleOutEvent
  rw [Proc.bind_returns hsend]
  cases ok with
  | false => rfl
  | true =>
    simp only [Bool.not_true, Bool.false_eq_true, if_false, if_true, Proc.bind_apply (p := get), Proc.get_apply,
      Proc.ite_apply, updateEpollEvents_spec, Session.sendBufferEmpty, decide_eq_true_eq, Proc.pure_apply]

theorem handleOutEvent_leaves {i : OutInput} {c c' : Conn} (h : (handleOutEvent i c).Leaves c') :
    Replies c c' := by
  obtain ⟨ok, c₁, -, hrep, hspec⟩ := handleOutEvent_spec i c
  rw [hspec] at h
  split at h
  · split at h
    · exact hrep.trans (remask_leaves h)
    · cases h
      exact hrep
  · cases h
    exact hrep

theorem handleOutEvent_ends (i : OutInput) (c : Conn) : ∃ c', (handleOutEvent i c).Leaves c' := by
  obtain ⟨ok, c₁, -, -, hspec⟩ := handleOutEvent_spec i c
  rw [hspec]
  split
  · split
    · exact remask_ends _ _ _
    · exact ⟨c₁, rfl⟩
  · exact ⟨c₁, rfl⟩

/-! ## Dispatching -/

/-- A message that `HandleInEvent` has a handler for. -/
def Message.Known (m : Message) : Prop := m.typeVec = ['A'.toUInt8] ∨ m.typeVec = ['I'.toUInt8]

instance (m : Message) : Decidable m.Known := inferInstanceAs (Decidable (_ ∨ _))

/-- The call of `SaveScreen` that a session makes for a message. -/
def Session.saveCall (s : Session) (m : Message) (env : SaveEnv) : SaveCall where
  msg := m
  hostname := s.clientHostname
  username := s.clientUsername
  outPath := s.outPath env.now
  written := env.dirsOk && env.openOk

/-- A connection that has handed the image `m` to `SaveScreen`. -/
def Conn.saved (c : Conn) (m : Message) (ms : List Message) (env : SaveEnv) : Conn where
  session := { c.session with messages := ms }
  effects := c.effects ++ [.save (c.session.saveCall m env)]

/-- A connection that is about to send a verdict. -/
def Conn.answer (c : Conn) (ok : Bool) : Conn :=
  let resp := if ok then 'Y'.toUInt8 else 'N'.toUInt8
  { c with session := { c.session with
    response := if c.session.response ≠ [] then c.session.response.set 0 resp else [resp] } }

theorem getMessageType_spec {s : Session} {m : Message} {ms : List Message} {t : UInt8}
    (h : s.messages = m :: ms) (ht : m.typeVec = [t]) : getMessageType s = .returns t.toNat s := by
  have hpeek : peekUint8 m.typeVec = .ok t.toNat := by
    rw [ht]
    exact congrArg Except.ok (value_singleton t)
  simp only [getMessageType, Proc.bind_apply, front_spec h, hpeek]
  rfl

theorem toNat_A {t : UInt8} : t.toNat = 'A'.toNat ↔ t = 'A'.toUInt8 :=
  UInt8.toNat_inj (b := 'A'.toUInt8)

theorem toNat_I {t : UInt8} : t.toNat = 'I'.toNat ↔ t = 'I'.toUInt8 :=
  UInt8.toNat_inj (b := 'I'.toUInt8)

section Dispatch
variable {c c' : Conn} {i : InInput} {m : Message} {ms : List Message} {t : UInt8}

theorem handleImgMessage_spec {env : SaveEnv} (h : c.session.messages = m :: ms) :
    handleImgMessage env c = .returns () (c.saved m ms env) := by
  have hsave : saveScreen m env c =
      .returns () { c with effects := c.effects ++ [.save (c.session.saveCall m env)] } := rfl
  unfold handleImgMessage
  rw [Proc.bind_returns (lift_returns (front_spec h)), Proc.bind_returns hsave]
  exact lift_returns (popMessage_spec h)

theorem sendAuthResponse_spec (ok : Bool) (script : SendScript) (c : Conn) :
    sendAuthResponse ok script c = trySend script (c.answer ok) := by
  unfold sendAuthResponse Conn.answer
  simp only [Proc.bind_apply, Proc.modify_apply]
  by_cases hr : c.session.response = []
  · simp [hr]
  · simp [hr]

/-- The branch of `HandleInEvent` for `'A'` answers, and waits for `EPOLLOUT`
unless all has been sent. -/
theorem dispatchAuth_spec (i : InInput) (h : c.session.messages = m :: ms) :
    ∃ ok c₁, Replies ((c.authenticated m ms).answer (announced m.bytesVec).ok) c₁ ∧
      (i.send.stop = .eagain → ok = true) ∧
      dispatchAuth i c = if ok then
        if c₁.session.response = [] then .returns true c₁
        else c₁.remask { epollin := true, epollout := true, epollet := true } i.mod
      else .returns false c₁ := by
  obtain ⟨ok, c₁, hsend, hrep, hok⟩ := trySend_spec i.send ((c.authenticated m ms).answer (announced m.bytesVec).ok)
  refine ⟨ok, c₁, hrep, hok, ?_⟩
  unfold dispatchAuth
  rw [Proc.bind_returns (handleAuthRequest_spec h), Proc.bind_returns ((sendAuthResponse_spec _ _ _).trans hsend)]
  cases ok with
  | false => rfl
  | true =>
    simp only [Bool.not_true, Bool.false_eq_true, if_false, if_true, Proc.bind_apply (p := get), Proc.get_apply,
      Proc.ite_apply, Session.sendBufferEmpty, Proc.pure_apply]
    by_cases hr : c₁.session.response = []
    · simp [hr]
    · simpa [hr] using updateEpollEvents_spec

theorem dispatchAuth_leaves (h : c.session.messages = m :: ms) (hl : (dispatchAuth i c).Leaves c') :
    Replies ((c.authenticated m ms).answer (announced m.bytesVec).ok) c' := by
  obtain ⟨ok, c₁, hrep, -, hspec⟩ := dispatchAuth_spec i h
  rw [hspec] at hl
  split at hl
  · split at hl
    · cases hl
      exact hrep
    · exact hrep.trans (remask_leaves hl)
  · cases hl
    exact hrep

/-- If neither `send` nor `epoll_ctl` fails, the branch goes through. -/
theorem dispatchAuth_succeeds (h : c.session.messages = m :: ms) (hs : i.send.stop = .eagain)
    (hm : i.mod = none) : ∃ c', dispatchAuth i c = .returns true c' := by
  obtain ⟨ok, c₁, -, hok, hspec⟩ := dispatchAuth_spec i h
  rw [hspec, hok hs, hm, if_pos rfl]
  split <;> exact ⟨_, rfl⟩

theorem dispatch_nil (h : c.session.messages = []) : dispatchMessage i c = .returns true c := by
  simp [dispatchMessage, Proc.bind_apply, Session.isMessageComplete, h]

/-- With a message at the front, its type says what is done. -/
theorem dispatch_cons (h : c.session.messages = m :: ms) (ht : m.typeVec = [t]) :
    dispatchMessage i c =
      if t = 'A'.toUInt8 then dispatchAuth i c
      else if t = 'I'.toUInt8 then .returns true (c.saved m ms i.save)
      else .returns true c := by
  have htype := lift_returns (getMessageType_spec h ht)
  have hcomplete : c.session.isMessageComplete = true := by simp [Session.isMessageComplete, h]
  unfold dispatchMessage
  simp only [Proc.bind_apply, Proc.get_apply, hcomplete, if_true, htype, Proc.ite_apply, toNat_A, toNat_I,
    handleImgMessage_spec h, Proc.pure_apply]

end Dispatch

/-- What the dispatch of the front message does to a connection. -/
inductive Dispatched (c : Conn) : Conn → Prop
  /-- The queue is empty, or its front message has no handler and stays. -/
  | idle : (∀ m ms, c.session.messages = m :: ms → ¬m.Known) → Dispatched c c
  | image {m : Message} {ms : List Message} {env : SaveEnv} : c.session.messages = m :: ms →
      m.typeVec = ['I'.toUInt8] → Dispatched c (c.saved m ms env)
  | auth {m : Message} {ms : List Message} {c' : Conn} : c.session.messages = m :: ms →
      m.typeVec = ['A'.toUInt8] → Replies ((c.authenticated m ms).answer (announced m.bytesVec).ok) c' →
      Dispatched c c'

/-- Every message of the queue has a type byte. -/
def Session.Typed (s : Session) : Prop := ∀ m ∈ s.messages, ∃ t, m.typeVec = [t]

theorem dispatchMessage_leaves {c c' : Conn} {i : InInput} (hq : c.session.Typed)
    (h : (dispatchMessage i c).Leaves c') : Dispatched c c' := by
  match hm : c.session.messages with
  | [] =>
    rw [dispatch_nil hm] at h
    cases h
    exact .idle (by simp [hm])
  | m :: ms =>
    obtain ⟨t, ht⟩ := hq m (by simp [hm])
    rw [dispatch_cons hm ht] at h
    split at h
    · rename_i hA
      exact .auth hm (by rw [ht, hA]) (dispatchAuth_leaves hm h)
    · split at h
      · rename_i hI
        cases h
        exact .image hm (by rw [ht, hI])
      · rename_i hA hI
        cases h
        refine .idle fun m' ms' he => ?_
        rw [hm] at he
        cases he
        simp [Message.Known, ht, hA, hI]

theorem dispatchMessage_succeeds {c : Conn} {i : InInput} (hq : c.session.Typed) (hs : i.send.stop = .eagain)
    (hm : i.mod = none) : ∃ c', dispatchMessage i c = .returns true c' := by
  match hc : c.session.messages with
  | [] => exact ⟨c, dispatch_nil hc⟩
  | m :: ms =>
    obtain ⟨t, ht⟩ := hq m (by simp [hc])
    rw [dispatch_cons hc ht]
    split
    · exact dispatchAuth_succeeds hc hs hm
    · split <;> exact ⟨_, rfl⟩

/-- What becomes of the front of the queue. -/
theorem Dispatched.front {c c' : Conn} (h : Dispatched c c') :
    (c' = c ∧ ∀ m ms, c.session.messages = m :: ms → ¬m.Known) ∨
    ∃ m ms, c.session.messages = m :: ms ∧ m.Known ∧ c'.session.messages = ms ∧
      taken c'.effects = taken c.effects ++ [m] := by
  cases h with
  | idle hn => exact .inl ⟨rfl, hn⟩
  | @image m ms env hm ht => exact .inr ⟨m, ms, hm, .inr ht, rfl, by simp [Conn.saved, taken, Effect.taken?, Session.saveCall]⟩
  | @auth m ms _ hm ht hrep =>
    refine .inr ⟨m, ms, hm, .inl ht, ?_, ?_⟩
    · rw [hrep.session]
      rfl
    · rw [hrep.taken]
      simp [Conn.answer, Conn.authenticated, taken, Effect.taken?]

/-- A dispatched message is taken from the front of the queue. -/
theorem Dispatched.taken {c c' : Conn} (h : Dispatched c c') :
    taken c'.effects ++ c'.session.messages = taken c.effects ++ c.session.messages := by
  rcases h.front with ⟨rfl, -⟩ | ⟨m, ms, hm, -, hm', ht⟩
  · rfl
  · rw [hm, hm', ht, List.append_assoc, List.singleton_append]

/-- If no message lacks a handler, the front one goes. -/
theorem Dispatched.tail {c c' : Conn} (h : Dispatched c c') (hk : ∀ m ∈ c.session.messages, m.Known) :
    c'.session.messages = c.session.messages.tail := by
  rcases h.front with ⟨rfl, hn⟩ | ⟨m, ms, hm, -, hm', -⟩
  · match hm : c'.session.messages with
    | [] => rfl
    | m :: ms => exact absurd (hk m (by simp [hm])) (hn m ms hm)
  · rw [hm, hm']
    rfl

/-! ## One event -/

/-- The bytes that an IN event brings. -/
def InInput.data (i : InInput) : Bytes := readData i.recv.reads

theorem pushed_typed (is : List Item) : ∀ m ∈ pushed is, ∃ t, m.typeVec = [t] := by
  intro m hm
  obtain ⟨i, -, hi⟩ := List.mem_filterMap.1 hm
  cases i with
  | frame t p =>
    cases hi
    exact ⟨t, rfl⟩
  | oversized t len => cases hi

theorem Session.Typed.after {s : Session} (h : s.Typed) (is : List Item) (t : Bytes) : (s.after is t).Typed := by
  intro m hm
  rcases List.mem_append.1 hm with hm | hm
  · exact h m hm
  · exact pushed_typed is m hm

section InEvent
variable {c c' : Conn} {i : InInput}

theorem handleInEvent_closed (h : i.recv.stop ≠ .eagain) :
    handleInEvent i c = .returns false { c with session := c.session.receive i.data } := by
  have hrecv := lift_returns (tryRecv_spec i.recv c.session)
  unfold handleInEvent
  rw [Proc.bind_returns hrecv]
  simp [h, InInput.data]

theorem handleInEvent_eagain (hr : c.session.Ready) (h : i.recv.stop = .eagain) :
    handleInEvent i c = match wire.call Item.isOversized (c.session.pending ++ i.data) with
      | some (is, t) => dispatchMessage i { c with session := (c.session.receive i.data).after is t }
      | none => .diverges := by
  have hrecv := lift_returns (tryRecv_spec i.recv c.session)
  have hparse := parseMessage_spec (hr.receive i.data)
  rw [Session.receive_pending] at hparse
  unfold handleInEvent
  rw [Proc.bind_returns hrecv]
  simp only [h, decide_true, Bool.not_true, Bool.false_eq_true, if_false]
  cases hc : wire.call Item.isOversized (c.session.pending ++ i.data) with
  | none =>
    rw [hc] at hparse
    exact Proc.bind_diverges (lift_diverges hparse)
  | some found =>
    rw [hc] at hparse
    exact Proc.bind_returns (lift_returns hparse)

/-- `HandleInEvent` appends what arrived. If the connection is still good, it
dispatches the front of what `ParseMessage` makes of it. -/
theorem handleInEvent_leaves (hr : c.session.Ready) (hq : c.session.Typed) (h : (handleInEvent i c).Leaves c') :
    (i.recv.stop ≠ .eagain ∧ c' = { c with session := c.session.receive i.data }) ∨
    ∃ is t, wire.call Item.isOversized (c.session.pending ++ i.data) = some (is, t) ∧
      Dispatched { c with session := (c.session.receive i.data).after is t } c' := by
  by_cases hs : i.recv.stop = .eagain
  · right
    rw [handleInEvent_eagain hr hs] at h
    cases hc : wire.call Item.isOversized (c.session.pending ++ i.data) with
    | none => rw [hc] at h; cases h
    | some found =>
      rw [hc] at h
      exact ⟨found.1, found.2, rfl, dispatchMessage_leaves (hq.after _ _) h⟩
  · rw [handleInEvent_closed hs] at h
    cases h
    exact .inl ⟨hs, rfl⟩

theorem handleInEvent_true (hr : c.session.Ready) (hq : c.session.Typed)
    (h : handleInEvent i c = .returns true c') :
    ∃ is t, wire.call Item.isOversized (c.session.pending ++ i.data) = some (is, t) ∧
      Dispatched { c with session := (c.session.receive i.data).after is t } c' := by
  rcases handleInEvent_leaves hr hq (by rw [h]; rfl) with ⟨hs, -⟩ | hd
  · rw [handleInEvent_closed hs] at h
    cases h
  · exact hd

end InEvent

theorem serveOut_leaves {e : Event} {c c' : Conn} (h : (serveOut e c).Leaves c') : Replies c c' := by
  unfold serveOut at h
  split at h
  · exact handleOutEvent_leaves h
  · cases h
    exact .refl c

/-- The ways that an event can go: the server closes the session at once, or the
`EPOLLOUT` part throws, or it makes the server close the session, or it has sent
some of the response and the `EPOLLIN` part decides. -/
theorem serveEvent_cases (e : Event) (c : Conn) :
    (e.err = true ∧ serveEvent e c = .returns false c) ∨
    e.err = false ∧ ∃ c₁, Replies c c₁ ∧
      ((∃ x, serveOut e c = .throws x c₁ ∧ serveEvent e c = .throws x c₁) ∨
        (serveOut e c = .returns false c₁ ∧ serveEvent e c = .returns false c₁) ∨
        serveOut e c = .returns true c₁ ∧
          serveEvent e c = if e.epollin then handleInEvent e.inp c₁ else .returns true c₁) := by
  unfold serveEvent
  cases he : e.err with
  | true => exact .inl ⟨rfl, rfl⟩
  | false =>
    simp only [Bool.false_eq_true, if_false]
    cases hout : serveOut e c with
    | returns sent c₁ =>
      rw [Proc.bind_returns hout]
      refine .inr ⟨trivial, c₁, serveOut_leaves (by rw [hout]; rfl), .inr ?_⟩
      cases sent with
      | false => exact .inl ⟨rfl, rfl⟩
      | true =>
        refine .inr ⟨rfl, ?_⟩
        simp only [Bool.not_true, Bool.false_eq_true, if_false, Proc.ite_apply, Proc.pure_apply]
    | throws x c₁ =>
      exact .inr ⟨trivial, c₁, serveOut_leaves (by rw [hout]; rfl), .inl ⟨x, rfl, Proc.bind_throws hout⟩⟩
    | diverges =>
      unfold serveOut at hout
      split at hout
      · obtain ⟨c', hl⟩ := handleOutEvent_ends e.out c
        rw [hout] at hl
        cases hl
      · cases hout

/-- An event sends some of the response. If it goes on to `HandleInEvent`, that
decides what it leaves. -/
theorem serveEvent_leaves {e : Event} {c c' : Conn} (h : (serveEvent e c).Leaves c') :
    ∃ c₁, Replies c c₁ ∧ (c' = c₁ ∨ e.epollin = true ∧ (handleInEvent e.inp c₁).Leaves c') := by
  rcases serveEvent_cases e c with ⟨-, hs⟩ | ⟨-, c₁, hrep, ⟨x, -, hs⟩ | ⟨-, hs⟩ | ⟨-, hs⟩⟩ <;> rw [hs] at h
  · cases h
    exact ⟨c, .refl c, .inl rfl⟩
  · cases h
    exact ⟨_, hrep, .inl rfl⟩
  · cases h
    exact ⟨_, hrep, .inl rfl⟩
  · refine ⟨c₁, hrep, ?_⟩
    split at h
    · exact .inr ⟨‹_›, h⟩
    · cases h
      exact .inl rfl

/-- An event after which the session is kept. -/
theorem serveEvent_true {e : Event} {c c' : Conn} (h : serveEvent e c = .returns true c') :
    ∃ c₁, Replies c c₁ ∧ if e.epollin then handleInEvent e.inp c₁ = .returns true c' else c' = c₁ := by
  rcases serveEvent_cases e c with ⟨-, hs⟩ | ⟨-, c₁, hrep, ⟨x, -, hs⟩ | ⟨-, hs⟩ | ⟨-, hs⟩⟩ <;> rw [hs] at h
  · cases h
  · cases h
  · cases h
  · refine ⟨c₁, hrep, ?_⟩
    split at h
    · rename_i hin
      rw [if_pos hin]
      exact h
    · rename_i hin
      rw [if_neg hin]
      cases h
      rfl

end RemoteScreenCapture
