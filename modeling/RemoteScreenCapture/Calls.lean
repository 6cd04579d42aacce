import RemoteScreenCapture.Shown
/-!
# The calls of a session

The server works on a session through its public member functions. Each of
them keeps the invariant `Sound`, so it holds whatever calls were made, in
whatever order. The handlers of the server are one such order
(`sessions_calls`), and what `Sound` rules out no client can bring about.
-/
open Lib Lib.BigEndian

namespace RemoteScreenCapture

/-- A call of a public member function that may change the session, with what
it meets. -/
inductive Call where
  | tryRecv (script : RecvScript)
  | parseMessage
  | trySend (script : SendScript)
  | sendAuthResponse (ok : Bool) (script : SendScript)
  | handleImgMessage (env : SaveEnv)
  | handleAuthRequest

def runCall : Call → ConnProc Unit
  | .tryRecv script => do let _ ← tryRecv script
  | .parseMessage => do let _ ← parseMessage
  | .trySend script => do let _ ← trySend script
  | .sendAuthResponse ok script => do let _ ← sendAuthResponse ok script
  | .handleImgMessage env => do let _ ← handleImgMessage env
  | .handleAuthRequest => do let _ ← handleAuthRequest

/-- A session on which calls are made. A call that throws is the last one. -/
def calls : System Session Call where
  next call s t := ∃ c, runCall call ⟨s, []⟩ = .returns () c ∧ c.session = t
  last call s t := ∃ e c, runCall call ⟨s, []⟩ = .throws e c ∧ c.session = t

/-! ## The handlers only make calls -/

/-- What `p` leaves of a session, calls can leave of it. -/
def OfCalls {α : Type} (p : ConnProc α) : Prop :=
  ∀ c, (∀ a c', p c = .returns a c' → ∃ cs, calls.Goes c.session cs c'.session) ∧
    ∀ e c', p c = .throws e c' → ∃ cs, calls.Visits c.session cs c'.session

section OfCalls
variable {α β : Type}

/-- A procedure that changes nothing of the session makes no call. -/
theorem ofCalls_still {p : ConnProc α} (h : ∀ c c', (p c).Leaves c' → c'.session = c.session) : OfCalls p := by
  intro c
  constructor
  · intro a c' hp
    rw [h c c' (by rw [hp]; rfl)]
    exact ⟨[], .nil⟩
  · intro e c' hp
    rw [h c c' (by rw [hp]; rfl)]
    exact ⟨[], .goes .nil⟩

theorem ofCalls_pure (a : α) : OfCalls (pure a : ConnProc α) :=
  ofCalls_still fun c c' h => by rw [show c = c' from h]

theorem ofCalls_bind {p : ConnProc α} {f : α → ConnProc β} (hp : OfCalls p) (hf : ∀ a, OfCalls (f a)) :
    OfCalls (p >>= f) := by
  intro c
  rw [Proc.bind_apply]
  cases hc : p c with
  | returns a c₁ =>
    obtain ⟨cs, hg⟩ := (hp c).1 a c₁ hc
    constructor
    · intro b c' h
      obtain ⟨cs', hg'⟩ := (hf a c₁).1 b c' h
      exact ⟨cs ++ cs', hg.append hg'⟩
    · intro e c' h
      obtain ⟨cs', hv⟩ := (hf a c₁).2 e c' h
      exact ⟨cs ++ cs', hg.visits hv⟩
  | throws x c₁ =>
    refine ⟨by simp, fun e c' h => ?_⟩
    cases h
    exact (hp c).2 x c₁ hc
  | diverges => exact ⟨by simp, by simp⟩

theorem ofCalls_get {k : Conn → ConnProc α} (hk : ∀ c, OfCalls (k c)) : OfCalls (get >>= k) :=
  fun c => hk c c

theorem ofCalls_ite {c : Prop} [Decidable c] {p q : ConnProc α} (hp : OfCalls p) (hq : OfCalls q) :
    OfCalls (if c then p else q) := by
  split
  · exact hp
  · exact hq

/-- One call, whatever was shown before it. -/
theorem ofCalls_call (call : Call) {p : ConnProc α} (hr : runCall call = do let _ ← p)
    (hp : ∀ es, Proc.Commutes (Conn.behind es) p) : OfCalls p := by
  intro c
  have hc : p c = (p ⟨c.session, []⟩).mapState (Conn.behind c.effects) := by
    rw [← hp c.effects ⟨c.session, []⟩]
    simp [Conn.behind]
  rw [hc]
  have hrun : runCall call ⟨c.session, []⟩ = (do let _ ← p : ConnProc Unit) ⟨c.session, []⟩ := by rw [hr]
  rw [Proc.bind_apply] at hrun
  cases hs : p ⟨c.session, []⟩ with
  | returns a c₁ =>
    rw [hs] at hrun
    refine ⟨fun a' c' h => ?_, by simp [Outcome.mapState]⟩
    cases h
    exact ⟨[call], .snoc .nil ⟨c₁, hrun, rfl⟩⟩
  | throws e c₁ =>
    rw [hs] at hrun
    refine ⟨by simp [Outcome.mapState], fun e' c' h => ?_⟩
    cases h
    exact ⟨[call], .ends .nil ⟨e, c₁, hrun, rfl⟩⟩
  | diverges => exact ⟨by simp [Outcome.mapState], by simp [Outcome.mapState]⟩

end OfCalls

theorem ofCalls_updateEpollEvents (mask : Mask) (mod : Option String) : OfCalls (updateEpollEvents mask mod) := by
  apply ofCalls_still
  intro c c' h
  cases mod <;> cases h <;> rfl

theorem ofCalls_trySend (script : SendScript) : OfCalls (trySend script) :=
  ofCalls_call (.trySend script) rfl fun _ => commutes_trySend script

theorem ofCalls_handleOutEvent (i : OutInput) : OfCalls (handleOutEvent i) := by
  unfold handleOutEvent
  refine ofCalls_bind (ofCalls_trySend _) fun sent => ?_
  refine ofCalls_ite (ofCalls_pure _) (ofCalls_get fun c => ?_)
  exact ofCalls_ite (ofCalls_bind (ofCalls_updateEpollEvents _ _) fun _ => ofCalls_pure _) (ofCalls_pure _)

theorem ofCalls_dispatchAuth (i : InInput) : OfCalls (dispatchAuth i) := by
  unfold dispatchAuth
  refine ofCalls_bind (ofCalls_call .handleAuthRequest rfl fun _ => commutes_handleAuthRequest) fun ok => ?_
  refine ofCalls_bind (ofCalls_call (.sendAuthResponse ok i.send) rfl fun _ => commutes_sendAuthResponse ok _) ?_
  intro sent
  refine ofCalls_ite (ofCalls_pure _) (ofCalls_get fun c => ?_)
  exact ofCalls_ite (ofCalls_bind (ofCalls_updateEpollEvents _ _) fun _ => ofCalls_pure _) (ofCalls_pure _)

/-- `GetMessageType` is `const`. -/
theorem getMessageType_leaves {s s' : Session} (h : (getMessageType s).Leaves s') : s' = s := by
  unfold getMessageType front at h
  cases hm : s.messages with
  | nil =>
    simp only [Proc.bind_apply, Proc.get_apply, hm, Proc.throw_apply] at h
    exact h.symm
  | cons m ms =>
    simp only [Proc.bind_apply, Proc.get_apply, hm, Proc.pure_apply] at h
    cases hp : peekUint8 m.typeVec <;> rw [hp] at h <;> exact h.symm

theorem ofCalls_getMessageType : OfCalls (liftM getMessageType : ConnProc Nat) := by
  apply ofCalls_still
  intro c c' h
  cases hg : getMessageType c.session with
  | returns n s =>
    rw [lift_returns hg] at h
    cases h
    exact getMessageType_leaves (by rw [hg]; rfl)
  | throws e s =>
    rw [lift_throws hg] at h
    cases h
    exact getMessageType_leaves (by rw [hg]; rfl)
  | diverges =>
    rw [lift_diverges hg] at h
    cases h

theorem ofCalls_handleInEvent (i : InInput) : OfCalls (handleInEvent i) := by
  unfold handleInEvent dispatchMessage
  refine ofCalls_bind (ofCalls_call (.tryRecv i.recv) rfl fun _ => commutes_lift _) fun received => ?_
  refine ofCalls_ite (ofCalls_pure _) ?_
  refine ofCalls_bind (ofCalls_call .parseMessage rfl fun _ => commutes_lift _) fun _ => ?_
  refine ofCalls_get fun c => ofCalls_ite ?_ (ofCalls_pure _)
  refine ofCalls_bind ofCalls_getMessageType fun msgType => ofCalls_ite (ofCalls_dispatchAuth i) ?_
  refine ofCalls_ite (ofCalls_bind ?_ fun _ => ofCalls_pure _) (ofCalls_pure _)
  exact ofCalls_call (.handleImgMessage i.save) rfl fun _ => commutes_handleImgMessage _

theorem ofCalls_serveEvent (e : Event) : OfCalls (serveEvent e) := by
  unfold serveEvent serveOut
  refine ofCalls_ite (ofCalls_pure _) (ofCalls_bind ?_ fun sent => ?_)
  · exact ofCalls_ite (ofCalls_handleOutEvent _) (ofCalls_pure _)
  · exact ofCalls_ite (ofCalls_pure _) (ofCalls_ite (ofCalls_handleInEvent _) (ofCalls_pure _))

/-- A session that serves events has calls made on it, and nothing else. -/
theorem sessions_calls {fd : UniqueFD} {host port : Bytes} {es : List Event} {c : Conn}
    (h : sessions.Visits (Conn.fresh fd host port) es c) :
    ∃ cs, calls.Visits (Session.new fd host port).1 cs c.session := by
  have hgoes : ∀ {es c}, sessions.Goes (Conn.fresh fd host port) es c →
      ∃ cs, calls.Goes (Session.new fd host port).1 cs c.session := by
    intro es c hg
    apply hg.inv fun _ c => ∃ cs, calls.Goes (Session.new fd host port).1 cs c.session
    · exact ⟨[], .nil⟩
    · rintro es e c c' - ⟨cs, hcs⟩ hn
      obtain ⟨cs', hcs'⟩ := (ofCalls_serveEvent e c).1 true c' hn
      exact ⟨cs ++ cs', hcs.append hcs'⟩
  cases h with
  | goes hg =>
    obtain ⟨cs, hcs⟩ := hgoes hg
    exact ⟨cs, .goes hcs⟩
  | @ends es e c c' hg hl =>
    obtain ⟨cs, hcs⟩ := hgoes hg
    rcases hl with hl | ⟨x, hl⟩
    · obtain ⟨cs', hcs'⟩ := (ofCalls_serveEvent e c).1 false _ hl
      exact ⟨cs ++ cs', .goes (hcs.append hcs')⟩
    · obtain ⟨cs', hcs'⟩ := (ofCalls_serveEvent e c).2 x _ hl
      exact ⟨cs ++ cs', hcs.visits hcs'⟩

/-! ## The invariant -/

/-- A message as `ParseMessage` pushes it: a type byte, a size and as many bytes. -/
structure Message.Framed (m : Message) : Prop where
  type : m.typeVec.length = 1
  size : m.sizeVec.length = 4
  payload : m.bytesVec.length = value m.sizeVec
  nonempty : 0 < m.bytesVec.length
  fits : m.bytesVec.length ≤ Limit.maxMessageSize

theorem pushed_framed {is : List Item} (h : ∀ i ∈ is, i.Bounded) : ∀ m ∈ pushed is, m.Framed := by
  intro m hm
  obtain ⟨i, hi, hmsg⟩ := List.mem_filterMap.1 hm
  cases i with
  | frame t p =>
    obtain ⟨hpos, hle⟩ := h _ hi
    cases hmsg
    have hlt : p.length < 256 ^ 4 := lt_of_le_of_lt hle (by decide)
    exact ⟨rfl, bytes_length 4 _, (value_bytes hlt).symm, hpos, hle⟩
  | oversized t n => cases hmsg

/-- What holds of a session between any two calls. -/
structure Session.Sound (s : Session) : Prop where
  ready : s.Ready
  framed : ∀ m ∈ s.messages, m.Framed
  response : s.response.length ≤ 1

theorem sound_new (fd : UniqueFD) (host port : Bytes) : (Session.new fd host port).1.Sound :=
  ⟨.none, by simp [Session.new], by simp [Session.new]⟩

section Sound
variable {s s' : Session} {c c' : Conn}

theorem Session.Sound.receive (h : s.Sound) (bs : Bytes) : (s.receive bs).Sound :=
  ⟨h.ready.receive bs, h.framed, h.response⟩

theorem Session.Sound.parsed (h : s.Sound) (hp : parseMessage s = .returns () s') : s'.Sound := by
  rw [parseMessage_spec h.ready] at hp
  cases hc : wire.call Item.isOversized s.pending with
  | none =>
    rw [hc] at hp
    cases hp
  | some found =>
    rw [hc] at hp
    cases hp
    obtain ⟨-, hitems, -⟩ := wire.call_spec hc
    constructor
    · exact unread_partial _ _
    · intro m hm
      rcases List.mem_append.1 hm with hm | hm
      · exact h.framed m hm
      · exact pushed_framed (fun i hi => found_bounded (wire.items_found _ i (hitems.subset hi))) m hm
    · exact h.response

/-- With a shorter queue and other names, the session is as it was. -/
theorem Session.Sound.dequeue {m : Message} {ms : List Message} (h : s.Sound) (hm : s.messages = m :: ms)
    (i : Identity) : ({ s.withIdentity i with messages := ms } : Session).Sound :=
  ⟨h.ready, fun m' hm' => h.framed m' (by rw [hm]; exact List.mem_cons_of_mem m hm'), h.response⟩

theorem Session.Sound.replies (h : c.session.Sound) (hrep : Replies c c') : c'.session.Sound := by
  obtain ⟨es, -, -, hb⟩ := hrep.effects
  have hlen := congrArg List.length hb
  rw [List.length_append] at hlen
  have hresponse := h.response
  rw [hrep.session]
  exact ⟨h.ready, h.framed, by simp only; omega⟩

/-- A verdict takes the place of one that waits. -/
theorem Session.Sound.answer (h : c.session.Sound) (ok : Bool) : (c.answer ok).session.Sound := by
  refine ⟨h.ready, h.framed, ?_⟩
  unfold Conn.answer
  dsimp only
  split
  · rw [List.length_set]
    exact h.response
  · exact le_refl 1

end Sound

theorem front_nil {s : Session} (h : s.messages = []) : front s = .throws .undefined s := by
  simp [front, Proc.bind_apply, h]

theorem handleImgMessage_nil {c : Conn} (env : SaveEnv) (h : c.session.messages = []) :
    handleImgMessage env c = .throws .undefined c :=
  Proc.bind_throws (lift_throws (front_nil h))

theorem handleAuthRequest_nil {c : Conn} (h : c.session.messages = []) :
    handleAuthRequest c = .throws .undefined c :=
  Proc.bind_throws (lift_throws (front_nil h))

/-- Every call keeps the invariant, however it ends. -/
theorem runCall_sound {call : Call} {s : Session} {c : Conn} (h : s.Sound) (hl : (runCall call ⟨s, []⟩).Leaves c) :
    c.session.Sound := by
  cases call with
  | tryRecv script =>
    rw [runCall, Proc.bind_returns (lift_returns (tryRecv_spec script s))] at hl
    cases hl
    exact h.receive _
  | parseMessage =>
    cases hp : parseMessage s with
    | returns a s' =>
      rw [runCall, Proc.bind_returns (lift_returns hp)] at hl
      cases hl
      exact h.parsed hp
    | throws e s' => exact absurd hp (parseMessage_no_throw h.ready)
    | diverges =>
      rw [runCall, Proc.bind_diverges (lift_diverges hp)] at hl
      cases hl
  | trySend script =>
    obtain ⟨ok, c', hc, hrep, -⟩ := trySend_spec script ⟨s, []⟩
    rw [runCall, Proc.bind_returns hc] at hl
    cases hl
    exact Session.Sound.replies (c := ⟨s, []⟩) h hrep
  | sendAuthResponse ok script =>
    obtain ⟨sent, c', hc, hrep, -⟩ := trySend_spec script (Conn.answer ⟨s, []⟩ ok)
    rw [runCall, Proc.bind_returns ((sendAuthResponse_spec _ _ _).trans hc)] at hl
    cases hl
    exact Session.Sound.replies (Session.Sound.answer (c := ⟨s, []⟩) h ok) hrep
  | handleImgMessage env =>
    cases hm : s.messages with
    | nil =>
      rw [runCall, Proc.bind_throws (handleImgMessage_nil (c := ⟨s, []⟩) env hm)] at hl
      cases hl
      exact h
    | cons m ms =>
      rw [runCall, Proc.bind_returns (handleImgMessage_spec (c := ⟨s, []⟩) hm)] at hl
      cases hl
      exact h.dequeue hm s.identity
  | handleAuthRequest =>
    cases hm : s.messages with
    | nil =>
      rw [runCall, Proc.bind_throws (handleAuthRequest_nil (c := ⟨s, []⟩) hm)] at hl
      cases hl
      exact h
    | cons m ms =>
      rw [runCall, Proc.bind_returns (handleAuthRequest_spec (c := ⟨s, []⟩) hm)] at hl
      cases hl
      exact h.dequeue hm _

/-- Whatever is called, the session is sound. -/
theorem Session.Sound.visits {cs : List Call} {s s' : Session} (hs : s.Sound) (h : calls.Visits s cs s') :
    s'.Sound := by
  apply h.inv Session.Sound hs
  · rintro call s s' hs ⟨c, hc, rfl⟩
    exact runCall_sound hs (by rw [hc]; rfl)
  · rintro call s s' hs ⟨e, c, hc, rfl⟩
    exact runCall_sound hs (by rw [hc]; rfl)

theorem calls_sound {fd : UniqueFD} {host port : Bytes} {cs : List Call} {s : Session}
    (h : calls.Visits (Session.new fd host port).1 cs s) : s.Sound := (sound_new fd host port).visits h

theorem Session.Sound.serveEvent {e : Event} {keep : Bool} {c c' : Conn} (hs : c.session.Sound)
    (h : RemoteScreenCapture.serveEvent e c = .returns keep c') : c'.session.Sound := by
  obtain ⟨cs, hcs⟩ := (ofCalls_serveEvent e c).1 keep c' h
  exact hs.visits (.goes hcs)

/-! ## No exception from a client's bytes -/

theorem Message.Framed.typed {m : Message} (h : m.Framed) : ∃ t, m.typeVec = [t] := List.length_eq_one_iff.1 h.type

theorem Session.Sound.typed {s : Session} (h : s.Sound) : s.Typed := fun m hm => (h.framed m hm).typed

section Throws
variable {c c' : Conn} {i : InInput} {e : Exn}

theorem handleOutEvent_throws {o : OutInput} (h : handleOutEvent o c = .throws e c') :
    ∃ err, o.mod = some err ∧ e = epollError err := by
  obtain ⟨ok, c₁, -, -, hspec⟩ := handleOutEvent_spec o c
  rw [hspec] at h
  split at h
  · split at h
    · exact remask_throws h
    · cases h
  · cases h

theorem dispatchAuth_throws {m : Message} {ms : List Message} (hm : c.session.messages = m :: ms)
    (h : dispatchAuth i c = .throws e c') : ∃ err, i.mod = some err ∧ e = epollError err := by
  obtain ⟨ok, c₁, -, -, hspec⟩ := dispatchAuth_spec i hm
  rw [hspec] at h
  split at h
  · split at h
    · cases h
    · exact remask_throws h
  · cases h

theorem dispatchMessage_throws (hq : c.session.Typed) (h : dispatchMessage i c = .throws e c') :
    ∃ err, i.mod = some err ∧ e = epollError err := by
  match hm : c.session.messages with
  | [] =>
    rw [dispatch_nil hm] at h
    cases h
  | m :: ms =>
    obtain ⟨t, ht⟩ := hq m (by simp [hm])
    rw [dispatch_cons hm ht] at h
    split at h
    · exact dispatchAuth_throws hm h
    · split at h <;> cases h

/-- Whatever a client has sent, only `epoll_ctl` makes `HandleInEvent` throw. -/
theorem handleInEvent_throws (hs : c.session.Sound) (h : handleInEvent i c = .throws e c') :
    ∃ err, i.mod = some err ∧ e = epollError err := by
  by_cases hstop : i.recv.stop = .eagain
  · rw [handleInEvent_eagain hs.ready hstop] at h
    cases hc : wire.call Item.isOversized (c.session.pending ++ i.data) with
    | none =>
      rw [hc] at h
      cases h
    | some found =>
      rw [hc] at h
      exact dispatchMessage_throws (Session.Typed.after (s := c.session.receive i.data) hs.typed _ _) h
  · rw [handleInEvent_closed hstop] at h
    cases h

/-- Where `epoll_ctl` succeeds, no event makes a handler throw. -/
theorem serveEvent_throws {ev : Event} (hs : c.session.Sound) (h : serveEvent ev c = .throws e c') :
    (∃ err, ev.out.mod = some err) ∨ ∃ err, ev.inp.mod = some err := by
  rcases serveEvent_cases ev c with ⟨-, he⟩ | ⟨-, c₁, hrep, ⟨x, hout, he⟩ | ⟨-, he⟩ | ⟨-, he⟩⟩ <;> rw [he] at h
  · cases h
  · unfold serveOut at hout
    split at hout
    · obtain ⟨err, hmod, -⟩ := handleOutEvent_throws hout
      exact .inl ⟨err, hmod⟩
    · cases hout
  · cases h
  · split at h
    · obtain ⟨err, hmod, -⟩ := handleInEvent_throws (hs.replies hrep) h
      exact .inr ⟨err, hmod⟩
    · cases h

/-! ## No endless call but `ParseMessage` -/

theorem dispatchAuth_ends {m : Message} {ms : List Message} (hm : c.session.messages = m :: ms) :
    ∃ c', (dispatchAuth i c).Leaves c' := by
  obtain ⟨ok, c₁, -, -, hspec⟩ := dispatchAuth_spec i hm
  rw [hspec]
  split
  · split
    · exact ⟨c₁, rfl⟩
    · exact remask_ends _ _ _
  · exact ⟨c₁, rfl⟩

theorem dispatchMessage_ends (hq : c.session.Typed) : ∃ c', (dispatchMessage i c).Leaves c' := by
  match hm : c.session.messages with
  | [] =>
    rw [dispatch_nil hm]
    exact ⟨c, rfl⟩
  | m :: ms =>
    obtain ⟨t, ht⟩ := hq m (by simp [hm])
    rw [dispatch_cons hm ht]
    split
    · exact dispatchAuth_ends hm
    · split <;> exact ⟨_, rfl⟩

/-- If `HandleInEvent` does not return, its `ParseMessage` does not. -/
theorem handleInEvent_diverges (hs : c.session.Sound) (h : handleInEvent i c = .diverges) :
    parseMessage (c.session.receive i.data) = .diverges := by
  by_cases hstop : i.recv.stop = .eagain
  · rw [handleInEvent_eagain hs.ready hstop] at h
    have hparse := parseMessage_spec (hs.ready.receive i.data)
    rw [Session.receive_pending] at hparse
    cases hc : wire.call Item.isOversized (c.session.pending ++ i.data) with
    | none =>
      rw [hc] at hparse
      exact hparse
    | some found =>
      rw [hc] at h
      have hq : ((c.session.receive i.data).after found.1 found.2).Typed :=
        Session.Typed.after (s := c.session.receive i.data) hs.typed found.1 found.2
      obtain ⟨c', hl⟩ := dispatchMessage_ends (i := i)
        (c := { c with session := (c.session.receive i.data).after found.1 found.2 }) hq
      rw [show dispatchMessage i _ = .diverges from h] at hl
      cases hl
  · rw [handleInEvent_closed hstop] at h
    cases h

/-- If an event is not done with, it is because of `ParseMessage`. -/
theorem serveEvent_diverges {ev : Event} (hs : c.session.Sound) (h : serveEvent ev c = .diverges) :
    ∃ c₁, Replies c c₁ ∧ parseMessage (c₁.session.receive ev.inp.data) = .diverges := by
  rcases serveEvent_cases ev c with ⟨-, he⟩ | ⟨-, c₁, hrep, ⟨x, -, he⟩ | ⟨-, he⟩ | ⟨-, he⟩⟩ <;> rw [he] at h
  · cases h
  · cases h
  · cases h
  · split at h
    · exact ⟨c₁, hrep, handleInEvent_diverges (hs.replies hrep) h⟩
    · cases h

end Throws

/-- Whatever is called on a session: `_message` holds nothing, a type or a
header, never a part of a payload; the messages in the queue are complete; an
exception that `HandleInEvent` lets out comes from `epoll_ctl`; and
`HandleAuthRequest` returns and has taken the front of the queue, whatever the
payload. -/
theorem client_input_never_throws (fd : UniqueFD) (host port : Bytes) (cs : List Call) (s : Session)
    (h : calls.Visits (Session.new fd host port).1 cs s) :
    (s.message.typeVec.length ≤ 1 ∧
      (s.message.sizeVec.length = 0 ∨ s.message.typeVec.length = 1 ∧ s.message.sizeVec.length = 4) ∧
      s.message.bytesVec = []) ∧
    (∀ m ∈ s.messages, m.typeVec.length = 1 ∧ m.sizeVec.length = 4 ∧ m.bytesVec.length = value m.sizeVec) ∧
    (∀ es i e c', handleInEvent i ⟨s, es⟩ = .throws e c' → ∃ err, i.mod = some err ∧ e = epollError err) ∧
    ∀ (c : Conn) m ms, c.session.messages = m :: ms →
      ∃ ok c', handleAuthRequest c = .returns ok c' ∧ c'.session.messages = ms := by
  have hs := calls_sound h
  refine ⟨?_, ?_, ?_, ?_⟩
  · have hready := hs.ready
    unfold Session.Ready at hready
    cases hm : s.message with
    | mk typeVec sizeVec bytesVec =>
      rw [hm] at hready
      cases hready <;> simp
  · intro m hm
    have hf := hs.framed m hm
    exact ⟨hf.type, hf.size, hf.payload⟩
  · intro es i e c' hthrows
    exact handleInEvent_throws (c := ⟨s, es⟩) hs hthrows
  · intro c m ms hm
    exact ⟨_, _, handleAuthRequest_spec hm, rfl⟩

/-- A request without names, complete with its first chunk. -/
theorem client_input_never_throws_short :
    ∃ s, calls.Visits (Session.new (makeUniqueFD 5) [] []).1
        [.tryRecv ⟨[.data (.of [65, 0, 0, 0, 1, 7, 73])], .eagain⟩, .parseMessage] s ∧
      s.messages ≠ [] ∧ ∀ m ∈ s.messages, m.bytesVec.length = value m.sizeVec := by
  obtain ⟨s, hs, hne⟩ : ∃ s, calls.Visits (Session.new (makeUniqueFD 5) [] []).1
      [.tryRecv ⟨[.data (.of [65, 0, 0, 0, 1, 7, 73])], .eagain⟩, .parseMessage] s ∧ s.messages ≠ [] :=
    ⟨_, .goes (.cons ⟨_, rfl, rfl⟩ (.cons ⟨_, rfl, rfl⟩ .nil)), by simp [Session.new]⟩
  obtain ⟨-, hframed, -⟩ := client_input_never_throws _ _ _ _ s hs
  exact ⟨s, hs, hne, fun m hm => (hframed m hm).2.2⟩

end RemoteScreenCapture
