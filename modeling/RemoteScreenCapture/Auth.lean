import RemoteScreenCapture.Session
/-!
# What an authentication request stores

`announced` says what `ParseAuthMessage` finds in a payload: the names it
stores, each stored before it is checked, and whether it returns.
-/
open Lib Lib.BigEndian

namespace RemoteScreenCapture

/-- The two names a session holds. -/
structure Identity where
  hostname : Bytes
  username : Bytes
  deriving DecidableEq, Repr

def Session.identity (s : Session) : Identity := ⟨s.clientHostname, s.clientUsername⟩

/-- The names that a payload stores, and whether its authentication succeeds. -/
structure Announced where
  hostname : Option Bytes
  username : Option Bytes
  ok : Bool
  deriving DecidableEq, Repr

/-- A string with its length in the two bytes before it, and what is behind it. -/
def field (payload : Bytes) : Option (Bytes × Bytes) :=
  let len := value (payload.take 2)
  if payload.length < 2 then none
  else if (payload.drop 2).length < len then none
  else some ((payload.drop 2).take len, (payload.drop 2).drop len)

def announced (payload : Bytes) : Announced :=
  match field payload with
  | none => ⟨none, none, false⟩
  | some (hostname, rest) =>
    if isValidName hostname then
      match field rest with
      | none => ⟨some hostname, none, false⟩
      | some (username, _) => ⟨some hostname, some username, isValidName username⟩
    else ⟨some hostname, none, false⟩

/-- The names held after a payload has been handled. -/
def Identity.announce (i : Identity) (payload : Bytes) : Identity :=
  ⟨(announced payload).hostname.getD i.hostname, (announced payload).username.getD i.username⟩

/-! ## Reading the payload of the front message -/

/-- The payload of the front message is `payload`. -/
def Session.withFront (s : Session) (m : Message) (payload : Bytes) (ms : List Message) : Session :=
  { s with messages := { m with bytesVec := payload } :: ms }

theorem popFront_ok {α : Type} {pop : Bytes → Except Exn (α × Bytes)} {s : Session} {m : Message}
    {ms : List Message} {a : α} {payload rest : Bytes} (h : pop payload = .ok (a, rest)) :
    popFront pop (s.withFront m payload ms) = .returns a (s.withFront m rest ms) := by
  simp [popFront, Proc.bind_apply, Session.withFront, h]

theorem popFront_error {α : Type} {pop : Bytes → Except Exn (α × Bytes)} {s : Session} {m : Message}
    {ms : List Message} {e : Exn} {payload : Bytes} (h : pop payload = .error e) :
    popFront pop (s.withFront m payload ms) = .throws e (s.withFront m payload ms) := by
  simp [popFront, Proc.bind_apply, Session.withFront, h]

theorem popUint16_ok {payload : Bytes} (h : ¬payload.length < 2) :
    popUint16 payload = .ok (value (payload.take 2), payload.drop 2) := by
  simp [popUint16, peekUint16, peekUint, h, Except.map]

theorem popUint16_error {payload : Bytes} (h : payload.length < 2) :
    ∃ what, popUint16 payload = .error (.runtimeError what) := by
  simp [popUint16, peekUint16, peekUint, h, Except.map]

theorem popName_ok {tooLong : String} {s : Session} {m : Message} {payload name rest : Bytes} {ms : List Message}
    (h : field payload = some (name, rest)) :
    popName tooLong (s.withFront m payload ms) = .returns name (s.withFront m rest ms) := by
  unfold field at h
  by_cases h2 : payload.length < 2
  · simp [h2] at h
  by_cases hlen : (payload.drop 2).length < value (payload.take 2)
  · simp only [h2, hlen, if_true, if_false] at h
    cases h
  simp only [h2, hlen, if_false, Option.some.injEq] at h
  have hstr : popString (value (payload.take 2)) (payload.drop 2) = .ok (name, rest) := by
    rw [popString, if_neg hlen, h]
  have hle : ¬value (payload.take 2) > Limit.maxMessageSize := by
    have hlt := value_lt (payload.take 2)
    have hk : (payload.take 2).length = 2 := by simp; omega
    rw [hk] at hlt
    have : Limit.maxMessageSize = 10485760 := rfl
    omega
  simp [popName, Proc.bind_apply, popFront_ok (popUint16_ok h2), hle, popFront_ok hstr]

theorem popName_throws {tooLong : String} {s : Session} {m : Message} {payload : Bytes} {ms : List Message}
    (h : field payload = none) :
    ∃ what rest, popName tooLong (s.withFront m payload ms) =
      .throws (.runtimeError what) (s.withFront m rest ms) := by
  unfold field at h
  by_cases h2 : payload.length < 2
  · obtain ⟨what, hpop⟩ := popUint16_error h2
    exact ⟨what, payload, by simp [popName, Proc.bind_apply, popFront_error hpop]⟩
  by_cases hgt : value (payload.take 2) > Limit.maxMessageSize
  · exact ⟨tooLong, payload.drop 2, by simp [popName, Proc.bind_apply, popFront_ok (popUint16_ok h2), hgt]⟩
  by_cases hlen : (payload.drop 2).length < value (payload.take 2)
  · obtain ⟨what, hstr⟩ : ∃ what, popString (value (payload.take 2)) (payload.drop 2) =
        .error (.runtimeError what) := ⟨_, by rw [popString, if_pos hlen]⟩
    refine ⟨what, payload.drop 2, ?_⟩
    simp [popName, Proc.bind_apply, popFront_ok (popUint16_ok h2), hgt, popFront_error hstr]
  · simp only [h2, hlen, if_false] at h
    cases h

/-! ## Handling a request -/

/-- A session whose names are `i`. -/
def Session.withIdentity (s : Session) (i : Identity) : Session :=
  { s with clientHostname := i.hostname, clientUsername := i.username }

/-- `ParseAuthMessage` stores what is announced, and returns if it is in order. -/
theorem parseAuthMessage_spec (s : Session) (m : Message) (payload : Bytes) (ms : List Message) :
    ∃ rest, let s' := (s.withIdentity (s.identity.announce payload)).withFront m rest ms
      ((announced payload).ok = true ∧ parseAuthMessage (s.withFront m payload ms) = .returns () s') ∨
      (announced payload).ok = false ∧
        ∃ what, parseAuthMessage (s.withFront m payload ms) = .throws (.runtimeError what) s' := by
  unfold parseAuthMessage Identity.announce announced
  match h₁ : field payload with
  | none =>
    obtain ⟨what, rest, hp⟩ := @popName_throws "hostname too long" s m payload ms h₁
    exact ⟨rest, .inr ⟨rfl, what, Proc.bind_throws hp⟩⟩
  | some (hostname, rest₁) =>
    rw [Proc.bind_returns (popName_ok h₁)]
    by_cases hv : isValidName hostname
    · -- The host name is stored, and the user name comes next.
      let s₁ := { s with clientHostname := hostname }
      match h₂ : field rest₁ with
      | none =>
        obtain ⟨what, rest, hp⟩ := @popName_throws "username too long" s₁ m rest₁ ms h₂
        refine ⟨rest, .inr ⟨by simp [hv, h₂], what, ?_⟩⟩
        simp only [Session.withFront, s₁] at hp
        simp [hv, h₂, Proc.bind_apply, Session.withFront, hp, Session.withIdentity, Session.identity]
      | some (username, rest₂) =>
        have hp := @popName_ok "username too long" s₁ m rest₁ username rest₂ ms h₂
        simp only [Session.withFront, s₁] at hp
        refine ⟨rest₂, ?_⟩
        by_cases hu : isValidName username
        · left
          simp [hv, h₂, hu, Proc.bind_apply, Session.withFront, hp, Session.withIdentity, Session.identity]
        · right
          simp [hv, h₂, hu, Proc.bind_apply, Session.withFront, hp, Session.withIdentity, Session.identity]
    · refine ⟨rest₁, .inr ⟨by simp [hv], "Invalid hostname", ?_⟩⟩
      simp [hv, Proc.bind_apply]
      rfl

/-- What `HandleAuthRequest` leaves of a connection whose queue is `m :: ms`. -/
def Conn.authenticated (c : Conn) (m : Message) (ms : List Message) : Conn where
  session := { c.session.withIdentity (c.session.identity.announce m.bytesVec) with messages := ms }
  effects := c.effects ++ [.auth m (announced m.bytesVec).ok]

theorem front_spec {s : Session} {m : Message} {ms : List Message} (h : s.messages = m :: ms) :
    front s = .returns m s := by
  simp [front, Proc.bind_apply, h]

theorem popMessage_spec {s : Session} {m : Message} {ms : List Message} (h : s.messages = m :: ms) :
    popMessage s = .returns () { s with messages := ms } := by
  simp [popMessage, Proc.bind_apply, h]

theorem handleAuthRequest_spec {c : Conn} {m : Message} {ms : List Message} (h : c.session.messages = m :: ms) :
    handleAuthRequest c = .returns (announced m.bytesVec).ok (c.authenticated m ms) := by
  have hfront : c.session = c.session.withFront m m.bytesVec ms := by rw [Session.withFront, ← h]
  have hpop : ∀ (s : Session) rest, (liftM popMessage : ConnProc Unit) { c with session := s.withFront m rest ms } =
      .returns () { c with session := { s with messages := ms } } :=
    fun s rest => lift_returns (popMessage_spec rfl)
  obtain ⟨rest, hp⟩ := parseAuthMessage_spec c.session m m.bytesVec ms
  rw [← hfront] at hp
  unfold handleAuthRequest
  rw [Proc.bind_returns (lift_returns (front_spec h))]
  rcases hp with ⟨hok, hp⟩ | ⟨hok, what, hp⟩
  · simp only [Proc.bind_apply, Proc.tryCatch_apply, lift_returns hp, hpop, Proc.pure_apply, hok]
    simp [emit, Conn.authenticated, hok]
  · simp only [Proc.bind_apply, Proc.tryCatch_apply, lift_throws hp, hpop, Proc.pure_apply, hok]
    simp [emit, Conn.authenticated, hok]

/-! ## A request that fails -/

/-- The payload is in order, or what it stores before it is rejected are the
names held already. -/
def Identity.Withstands (i : Identity) (payload : Bytes) : Prop :=
  match field payload with
  | none => True
  | some (hostname, rest) =>
    match field rest with
    | none => hostname = i.hostname
    | some (username, _) =>
      (isValidName hostname = true ∧ isValidName username = true) ∨
        hostname = i.hostname ∧ (isValidName hostname = true → username = i.username)

theorem withstands_iff (i : Identity) (payload : Bytes) :
    ((announced payload).ok = false → i.announce payload = i) ↔ i.Withstands payload := by
  obtain ⟨h, u⟩ := i
  unfold Identity.announce Identity.Withstands announced
  match h₁ : field payload with
  | none => simp
  | some (hostname, rest) =>
    match h₂ : field rest with
    | none => by_cases hv : isValidName hostname = true <;> simp [hv, h₂]
    | some (username, rest') =>
      by_cases hv : isValidName hostname = true
      · by_cases hu : isValidName username = true <;> simp [hv, hu, h₂]
      · simp [hv, h₂]

/-- A failed authentication has taken the front message from the queue. It
leaves the names as they were exactly if the payload stores no others. -/
theorem failed_request_keeps_names_iff (c : Conn) (m : Message) (ms : List Message)
    (h : c.session.messages = m :: ms) :
    (∀ c', handleAuthRequest c = .returns false c' →
      c'.session.clientHostname = c.session.clientHostname ∧
      c'.session.clientUsername = c.session.clientUsername ∧ c'.session.messages = ms) ↔
    c.session.identity.Withstands m.bytesVec := by
  rw [handleAuthRequest_spec h, ← withstands_iff]
  constructor
  · intro hkeep hfail
    obtain ⟨hh, hu, -⟩ := hkeep (c.authenticated m ms) (by rw [hfail])
    exact congrArg₂ Identity.mk hh hu
  · intro hkeep c' hc
    obtain ⟨hfail, rfl⟩ := Outcome.returns.inj hc
    have hi := hkeep hfail
    exact ⟨congrArg Identity.hostname hi, congrArg Identity.username hi, rfl⟩

/-- A session that has authenticated as `ann` on `pc`, with one more request. -/
def Conn.again (payload : Bytes) : Conn where
  session :=
    { (Session.new (makeUniqueFD 5) [] []).1 with
      clientHostname := lit "pc"
      clientUsername := lit "ann"
      messages := [⟨[65], bytes 4 payload.length, payload⟩] }

/-- A request that is cut off within its first length. -/
theorem failed_request_keeps_names_cut :
    ∃ c', handleAuthRequest (.again [0]) = .returns false c' ∧ c'.session.clientHostname = lit "pc" ∧
      c'.session.clientUsername = lit "ann" ∧ c'.session.messages = [] := by
  obtain ⟨c', hc⟩ : ∃ c', handleAuthRequest (.again [0]) = .returns false c' := ⟨_, rfl⟩
  exact ⟨c', hc, (failed_request_keeps_names_iff (.again [0]) _ _ rfl).2 trivial c' hc⟩

/-- A request that is cut off behind its host name leaves the name of one
request beside the user of another. -/
theorem failed_request_mixes_names :
    ¬∀ (c : Conn) (m : Message) (ms : List Message) (c' : Conn), c.session.messages = m :: ms →
      handleAuthRequest c = .returns false c' →
        c'.session.clientHostname = c.session.clientHostname ∧
        c'.session.clientUsername = c.session.clientUsername ∧ c'.session.messages = ms := by
  intro h
  have hmix := h (.again ([0, 3] ++ lit "box")) _ _ _ rfl rfl
  exact absurd hmix.1 (by decide)

end RemoteScreenCapture
