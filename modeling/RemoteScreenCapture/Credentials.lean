import RemoteScreenCapture.Auth
import RemoteScreenCapture.Client
import RemoteScreenCapture.Parser
/-!
# Writing and reading an authentication request

The client writes the request, the server's parser finds it and
`ParseAuthMessage` reads the two names. What the client writes is read as it
was meant. Not everything the server accepts is something a client writes: the
bytes behind the user name are never looked at.
-/
open Lib Lib.BigEndian

namespace RemoteScreenCapture

/-! ## What the client writes -/

/-- A string with its length in the two bytes before it. -/
def sized (name : Bytes) : Bytes := bytes 2 name.length ++ name

/-- The payload of an authentication request. -/
def credentials (hostname username : Bytes) : Bytes := sized hostname ++ sized username

theorem field_sized {name : Bytes} (h : name.length ≤ 65535) (rest : Bytes) :
    field (sized name ++ rest) = some (name, rest) := by
  have hlen : (bytes 2 name.length).length = 2 := bytes_length 2 _
  have hval : value (bytes 2 name.length) = name.length := value_bytes (by omega)
  have htake : (sized name ++ rest).take 2 = bytes 2 name.length := by
    rw [sized, List.append_assoc, List.take_append_of_le_length (by omega), List.take_of_length_le (by omega)]
  have hdrop : (sized name ++ rest).drop 2 = name ++ rest := by
    rw [sized, List.append_assoc, List.drop_append_of_le_length (by omega), List.drop_of_length_le (by omega)]
    rfl
  have h2 : ¬(sized name ++ rest).length < 2 := by
    simp only [sized, List.length_append, hlen]
    omega
  simp only [field, htake, hdrop, hval, h2, if_false]
  simp

/-- What the server makes of a request of the client. -/
theorem announced_credentials {hostname username : Bytes} (hh : hostname.length ≤ 65535)
    (hu : username.length ≤ 65535) : announced (credentials hostname username) =
      if isValidName hostname then ⟨some hostname, some username, isValidName username⟩
      else ⟨some hostname, none, false⟩ := by
  have hu' : field (sized username) = some (username, []) := by
    rw [← List.append_nil (sized username)]
    exact field_sized hu []
  simp only [announced, credentials, field_sized hh, hu']

theorem credentials_length (hostname username : Bytes) :
    (credentials hostname username).length = 4 + hostname.length + username.length := by
  simp only [credentials, sized, List.length_append, bytes_length]
  omega

/-- The frame of an authentication request. -/
def requestFrame {hostname username : Bytes} (hh : hostname.length ≤ 65535) (hu : username.length ≤ 65535) :
    Frame Limit.maxMessageSize where
  type := 'A'.toUInt8
  payload := credentials hostname username
  nonempty := by
    rw [credentials_length]
    omega
  fits := by
    rw [credentials_length]
    have : Limit.maxMessageSize = 10485760 := rfl
    omega

/-- Copying over the middle of a buffer. -/
theorem memcpy_middle {a b c src : Bytes} (h : src.length = b.length) :
    Client.memcpy (a ++ (b ++ c)) a.length src = a ++ (src ++ c) := by
  simp [Client.memcpy, h, List.drop_append]

theorem createAuthenticationRequest_eq {hostname username : Bytes} (hh : hostname.length ≤ 65535)
    (hu : username.length ≤ 65535) :
    Client.createAuthenticationRequest hostname username = (requestFrame hh hu).encode := by
  have hbuffer : Client.insertToVector 2 (Client.insertToVector 2 (Client.insertToVector 4
      (Client.insertToVector 1 [] 'A'.toNat) 0) hostname.length ++ hostname) username.length ++ username =
      ['A'.toUInt8] ++ (bytes 4 0 ++ credentials hostname username) := by
    simp only [Client.insertToVector, credentials, sized, List.append_assoc]
    rfl
  have hsize : (['A'.toUInt8] ++ (bytes 4 0 ++ credentials hostname username)).length - 1 - 4 =
      (credentials hostname username).length := by
    simp only [List.length_append, bytes_length, List.length_singleton]
    omega
  simp only [Client.createAuthenticationRequest, hbuffer, hsize]
  exact memcpy_middle (by simp only [bytes_length])

/-! ## What the server reads -/

/-- A field that is found is written at the front of the payload. -/
theorem field_some {payload name rest : Bytes} (h : field payload = some (name, rest)) :
    payload = sized name ++ rest ∧ name.length ≤ 65535 := by
  unfold field at h
  by_cases h2 : payload.length < 2
  · simp [h2] at h
  by_cases hlen : (payload.drop 2).length < value (payload.take 2)
  · simp only [h2, hlen, if_true, if_false] at h
    cases h
  simp only [h2, hlen, if_false, Option.some.injEq, Prod.mk.injEq] at h
  obtain ⟨rfl, rfl⟩ := h
  have htake : (payload.take 2).length = 2 := by
    rw [List.length_take]
    omega
  have hname : ((payload.drop 2).take (value (payload.take 2))).length = value (payload.take 2) := by
    rw [List.length_take]
    omega
  have hbytes : bytes 2 (value (payload.take 2)) = payload.take 2 := by
    have h := bytes_value (payload.take 2)
    rwa [htake] at h
  have hlt := value_lt (payload.take 2)
  rw [htake] at hlt
  constructor
  · rw [sized, hname, hbytes, List.append_assoc, List.take_append_drop, List.take_append_drop]
  · rw [hname]
    omega

/-- A request in order is read up to what stands behind the user name. -/
theorem parseAuthMessage_returns {s : Session} {m : Message} {payload hostname username rest rest' : Bytes}
    {ms : List Message} (h₁ : field payload = some (hostname, rest)) (h₂ : field rest = some (username, rest'))
    (hv : isValidName hostname = true) (hu : isValidName username = true) :
    parseAuthMessage (s.withFront m payload ms) =
      .returns () ((s.withIdentity ⟨hostname, username⟩).withFront m rest' ms) := by
  have hp := @popName_ok "username too long" { s with clientHostname := hostname } m rest username rest' ms h₂
  simp only [Session.withFront] at hp
  unfold parseAuthMessage
  rw [Proc.bind_returns (popName_ok h₁)]
  simp [hv, hu, Proc.bind_apply, Session.withFront, hp, Session.withIdentity]

/-- The bytes of one accepted frame, as they reach a session between two frames. -/
theorem parseMessage_frame {s : Session} (f : Frame Limit.maxMessageSize) (hm : s.message = .clear)
    (hr : s.request = []) :
    parseMessage (s.receive f.encode) = .returns () { s with messages := s.messages ++ [f.toMessage] } := by
  have hready : (s.receive f.encode).Ready := by
    rw [Session.Ready, Session.receive, hm]
    exact .none
  have hpend : (s.receive f.encode).pending = Frame.encodeAll [f] ++ [] := by
    simp [Session.receive, Session.pending, Message.held, Message.clear, hm, hr]
  have hitems : wire.items (Frame.encodeAll [f] ++ []) = ([f.item], []) := wire_items (fun f _ => f.accepted) rfl
  have hcall : wire.call Item.isOversized (Frame.encodeAll [f] ++ []) = some ([f.item], []) := by
    rw [wire.call_eq_items, hitems]
    · rw [hitems]
      exact isOversized_items [f]
    · rw [hitems]
      rfl
  rw [parseMessage_spec hready, hpend, hcall]
  simp [Session.parsed, Session.after, Session.receive, unread, Decoder.stopped, Frame.item, Item.isOversized,
    splitHeader, hm, hr, pushed, Item.toMessage?, Frame.toMessage]

/-! ## Both directions -/

/-- The client's request reaches a session between two frames as one message,
with nothing left over. Handled, it is accepted if and only if both names are
valid; then the session holds these names, and the payload was read to its end. -/
theorem request_decoded {hostname username : Bytes} (hh : hostname.length ≤ 65535) (hu : username.length ≤ 65535)
    (s : Session) (hm : s.message = .clear) (hr : s.request = []) :
    ∃ m, m.typeVec = ['A'.toUInt8] ∧
      parseMessage (s.receive (Client.createAuthenticationRequest hostname username)) =
        .returns () { s with messages := s.messages ++ [m] } ∧
      ∀ (c : Conn) (ms : List Message), c.session.messages = m :: ms →
        ∃ ok c', handleAuthRequest c = .returns ok c' ∧
          (ok = true ↔ isValidName hostname = true ∧ isValidName username = true) ∧
          (ok = true → c'.session.clientHostname = hostname ∧ c'.session.clientUsername = username ∧
            ∃ s', parseAuthMessage c.session = .returns () s' ∧ s'.messages = { m with bytesVec := [] } :: ms) := by
  refine ⟨(requestFrame hh hu).toMessage, rfl, ?_, ?_⟩
  · rw [createAuthenticationRequest_eq hh hu]
    exact parseMessage_frame _ hm hr
  · intro c ms hq
    have hann : announced (requestFrame hh hu).toMessage.bytesVec = _ := announced_credentials hh hu
    refine ⟨_, _, handleAuthRequest_spec hq, ?_, ?_⟩
    · rw [hann]
      by_cases hv : isValidName hostname = true <;> simp [hv]
    · intro hok
      rw [hann] at hok
      by_cases hv : isValidName hostname = true
      · rw [if_pos hv] at hok
        have h₂ : field (sized username) = some (username, []) := by
          rw [← List.append_nil (sized username)]
          exact field_sized hu []
        have hread : parseAuthMessage (c.session.withFront (requestFrame hh hu).toMessage _ ms) = _ :=
          parseAuthMessage_returns (field_sized hh (sized username)) h₂ hv hok
        have hfront : c.session.withFront (requestFrame hh hu).toMessage (sized hostname ++ sized username) ms =
            c.session := by
          rw [Session.withFront, show sized hostname ++ sized username = (requestFrame hh hu).toMessage.bytesVec from rfl,
            ← hq]
        rw [hfront] at hread
        simp only [Conn.authenticated, Identity.announce, hann, if_pos hv]
        exact ⟨rfl, rfl, _, hread, rfl⟩
      · rw [if_neg hv] at hok
        cases hok

/-- The request of `ann` on `pc`, read by a session just made. -/
theorem request_decoded_fresh :
    ∃ m, m.typeVec = ['A'.toUInt8] ∧
      parseMessage ((Session.new (makeUniqueFD 5) [] []).1.receive
          (Client.createAuthenticationRequest (lit "pc") (lit "ann"))) =
        .returns () { (Session.new (makeUniqueFD 5) [] []).1 with messages := [m] } := by
  obtain ⟨m, ht, hp, -⟩ := @request_decoded (lit "pc") (lit "ann") (by decide) (by decide)
    (Session.new (makeUniqueFD 5) [] []).1 rfl rfl
  exact ⟨m, ht, hp⟩

/-- The payload ends with its user name, if it has two valid names at all. -/
def EndsWithUser (payload : Bytes) : Prop :=
  match field payload with
  | none => True
  | some (hostname, rest) =>
    match field rest with
    | none => True
    | some (username, behind) => isValidName hostname = true → isValidName username = true → behind = []

/-- A payload that is accepted has two valid names at its front, and these are stored. -/
theorem announced_fields {payload : Bytes} (h : (announced payload).ok = true) :
    ∃ hostname rest username behind, field payload = some (hostname, rest) ∧ field rest = some (username, behind) ∧
      isValidName hostname = true ∧ isValidName username = true ∧
      announced payload = ⟨some hostname, some username, true⟩ := by
  unfold announced at h ⊢
  match h₁ : field payload with
  | none => simp [h₁] at h
  | some (hostname, rest) =>
    by_cases hv : isValidName hostname = true
    · match h₂ : field rest with
      | none => simp [h₁, hv, h₂] at h
      | some (username, behind) =>
        have hu : isValidName username = true := by simpa [h₁, hv, h₂] using h
        exact ⟨hostname, rest, username, behind, rfl, h₂, hv, hu, by simp [hv, h₂, hu]⟩
    · simp [h₁, hv] at h

theorem announced_valid {payload hostname rest username behind : Bytes} (h₁ : field payload = some (hostname, rest))
    (h₂ : field rest = some (username, behind)) (hv : isValidName hostname = true)
    (hu : isValidName username = true) : announced payload = ⟨some hostname, some username, true⟩ := by
  simp [announced, h₁, h₂, hv, hu]

/-- Two fields and what stands behind them. -/
theorem fields_append {payload hostname rest username behind : Bytes} (h₁ : field payload = some (hostname, rest))
    (h₂ : field rest = some (username, behind)) : payload = credentials hostname username ++ behind := by
  rw [(field_some h₁).1, (field_some h₂).1, credentials, List.append_assoc]

/-- What is accepted is a request of the client, exactly if nothing stands
behind the user name. -/
theorem accepted_is_request_iff (c : Conn) (m : Message) (ms : List Message) (h : c.session.messages = m :: ms) :
    (∀ c', handleAuthRequest c = .returns true c' →
      m.bytesVec = credentials c'.session.clientHostname c'.session.clientUsername ∧
      Client.createAuthenticationRequest c'.session.clientHostname c'.session.clientUsername =
        'A'.toUInt8 :: (bytes 4 m.bytesVec.length ++ m.bytesVec)) ↔
    EndsWithUser m.bytesVec := by
  rw [handleAuthRequest_spec h]
  constructor
  · intro hrequest
    unfold EndsWithUser
    split
    · trivial
    rename_i hostname rest h₁
    split
    · trivial
    rename_i username behind h₂
    intro hv hu
    have hann := announced_valid h₁ h₂ hv hu
    have hpayload := (hrequest (c.authenticated m ms) (by rw [hann])).1
    simp only [Conn.authenticated, Identity.announce, hann, Session.withIdentity, Option.getD_some] at hpayload
    rw [fields_append h₁ h₂] at hpayload
    simpa using hpayload
  · intro hend c' hc
    obtain ⟨hok, rfl⟩ := Outcome.returns.inj hc
    obtain ⟨hostname, rest, username, behind, h₁, h₂, hv, hu, hann⟩ := announced_fields hok
    have hbehind : behind = [] := by
      rw [EndsWithUser, h₁] at hend
      simp only [h₂] at hend
      exact hend hv hu
    have hpayload : m.bytesVec = credentials hostname username := by
      rw [fields_append h₁ h₂, hbehind, List.append_nil]
    simp only [Conn.authenticated, Identity.announce, hann, Session.withIdentity, Option.getD_some]
    refine ⟨hpayload, ?_⟩
    rw [hpayload, createAuthenticationRequest_eq (field_some h₁).2 (field_some h₂).2]
    rfl

/-- A request that ends where it should. -/
theorem accepted_is_request_exact :
    ∃ c', handleAuthRequest (.again (credentials (lit "pc") (lit "ann"))) = .returns true c' ∧
      credentials (lit "pc") (lit "ann") = credentials c'.session.clientHostname c'.session.clientUsername := by
  obtain ⟨c', hc⟩ : ∃ c', handleAuthRequest (.again (credentials (lit "pc") (lit "ann"))) = .returns true c' :=
    ⟨_, rfl⟩
  have hend : EndsWithUser (credentials (lit "pc") (lit "ann")) := by
    have h₂ : field (sized (lit "ann")) = some (lit "ann", []) := by decide
    rw [EndsWithUser, credentials, field_sized (by decide)]
    simp [h₂]
  exact ⟨c', hc, ((accepted_is_request_iff (.again (credentials (lit "pc") (lit "ann"))) _ _ rfl).2 hend c' hc).1⟩

/-- With one more byte behind the user name, the request is accepted all the same. -/
theorem longer_request_accepted :
    ¬∀ (c : Conn) (m : Message) (ms : List Message) (c' : Conn), c.session.messages = m :: ms →
      handleAuthRequest c = .returns true c' →
        m.bytesVec = credentials c'.session.clientHostname c'.session.clientUsername := by
  intro h
  have hlonger := h (.again (credentials (lit "pc") (lit "ann") ++ [0])) _ _ _ rfl rfl
  exact absurd hlonger (by decide)

end RemoteScreenCapture
