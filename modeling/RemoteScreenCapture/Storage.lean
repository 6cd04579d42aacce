import RemoteScreenCapture.SessionRun
/-!
# Where images are saved

The path of an image is built from two names that a client chooses. A name is
checked after it has been stored, a failed check does not take it back, and
`SaveScreen` checks nothing.
-/
open Lib

namespace RemoteScreenCapture

/-! ## File names -/

theorem toDecimal_digits {n : Nat} {b : UInt8} (h : b ∈ toDecimal n) : 48 ≤ b.toNat ∧ b.toNat ≤ 57 := by
  obtain ⟨c, hc, rfl⟩ := List.mem_map.1 h
  have hd := Nat.isDigit_of_mem_toDigits (by decide) (by decide) hc
  simp only [Char.isDigit, Bool.and_eq_true, decide_eq_true_eq] at hd
  have hlo : 48 ≤ c.val.toNat := UInt32.le_iff_toNat_le.1 hd.1
  have hhi : c.val.toNat ≤ 57 := UInt32.le_iff_toNat_le.1 hd.2
  have hb : c.toUInt8.toNat = c.val.toNat % 256 := by rw [Char.toUInt8, UInt32.toNat_toUInt8]
  omega

theorem toDecimal_no_slash (n : Nat) : Path.slash ∉ toDecimal n := by
  intro h
  exact absurd (toDecimal_digits h).1 (by decide)

theorem pad2_no_slash (n : Nat) : Path.slash ∉ pad2 n := by
  intro h
  unfold pad2 at h
  split at h
  · rcases List.mem_append.1 h with h | h
    · exact absurd h (by decide)
    · exact toDecimal_no_slash n h
  · exact toDecimal_no_slash n h

/-- The name of the file that `SaveScreen` writes. -/
def Session.filename (s : Session) (now : Tm) : Bytes :=
  getCurrentTimestamp now "%Y%m%d_%H%M%S" ++ lit "_" ++ s.getStringFromHostPort ++ lit ".png"

theorem timestamp_eq (now : Tm) : getCurrentTimestamp now "%Y%m%d_%H%M%S" =
    toDecimal now.year ++ (pad2 now.month ++ (pad2 now.day ++
      (lit "_" ++ (pad2 now.hour ++ (pad2 now.min ++ pad2 now.sec))))) := by
  have hmask : "%Y%m%d_%H%M%S".toList =
      ['%', 'Y', '%', 'm', '%', 'd', '_', '%', 'H', '%', 'M', '%', 'S'] := by decide
  rw [getCurrentTimestamp, hmask]
  simp [putTime, lit]

theorem inetNtop_no_slash (peer : Server.Endpoint) : Path.slash ∉ Server.inetNtop peer := by
  have hdot : Path.slash ∉ lit "." := by decide
  simp [Server.inetNtop, toDecimal_no_slash, hdot]

/-- The file of an IPv4 peer has a plain name. -/
theorem filename_plain {s : Session} {peer : Server.Endpoint} (now : Tm) (hh : s.clientHost = Server.inetNtop peer)
    (hp : s.clientPort = toDecimal peer.port.toNat) : Path.Plain (s.filename now) := by
  have hmem : '_'.toUInt8 ∈ s.filename now := by
    have : '_'.toUInt8 ∈ lit "_" := by decide
    simp [Session.filename, this]
  constructor
  · exact List.ne_nil_of_mem hmem
  · have h1 : Path.slash ∉ lit "_" := by decide
    have h2 : Path.slash ∉ lit ".png" := by decide
    have h3 := inetNtop_no_slash peer
    simp [Session.filename, Session.getStringFromHostPort, timestamp_eq, hh, hp, toDecimal_no_slash,
      pad2_no_slash, h1, h2, h3]
  · intro h
    rw [h] at hmem
    exact absurd hmem (by decide)
  · intro h
    rw [h] at hmem
    exact absurd hmem (by decide)

/-- A name that `IsValidName` accepts is a plain name. -/
theorem isValidName_plain {name : Bytes} (h : isValidName name = true) : Path.Plain name := by
  unfold isValidName at h
  split at h
  · cases h
  · rename_i hne
    have hall : ∀ c ∈ name, (isAlnum c || c = '-'.toUInt8 || c = '_'.toUInt8) = true := by
      simpa using h
    have hdot : Path.dot ∉ name := fun hm => absurd (hall _ hm) (by decide)
    constructor
    · exact fun he => hne (by simp [he])
    · exact fun hm => absurd (hall _ hm) (by decide)
    · rintro rfl
      exact hdot (by simp)
    · rintro rfl
      exact hdot (by simp)

/-! ## Staying beneath `screenshots` -/

/-- Neither name is one that `IsValidName` rejects; a name may be missing. -/
def Identity.Harmless (i : Identity) : Prop :=
  (i.hostname = [] ∨ isValidName i.hostname = true) ∧ (i.username = [] ∨ isValidName i.username = true)

instance (i : Identity) : Decidable i.Harmless := inferInstanceAs (Decidable (_ ∧ _))

/-- In every run against any client, an image is saved beneath `screenshots`,
unless the names stored last before it include one that was rejected. -/
theorem saved_beneath_screenshots (fd : UniqueFD) (peer : Server.Endpoint) (es : List Event) (c : Conn)
    (h : sessions.Visits (Conn.fresh fd (Server.inetNtop peer) (toDecimal peer.port.toNat)) es c)
    (pre : List Effect) (call : SaveCall) (post : List Effect) (he : c.effects = pre ++ .save call :: post)
    (hn : (stored pre).Harmless) : Path.Beneath (lit "screenshots") call.outPath := by
  obtain ⟨s, m, env, rfl, hh, hp, hi⟩ := (run_named h).saves pre call post he
  have hplain : ∀ {name : Bytes}, name = [] ∨ isValidName name = true → name = [] ∨ Path.Plain name :=
    fun h => h.imp_right isValidName_plain
  have hdir : Path.Plain (lit "screenshots") := ⟨by decide, by decide, by decide, by decide⟩
  rw [← hi] at hn
  have hsubs : ∀ name ∈ [s.clientHostname, s.clientUsername], name = [] ∨ Path.Plain name := by
    intro name hm
    rcases List.mem_pair.1 hm with rfl | rfl
    · exact hplain hn.1
    · exact hplain hn.2
  exact Path.beneath_join hdir hsubs (filename_plain env.now hh hp)

/-- After an accepted request, an image. -/
theorem saved_beneath_screenshots_named :
    Path.Beneath (lit "screenshots") (lit "screenshots/pc/ann/20250309_070500_10001_4000.png") := by
  let request : Chunk := .of ([65, 0, 0, 0, 9, 0, 2] ++ lit "pc" ++ [0, 3] ++ lit "ann")
  let image : Chunk := .of [73, 0, 0, 0, 1, 9]
  let pre : List Effect := [.auth ⟨[65], [0, 0, 0, 9], [0, 2, 112, 99, 0, 3, 97, 110, 110]⟩ true, .sent [89]]
  let call : SaveCall :=
    { msg := ⟨[73], [0, 0, 0, 1], [9]⟩, hostname := lit "pc", username := lit "ann"
      outPath := lit "screenshots/pc/ann/20250309_070500_10001_4000.png", written := true }
  have hrun : (serveAll [.brings [.data request], .brings [.data image]] .sample).map Conn.effects =
      some (pre ++ [.save call]) := by decide +kernel
  obtain ⟨c, hc, he⟩ := Option.map_eq_some_iff.1 hrun
  exact saved_beneath_screenshots (makeUniqueFD 5) samplePeer _ c (.goes (serveAll_goes hc)) pre call [] he
    (by decide +kernel)

/-- A host name that is an absolute path is rejected, but stays, and the image
behind it is saved outside. -/
theorem rejected_name_escapes :
    ¬∀ (es : List Event) (c : Conn) (pre : List Effect) (call : SaveCall) (post : List Effect),
      sessions.Visits .sample es c → c.effects = pre ++ .save call :: post →
        Path.Beneath (lit "screenshots") call.outPath := by
  intro h
  let request : Chunk := .of ([65, 0, 0, 0, 6, 0, 4] ++ lit "/tmp")
  let image : Chunk := .of [73, 0, 0, 0, 1, 9]
  let pre : List Effect := [.auth ⟨[65], [0, 0, 0, 6], [0, 4, 47, 116, 109, 112]⟩ false, .sent [78]]
  let call : SaveCall :=
    { msg := ⟨[73], [0, 0, 0, 1], [9]⟩, hostname := lit "/tmp", username := []
      outPath := lit "/tmp/20250309_070500_10001_4000.png", written := true }
  have hrun : (serveAll [.brings [.data request], .brings [.data image]] .sample).map Conn.effects =
      some (pre ++ [.save call]) := by decide +kernel
  obtain ⟨c, hc, he⟩ := Option.map_eq_some_iff.1 hrun
  have hb := h _ c pre call [] (.goes (serveAll_goes hc)) he
  exact absurd hb (by decide +kernel)

/-! ## Who is authenticated -/

/-- The payload is that of a request in order, for these names. -/
def Announces (payload : Bytes) (i : Identity) : Prop :=
  announced payload = ⟨some i.hostname, some i.username, true⟩

instance (payload : Bytes) (i : Identity) : Decidable (Announces payload i) :=
  inferInstanceAs (Decidable (_ = _))

theorem announced_ok {payload : Bytes} {i : Identity} (h : (announced payload).ok = true) :
    Announces payload (i.announce payload) := by
  unfold Announces Identity.announce
  unfold announced at h ⊢
  match h₁ : field payload with
  | none => simp [h₁] at h
  | some (hostname, rest) =>
    by_cases hv : isValidName hostname
    · match h₂ : field rest with
      | none => simp [h₁, hv, h₂] at h
      | some (username, rest') => simpa [h₁, hv, h₂] using h
    · simp [h₁, hv] at h

/-- No rejected request among `es` has stored a name other than those of `i`. -/
def Identity.Outlasts (i : Identity) (es : List Effect) : Prop :=
  ∀ msg, .auth msg false ∈ es → i.announce msg.bytesVec = i

/-- The names held stay the same where no request is accepted and the rejected
ones store no others. -/
theorem stored_of_outlasts {es es' : List Effect} (h : ∀ msg, .auth msg true ∉ es') (hk : (stored es).Outlasts es') :
    stored (es ++ es') = stored es := by
  induction es' using List.reverseRecOn with
  | nil => rw [List.append_nil]
  | append_singleton es' e ih =>
    have ih := ih (fun msg hm => h msg (List.mem_append_left _ hm)) fun msg hm => hk msg (List.mem_append_left _ hm)
    rw [← List.append_assoc, stored_append, ih]
    cases e with
    | sent | epollMod | save => rfl
    | auth msg ok =>
      cases ok with
      | true => exact absurd (by simp) (h msg)
      | false => exact hk msg (by simp)

/-- In every run, an image is saved under the names of the most recent request
that was accepted, or under none if there was no such request, unless a request
that was rejected later has stored another name. -/
theorem saved_as_last_accepted (fd : UniqueFD) (host port : Bytes) (es : List Event) (c : Conn)
    (h : sessions.Visits (Conn.fresh fd host port) es c) (pre : List Effect) (call : SaveCall)
    (post : List Effect) (he : c.effects = pre ++ .save call :: post) :
    ((∀ msg, .auth msg true ∉ pre) → Identity.Outlasts ⟨[], []⟩ pre → call.hostname = [] ∧ call.username = []) ∧
    ∀ before msg after, pre = before ++ .auth msg true :: after → (∀ msg', .auth msg' true ∉ after) →
      ∃ i : Identity, Announces msg.bytesVec i ∧
        (i.Outlasts after → call.hostname = i.hostname ∧ call.username = i.username) := by
  have hn := run_named h
  obtain ⟨s, m, env, rfl, -, -, hi⟩ := hn.saves pre call post he
  have hnames {i : Identity} (hs : stored pre = i) :
      (s.saveCall m env).hostname = i.hostname ∧ (s.saveCall m env).username = i.username := by
    rw [← hs, ← hi]
    exact ⟨rfl, rfl⟩
  constructor
  · intro hno hkeep
    exact hnames (@stored_of_outlasts [] pre hno hkeep)
  · intro before msg after hpre hno
    have hok : true = (announced msg.bytesVec).ok := hn.auths msg true (by rw [he, hpre]; simp)
    have haccepted : stored (before ++ [.auth msg true]) = (stored before).announce msg.bytesVec := by
      rw [stored_append]
      rfl
    refine ⟨(stored before).announce msg.bytesVec, announced_ok hok.symm, fun hkeep => hnames ?_⟩
    rw [hpre, List.append_cons, stored_of_outlasts hno (haccepted ▸ hkeep), haccepted]

/-- After an accepted request, one that is cut off within its first length, and an image. -/
theorem saved_as_last_accepted_named :
    Announces [0, 2, 112, 99, 0, 3, 97, 110, 110] ⟨lit "pc", lit "ann"⟩ := by
  let request : Chunk := .of ([65, 0, 0, 0, 9, 0, 2] ++ lit "pc" ++ [0, 3] ++ lit "ann")
  let cut : Chunk := .of [65, 0, 0, 0, 1, 0]
  let image : Chunk := .of [73, 0, 0, 0, 1, 9]
  let msg : Message := ⟨[65], [0, 0, 0, 9], [0, 2, 112, 99, 0, 3, 97, 110, 110]⟩
  let after : List Effect := [.sent [89], .auth ⟨[65], [0, 0, 0, 1], [0]⟩ false, .sent [78]]
  let call : SaveCall :=
    { msg := ⟨[73], [0, 0, 0, 1], [9]⟩, hostname := lit "pc", username := lit "ann"
      outPath := lit "screenshots/pc/ann/20250309_070500_10001_4000.png", written := true }
  have hrun : (serveAll [.brings [.data request], .brings [.data cut], .brings [.data image]] .sample).map
      Conn.effects = some ((.auth msg true :: after) ++ [.save call]) := by decide +kernel
  obtain ⟨c, hc, he⟩ := Option.map_eq_some_iff.1 hrun
  obtain ⟨i, hi, hnames⟩ := (saved_as_last_accepted (makeUniqueFD 5) _ _ _ c (.goes (serveAll_goes hc)) _ call [] he).2
    [] msg after rfl (by simp [after])
  have hkeep : i.Outlasts after := by
    intro msg' hm
    obtain rfl : msg' = ⟨[65], [0, 0, 0, 1], [0]⟩ := by simpa [after] using hm
    rfl
  obtain ⟨hh, hu⟩ := hnames hkeep
  rw [show (⟨lit "pc", lit "ann"⟩ : Identity) = i from congrArg₂ Identity.mk hh hu]
  exact hi

/-- An image is saved although no request was ever made. -/
theorem image_without_request :
    ¬∀ (es : List Event) (c : Conn) (pre : List Effect) (call : SaveCall) (post : List Effect),
      sessions.Visits .sample es c → c.effects = pre ++ .save call :: post →
        ∃ before msg after, pre = before ++ .auth msg true :: after ∧ (∀ m, .auth m true ∉ after) ∧
          Announces msg.bytesVec ⟨call.hostname, call.username⟩ := by
  intro h
  let image : Chunk := .of [73, 0, 0, 0, 1, 9]
  let call : SaveCall :=
    { msg := ⟨[73], [0, 0, 0, 1], [9]⟩, hostname := [], username := []
      outPath := lit "screenshots/20250309_070500_10001_4000.png", written := true }
  have hrun : (serveAll [.brings [.data image]] .sample).map Conn.effects = some ([] ++ [.save call]) := by
    decide +kernel
  obtain ⟨c, hc, he⟩ := Option.map_eq_some_iff.1 hrun
  obtain ⟨before, msg, after, hpre, -⟩ := h _ c [] call [] (.goes (serveAll_goes hc)) he
  simp at hpre

end RemoteScreenCapture
