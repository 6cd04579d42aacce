import RemoteScreenCapture.Shown
import RemoteScreenCapture.Storage
/-!
# Which images share a file

The path of an image is made of the names held, the second in which it is
saved, the digits of the peer's address and its port. Under names in order, the
path gives all of these back, and nothing else.
-/
open Lib

namespace RemoteScreenCapture

/-! ## Digits -/

/-- The bytes are decimal digits. -/
def IsDigits (bs : Bytes) : Prop := ∀ b ∈ bs, 48 ≤ b.toNat ∧ b.toNat ≤ 57

theorem IsDigits.append {bs bs' : Bytes} (h : IsDigits bs) (h' : IsDigits bs') : IsDigits (bs ++ bs') := by
  intro b hb
  rcases List.mem_append.1 hb with hb | hb
  · exact h b hb
  · exact h' b hb

theorem IsDigits.no_separator {bs : Bytes} (h : IsDigits bs) : '_'.toUInt8 ∉ bs ∧ Path.dot ∉ bs := by
  constructor
  · intro hm
    exact absurd (h _ hm).2 (by decide)
  · intro hm
    exact absurd (h _ hm).1 (by decide)

theorem isDigits_toDecimal (n : Nat) : IsDigits (toDecimal n) := fun _ hb => toDecimal_digits hb

theorem isDigits_pad2 (n : Nat) : IsDigits (pad2 n) := by
  have hzero : IsDigits (lit "0") := by
    intro b hb
    rw [List.mem_singleton.1 hb]
    decide
  unfold pad2
  split
  · exact hzero.append (isDigits_toDecimal n)
  · exact isDigits_toDecimal n

theorem readDecimal_toDecimal (n : Nat) : readDecimal (toDecimal n) = n := by
  -- A digit fits into a byte, so each byte counts as its character does.
  have hdigit : ∀ (k : Nat) (c : Char), c ∈ Nat.toDigits 10 n →
      10 * k + (c.toUInt8.toNat - 48) = 10 * k + (c.toNat - '0'.toNat) := by
    intro k c hc
    have hd := Nat.isDigit_of_mem_toDigits (by decide) (by decide) hc
    simp only [Char.isDigit, Bool.and_eq_true, decide_eq_true_eq] at hd
    have hhi : c.val.toNat ≤ 57 := UInt32.le_iff_toNat_le.1 hd.2
    have hb : c.toUInt8.toNat = c.val.toNat % 256 := by rw [Char.toUInt8, UInt32.toNat_toUInt8]
    have hn : c.toNat = c.val.toNat := rfl
    have hz : '0'.toNat = 48 := rfl
    omega
  rw [readDecimal, toDecimal, List.foldl_map, List.foldl_ext _ _ _ hdigit, ← Nat.ofDigitChars_eq_foldl,
    Nat.ofDigitChars_ten_toDigits]

theorem toDecimal_inj {n n' : Nat} : toDecimal n = toDecimal n' ↔ n = n' := by
  refine ⟨fun h => ?_, fun h => by rw [h]⟩
  rw [← readDecimal_toDecimal n, h, readDecimal_toDecimal]

theorem pad2_length {n : Nat} (h : n < 100) : (pad2 n).length = 2 := by
  have hlen : ∀ k, 0 < k → ((toDecimal n).length ≤ k ↔ n < 10 ^ k) := by
    intro k hk
    rw [toDecimal, List.length_map]
    exact Nat.length_toDigits_le_iff (by decide) hk
  have hone := hlen 1 (by decide)
  have htwo := hlen 2 (by decide)
  have hpos : 0 < (toDecimal n).length := by
    rw [toDecimal, List.length_map]
    exact Nat.length_toDigits_pos
  unfold pad2
  split
  · simp only [List.length_append, show (lit "0").length = 1 from rfl]
    omega
  · omega

theorem readDecimal_pad2 (n : Nat) : readDecimal (pad2 n) = n := by
  unfold pad2
  split
  · have hzero : readDecimal (lit "0" ++ toDecimal n) = readDecimal (toDecimal n) := rfl
    rw [hzero, readDecimal_toDecimal]
  · exact readDecimal_toDecimal n

theorem pad2_inj {n n' : Nat} (h : pad2 n = pad2 n') : n = n' := by
  rw [← readDecimal_pad2 n, h, readDecimal_pad2]

/-! ## What a path tells -/

/-- The ranges of what `localtime_r` fills in. -/
structure Tm.Valid (t : Tm) : Prop where
  month : t.month ≤ 12
  day : t.day ≤ 31
  hour : t.hour ≤ 23
  min : t.min ≤ 59
  sec : t.sec ≤ 60

/-- The octets of an address, in decimal and without the dots between them. -/
def Server.Endpoint.digits (peer : Endpoint) : Bytes :=
  toDecimal peer.a.toNat ++ toDecimal peer.b.toNat ++ toDecimal peer.c.toNat ++ toDecimal peer.d.toNat

/-- The session is one of the given peer. -/
structure Session.OfPeer (s : Session) (peer : Server.Endpoint) : Prop where
  host : s.clientHost = Server.inetNtop peer
  port : s.clientPort = toDecimal peer.port.toNat

theorem isDigits_digits (peer : Server.Endpoint) : IsDigits peer.digits :=
  (((isDigits_toDecimal _).append (isDigits_toDecimal _)).append (isDigits_toDecimal _)).append (isDigits_toDecimal _)

theorem inetNtop_filter (peer : Server.Endpoint) : (Server.inetNtop peer).filter (· ≠ Path.dot) = peer.digits := by
  have hall : ∀ n, (toDecimal n).filter (· ≠ Path.dot) = toDecimal n := by
    intro n
    rw [List.filter_eq_self]
    intro b hb
    have hne : b ≠ Path.dot := fun he => (isDigits_toDecimal n).no_separator.2 (he ▸ hb)
    simpa using hne
  have hdot : (lit ".").filter (· ≠ Path.dot) = [] := by decide
  simp only [Server.inetNtop, List.filter_append, hall, hdot, List.append_nil, Server.Endpoint.digits]

section Names
variable {s s' : Session} {peer peer' : Server.Endpoint} {now now' : Tm}

theorem getStringFromHostPort_eq (h : s.OfPeer peer) :
    s.getStringFromHostPort = peer.digits ++ '_'.toUInt8 :: toDecimal peer.port.toNat := by
  rw [Session.getStringFromHostPort, h.host, h.port, inetNtop_filter, List.append_assoc]
  rfl

/-- The endpoint part of a file name gives the digits of the address and the port. -/
theorem getStringFromHostPort_inj (h : s.OfPeer peer) (h' : s'.OfPeer peer') :
    s.getStringFromHostPort = s'.getStringFromHostPort ↔ peer.digits = peer'.digits ∧ peer.port = peer'.port := by
  rw [getStringFromHostPort_eq h, getStringFromHostPort_eq h',
    Path.append_cons_inj (isDigits_digits peer).no_separator.1 (isDigits_digits peer').no_separator.1,
    toDecimal_inj, UInt16.toNat_inj]

/-- The date of a timestamp, and its time of day. -/
def Tm.date (t : Tm) : Bytes := toDecimal t.year ++ (pad2 t.month ++ pad2 t.day)

def Tm.clock (t : Tm) : Bytes := pad2 t.hour ++ (pad2 t.min ++ pad2 t.sec)

theorem isDigits_date (t : Tm) : IsDigits t.date :=
  (isDigits_toDecimal _).append ((isDigits_pad2 _).append (isDigits_pad2 _))

theorem isDigits_clock (t : Tm) : IsDigits t.clock :=
  (isDigits_pad2 _).append ((isDigits_pad2 _).append (isDigits_pad2 _))

theorem timestamp_split (t : Tm) : getCurrentTimestamp t "%Y%m%d_%H%M%S" = t.date ++ '_'.toUInt8 :: t.clock := by
  have hbar : lit "_" = ['_'.toUInt8] := rfl
  rw [timestamp_eq, hbar]
  simp only [Tm.date, Tm.clock, List.append_assoc, List.cons_append, List.nil_append]

/-- A timestamp gives its date and its time of day. -/
theorem timestamp_eq_iff {t t' : Tm} :
    getCurrentTimestamp t "%Y%m%d_%H%M%S" = getCurrentTimestamp t' "%Y%m%d_%H%M%S" ↔
      t.date = t'.date ∧ t.clock = t'.clock := by
  rw [timestamp_split, timestamp_split,
    Path.append_cons_inj (isDigits_date t).no_separator.1 (isDigits_date t').no_separator.1]

/-- Two seconds have one timestamp only if they are the same. -/
theorem timestamp_inj (h : now.Valid) (h' : now'.Valid) :
    getCurrentTimestamp now "%Y%m%d_%H%M%S" = getCurrentTimestamp now' "%Y%m%d_%H%M%S" ↔ now = now' := by
  rw [timestamp_eq_iff]
  refine ⟨fun ⟨hd, hc⟩ => ?_, fun he => by rw [he]; exact ⟨rfl, rfl⟩⟩
  -- The fields behind the year have two digits each, so their places are known.
  have two : ∀ n n' : Nat, n < 100 → n' < 100 → (pad2 n).length = (pad2 n').length := by
    intro n n' hn hn'
    rw [pad2_length hn, pad2_length hn']
  obtain ⟨month, day, hour, min, sec⟩ := h
  obtain ⟨month', day', hour', min', sec'⟩ := h'
  have hmonthLen := two now.month now'.month (by omega) (by omega)
  have hdayLen := two now.day now'.day (by omega) (by omega)
  obtain ⟨hyear, hd⟩ := List.append_inj' hd (by rw [List.length_append, List.length_append, hmonthLen, hdayLen])
  obtain ⟨hmonth, hday⟩ := List.append_inj hd hmonthLen
  obtain ⟨hhour, hc⟩ := List.append_inj hc (two _ _ (by omega) (by omega))
  obtain ⟨hmin, hsec⟩ := List.append_inj hc (two _ _ (by omega) (by omega))
  cases now
  cases now'
  simp only [Tm.mk.injEq]
  exact ⟨toDecimal_inj.1 hyear, pad2_inj hmonth, pad2_inj hday, pad2_inj hhour, pad2_inj hmin, pad2_inj hsec⟩

theorem filename_eq (h : s.OfPeer peer) (now : Tm) :
    s.filename now = now.date ++ '_'.toUInt8 :: (now.clock ++ '_'.toUInt8 ::
      (peer.digits ++ '_'.toUInt8 :: (toDecimal peer.port.toNat ++ lit ".png"))) := by
  have hbar : lit "_" = ['_'.toUInt8] := rfl
  rw [Session.filename, timestamp_split, getStringFromHostPort_eq h, hbar]
  simp only [List.append_assoc, List.cons_append, List.nil_append]

/-- A file name gives the timestamp, the digits of the address and the port. -/
theorem filename_inj (h : s.OfPeer peer) (h' : s'.OfPeer peer') (now now' : Tm) :
    s.filename now = s'.filename now' ↔
      getCurrentTimestamp now "%Y%m%d_%H%M%S" = getCurrentTimestamp now' "%Y%m%d_%H%M%S" ∧
        peer.digits = peer'.digits ∧ peer.port = peer'.port := by
  rw [filename_eq h, filename_eq h', Path.append_cons_inj (isDigits_date _).no_separator.1 (isDigits_date _).no_separator.1,
    Path.append_cons_inj (isDigits_clock _).no_separator.1 (isDigits_clock _).no_separator.1,
    Path.append_cons_inj (isDigits_digits _).no_separator.1 (isDigits_digits _).no_separator.1,
    List.append_left_inj, toDecimal_inj, UInt16.toNat_inj, ← and_assoc, timestamp_eq_iff]

/-- The names that `SaveScreen` puts between `screenshots` and the file are in order. -/
structure Session.WellNamed (s : Session) : Prop where
  hostname : isValidName s.clientHostname = true
  username : isValidName s.clientUsername = true

theorem outPath_eq (h : s.OfPeer peer) (hv : s.WellNamed) (now : Tm) :
    s.outPath now = lit "screenshots" ++ Path.slash ::
      (s.clientHostname ++ Path.slash :: (s.clientUsername ++ Path.slash :: s.filename now)) := by
  have hhost := isValidName_plain hv.hostname
  have huser := isValidName_plain hv.username
  have hfile := filename_plain now h.host h.port
  have hdir : Path.hasFilename (lit "screenshots") = true := by decide
  have houter := Path.hasFilename_join (p := lit "screenshots") hhost
  have hinner := Path.hasFilename_join (p := Path.join (lit "screenshots") s.clientHostname) huser
  change Path.join (Path.join (Path.join (lit "screenshots") s.clientHostname) s.clientUsername) (s.filename now) = _
  rw [Path.join_plain hfile hinner, Path.join_plain huser houter, Path.join_plain hhost hdir]
  simp only [List.append_assoc, List.cons_append]

/-- A path gives the names, and what its file name gives. -/
theorem outPath_inj (h : s.OfPeer peer) (h' : s'.OfPeer peer') (hv : s.WellNamed) (hv' : s'.WellNamed)
    (now now' : Tm) :
    s.outPath now = s'.outPath now' ↔ s.clientHostname = s'.clientHostname ∧
      s.clientUsername = s'.clientUsername ∧
      getCurrentTimestamp now "%Y%m%d_%H%M%S" = getCurrentTimestamp now' "%Y%m%d_%H%M%S" ∧
      peer.digits = peer'.digits ∧ peer.port = peer'.port := by
  have hslash : ∀ {name : Bytes}, isValidName name = true → Path.slash ∉ name :=
    fun hname => (isValidName_plain hname).no_slash
  rw [outPath_eq h hv, outPath_eq h' hv', List.append_right_inj, List.cons_inj_right,
    Path.append_cons_inj (hslash hv.hostname) (hslash hv'.hostname),
    Path.append_cons_inj (hslash hv.username) (hslash hv'.username), filename_inj h h']

end Names

/-! ## Images of two connections -/

/-- Images of two connections share a path if and only if they are saved under
the same names with the same timestamp, from one port of addresses with the
same digits. Two endpoints look the same in a path if and only if they have one
port, and addresses with the same digits. -/
theorem connections_share_path_iff (s s' : Session) (peer peer' : Server.Endpoint) (now now' : Tm)
    (h : s.OfPeer peer) (h' : s'.OfPeer peer') (hv : s.WellNamed) (hv' : s'.WellNamed) :
    (s.outPath now = s'.outPath now' ↔ s.clientHostname = s'.clientHostname ∧
      s.clientUsername = s'.clientUsername ∧
      getCurrentTimestamp now "%Y%m%d_%H%M%S" = getCurrentTimestamp now' "%Y%m%d_%H%M%S" ∧
      peer.digits = peer'.digits ∧ peer.port = peer'.port) ∧
    (s.getStringFromHostPort = s'.getStringFromHostPort ↔
      peer.digits = peer'.digits ∧ peer.port = peer'.port) :=
  ⟨outPath_inj h h' hv hv' now now', getStringFromHostPort_inj h h'⟩

/-- The session of a peer that was authenticated as `ann` of `pc`. -/
def Session.ofAnn (peer : Server.Endpoint) : Session :=
  { (Conn.fresh (makeUniqueFD 5) (Server.inetNtop peer) (toDecimal peer.port.toNat)).session with
    clientHostname := lit "pc", clientUsername := lit "ann" }

theorem ofAnn_ofPeer (peer : Server.Endpoint) : (Session.ofAnn peer).OfPeer peer := ⟨rfl, rfl⟩

theorem ofAnn_wellNamed (peer : Server.Endpoint) : (Session.ofAnn peer).WellNamed := by
  constructor
  · change isValidName (lit "pc") = true
    decide
  · change isValidName (lit "ann") = true
    decide

/-- Two machines in one network. -/
theorem connections_share_path_iff_network :
    (Session.ofAnn ⟨10, 0, 0, 1, 4000⟩).outPath ⟨2025, 3, 9, 7, 5, 0⟩ ≠
      (Session.ofAnn ⟨10, 0, 0, 2, 4000⟩).outPath ⟨2025, 3, 9, 7, 5, 0⟩ := by
  intro he
  have hdigits := ((connections_share_path_iff _ _ _ _ _ _ (ofAnn_ofPeer _) (ofAnn_ofPeer _) (ofAnn_wellNamed _)
    (ofAnn_wellNamed _)).1.1 he).2.2.2.1
  exact absurd hdigits (by decide)

/-- Without its dots, `1.11.1.1` is `11.1.1.1`. -/
theorem endpoints_share_path :
    ¬∀ (s s' : Session) (peer peer' : Server.Endpoint) (now now' : Tm), s.OfPeer peer → s'.OfPeer peer' →
      s.WellNamed → s'.WellNamed → peer ≠ peer' → s.outPath now ≠ s'.outPath now' := by
  intro h
  have hne := h _ _ ⟨1, 11, 1, 1, 4000⟩ ⟨11, 1, 1, 1, 4000⟩ ⟨2025, 3, 9, 7, 5, 0⟩ ⟨2025, 3, 9, 7, 5, 0⟩
    (ofAnn_ofPeer _) (ofAnn_ofPeer _) (ofAnn_wellNamed _) (ofAnn_wellNamed _) (by decide)
  exact hne (by decide +kernel)

/-! ## Images of one connection -/

/-- The images that events of a session save, with the local times that name them. -/
def stamped : List Event → Session → List (SaveCall × Tm)
  | [], _ => []
  | e :: es, s =>
    match serveEvent e ⟨s, []⟩ with
    | .returns keep c => (saves c.effects).map (·, e.inp.save.now) ++ if keep then stamped es c.session else []
    | .throws _ c => (saves c.effects).map (·, e.inp.save.now)
    | .diverges => []

theorem saves_append (es es' : List Effect) : saves (es ++ es') = saves es ++ saves es' :=
  List.filterMap_append

theorem saves_replies {c c' : Conn} (h : Replies c c') : saves c'.effects = saves c.effects := by
  obtain ⟨es, he, hes, -⟩ := h.effects
  have hnil : saves es = [] := by
    apply filterMap_replies _ hes
    intro e he
    cases e <;> first | rfl | cases he
  rw [he, saves_append, hnil, List.append_nil]

/-- A dispatch saves one image at most, at the time that its `SaveScreen` meets. -/
theorem dispatch_saves {i : InInput} {c c' : Conn} (hq : c.session.Typed) (h : (dispatchMessage i c).Leaves c') :
    saves c'.effects = saves c.effects ∨
      ∃ m, saves c'.effects = saves c.effects ++ [c.session.saveCall m i.save] := by
  match hm : c.session.messages with
  | [] =>
    rw [dispatch_nil hm] at h
    cases h
    exact .inl rfl
  | m :: ms =>
    obtain ⟨t, ht⟩ := hq m (by simp [hm])
    rw [dispatch_cons hm ht] at h
    split at h
    · left
      rw [saves_replies (dispatchAuth_leaves hm h)]
      exact (saves_append _ _).trans (List.append_nil _)
    · split at h
      · cases h
        exact .inr ⟨m, saves_append _ _⟩
      · cases h
        exact .inl rfl

theorem event_saves {e : Event} {s : Session} {c : Conn} (hr : s.Ready) (hq : s.Typed)
    (h : (serveEvent e ⟨s, []⟩).Leaves c) :
    saves c.effects = [] ∨ ∃ s' m, saves c.effects = [Session.saveCall s' m e.inp.save] ∧
      s'.clientHost = s.clientHost ∧ s'.clientPort = s.clientPort := by
  rcases serveEvent_dispatch hr h with ⟨c₂, hdis, hl⟩ | ⟨-, c₁, hrep, hbuf⟩
  · obtain ⟨c₁, hrep, ⟨_, _, _, rfl⟩, hq₂⟩ := hdis.before hr hq
    -- Nothing is saved before the dispatch.
    have hnone : saves c₁.effects = [] := saves_replies hrep
    rcases dispatch_saves hq₂ hl with hsaves | ⟨m, hsaves⟩
    · exact .inl (hsaves.trans hnone)
    · refine .inr ⟨_, m, hsaves.trans (by rw [hnone]; rfl), ?_, ?_⟩
      · rw [hrep.session]
      · rw [hrep.session]
  · obtain ⟨_, _, _, rfl⟩ := hbuf
    exact .inl (saves_replies hrep)

/-- What an event leaves, it would leave of the bare session, with nothing shown before. -/
theorem leaves_alone {e : Event} {c c' : Conn} (h : (serveEvent e c).Leaves c') :
    ∃ c₁, (serveEvent e ⟨c.session, []⟩).Leaves c₁ ∧ c' = c₁.behind c.effects := by
  rw [serveEvent_behind] at h
  cases hs : serveEvent e ⟨c.session, []⟩ with
  | returns keep c₁ =>
    rw [hs] at h
    cases h
    exact ⟨c₁, rfl, rfl⟩
  | throws x c₁ =>
    rw [hs] at h
    cases h
    exact ⟨c₁, rfl, rfl⟩
  | diverges =>
    rw [hs] at h
    cases h

theorem stamped_single {e : Event} {s : Session} {c : Conn} (h : (serveEvent e ⟨s, []⟩).Leaves c) :
    stamped [e] s = (saves c.effects).map (·, e.inp.save.now) := by
  unfold stamped
  cases hs : serveEvent e ⟨s, []⟩ with
  | returns keep c₁ =>
    rw [hs] at h
    cases h
    cases keep <;> simp [stamped]
  | throws x c₁ =>
    rw [hs] at h
    cases h
    rfl
  | diverges =>
    rw [hs] at h
    cases h

theorem stamped_append {es es' : List Event} {c c' : Conn} (h : sessions.Goes c es c') :
    stamped (es ++ es') c.session = stamped es c.session ++ stamped es' c'.session := by
  induction es generalizing c with
  | nil =>
    rw [h.nil_inv]
    rfl
  | cons e es ih =>
    obtain ⟨c₁, hn, hg⟩ := h.cons_inv
    have hn : serveEvent e c = .returns true c₁ := hn
    rw [serveEvent_behind] at hn
    cases hs : serveEvent e ⟨c.session, []⟩ with
    | returns keep c₂ =>
      rw [hs] at hn
      cases hn
      have hrest : stamped (es ++ es') (c₂.behind c.effects).session =
          stamped es (c₂.behind c.effects).session ++ stamped es' c'.session := ih hg
      change stamped (es ++ es') c₂.session = stamped es c₂.session ++ stamped es' c'.session at hrest
      simp only [List.cons_append, stamped, hs, if_true, hrest, List.append_assoc]
    | throws x c₂ =>
      rw [hs] at hn
      cases hn
    | diverges =>
      rw [hs] at hn
      cases hn

/-- An image of a session of the given peer, with the time that its path has. -/
def IsStamped (peer : Server.Endpoint) (x : SaveCall × Tm) : Prop :=
  ∃ s m env, Session.OfPeer s peer ∧ x = (s.saveCall m env, env.now)

section Stamped
variable {fd : UniqueFD} {peer : Server.Endpoint} {es : List Event} {c c' : Conn}

/-- A connection that the server accepts from `peer`. -/
def Conn.accepted (fd : UniqueFD) (peer : Server.Endpoint) : Conn :=
  .fresh fd (Server.inetNtop peer) (toDecimal peer.port.toNat)

theorem stamped_step {e : Event} (hg : sessions.Goes (.accepted fd peer) es c) (hl : (serveEvent e c).Leaves c') :
    saves c'.effects = saves c.effects ++ (stamped [e] c.session).map Prod.fst ∧
      ∀ x ∈ stamped [e] c.session, IsStamped peer x := by
  obtain ⟨r, ht⟩ := run_tracks hg
  have hnamed := run_named (.goes hg)
  obtain ⟨c₁, hl₁, rfl⟩ := leaves_alone hl
  rw [stamped_single hl₁]
  constructor
  · have hfst : (saves c₁.effects).map (Prod.fst ∘ (·, e.inp.save.now)) = saves c₁.effects := List.map_id _
    rw [List.map_map, hfst]
    exact saves_append _ _
  · rcases event_saves ht.ready ht.typed hl₁ with hnil | ⟨s', m, hone, hhost, hport⟩
    · rw [hnil]
      simp
    · rw [hone]
      intro x hx
      rw [List.mem_singleton.1 hx]
      exact ⟨s', m, e.inp.save, ⟨hhost.trans hnamed.ofHost, hport.trans hnamed.ofPort⟩, rfl⟩

/-- The images that a run has saved are the stamped ones. -/
theorem run_stamped (h : sessions.Visits (.accepted fd peer) es c) :
    saves c.effects = (stamped es (Conn.accepted fd peer).session).map Prod.fst ∧
      ∀ x ∈ stamped es (Conn.accepted fd peer).session, IsStamped peer x := by
  apply sessions_induct (fun es c => saves c.effects = (stamped es (Conn.accepted fd peer).session).map Prod.fst ∧
    ∀ x ∈ stamped es (Conn.accepted fd peer).session, IsStamped peer x) _ _ h
  · exact ⟨rfl, by simp [stamped]⟩
  · rintro es e c c' hg ⟨hsaves, hall⟩ hl
    obtain ⟨hnew, hallNew⟩ := stamped_step hg hl
    rw [stamped_append hg]
    constructor
    · rw [List.map_append, hnew, hsaves]
    · intro x hx
      exact (List.mem_append.1 hx).elim (hall x) (hallNew x)

/-- Two images have different paths if and only if the names differ or the seconds do. -/
theorem IsStamped.path_ne_iff {a b : SaveCall × Tm} (ha : IsStamped peer a) (hb : IsStamped peer b)
    (hta : a.2.Valid) (htb : b.2.Valid)
    (hna : isValidName a.1.hostname = true ∧ isValidName a.1.username = true)
    (hnb : isValidName b.1.hostname = true ∧ isValidName b.1.username = true) :
    a.1.outPath ≠ b.1.outPath ↔ a.1.hostname ≠ b.1.hostname ∨ a.1.username ≠ b.1.username ∨ a.2 ≠ b.2 := by
  obtain ⟨s, m, env, hs, rfl⟩ := ha
  obtain ⟨s', m', env', hs', rfl⟩ := hb
  have hpath := outPath_inj hs hs' ⟨hna.1, hna.2⟩ ⟨hnb.1, hnb.2⟩ env.now env'.now
  rw [timestamp_inj hta htb] at hpath
  change ¬s.outPath env.now = s'.outPath env'.now ↔
    s.clientHostname ≠ s'.clientHostname ∨ s.clientUsername ≠ s'.clientUsername ∨ env.now ≠ env'.now
  rw [hpath, not_and_or, not_and_or]
  simp

end Stamped

/-- In every run of a session that saves under names in order, each two images
have different paths if and only if the names differ or the seconds do. -/
theorem images_share_path_iff (fd : UniqueFD) (peer : Server.Endpoint) (es : List Event) (c : Conn)
    (h : sessions.Visits (.accepted fd peer) es c)
    (htimes : ∀ x ∈ stamped es (Conn.accepted fd peer).session, x.2.Valid)
    (hnames : ∀ call ∈ saves c.effects, isValidName call.hostname = true ∧ isValidName call.username = true) :
    saves c.effects = (stamped es (Conn.accepted fd peer).session).map Prod.fst ∧
    (stamped es (Conn.accepted fd peer).session).Pairwise fun a b =>
      a.1.outPath ≠ b.1.outPath ↔ a.1.hostname ≠ b.1.hostname ∨ a.1.username ≠ b.1.username ∨ a.2 ≠ b.2 := by
  obtain ⟨hsaves, hall⟩ := run_stamped h
  have hvalid : ∀ x ∈ stamped es (Conn.accepted fd peer).session,
      isValidName x.1.hostname = true ∧ isValidName x.1.username = true := by
    intro x hx
    apply hnames
    rw [hsaves]
    exact List.mem_map_of_mem hx
  refine ⟨hsaves, ?_⟩
  apply List.pairwise_of_forall_mem_list
  intro a ha b hb
  exact (hall a ha).path_ne_iff (hall b hb) (htimes a ha) (htimes b hb) (hvalid a ha) (hvalid b hb)

/-- An accepted request, and two images in one event each. -/
def imageEvents (now now' : Tm) : List Event :=
  let image (chunk : Chunk) (now : Tm) : Event :=
    .onlyIn { InInput.brings [.data chunk] with save := { now := now, dirsOk := true, openOk := true } }
  [.brings [.data .request], image (.of [73, 0, 0, 0, 1, 8]) now, image (.of [73, 0, 0, 0, 1, 9]) now']

/-- Images ten seconds apart. -/
theorem images_share_path_iff_apart :
    ∃ a b, stamped (imageEvents ⟨2025, 3, 9, 7, 5, 0⟩ ⟨2025, 3, 9, 7, 5, 10⟩)
        (Conn.accepted (makeUniqueFD 5) samplePeer).session = [a, b] ∧ a.1.outPath ≠ b.1.outPath := by
  let events := imageEvents ⟨2025, 3, 9, 7, 5, 0⟩ ⟨2025, 3, 9, 7, 5, 10⟩
  let call (payload : UInt8) (path : String) : SaveCall :=
    ⟨⟨[73], [0, 0, 0, 1], [payload]⟩, lit "pc", lit "ann", lit path, true⟩
  let a : SaveCall × Tm := (call 8 "screenshots/pc/ann/20250309_070500_10001_4000.png", ⟨2025, 3, 9, 7, 5, 0⟩)
  let b : SaveCall × Tm := (call 9 "screenshots/pc/ann/20250309_070510_10001_4000.png", ⟨2025, 3, 9, 7, 5, 10⟩)
  have hrun : (serveAll events (.accepted (makeUniqueFD 5) samplePeer)).map (fun c => saves c.effects) =
      some [a.1, b.1] := by decide +kernel
  have hstamped : stamped events (Conn.accepted (makeUniqueFD 5) samplePeer).session = [a, b] := by decide +kernel
  obtain ⟨c, hc, hsaves⟩ := Option.map_eq_some_iff.1 hrun
  have htimes : ∀ x ∈ stamped events (Conn.accepted (makeUniqueFD 5) samplePeer).session, x.2.Valid := by
    rw [hstamped]
    intro x hx
    rcases List.mem_pair.1 hx with rfl | rfl <;> constructor <;> decide
  have hnames : ∀ call ∈ saves c.effects, isValidName call.hostname = true ∧ isValidName call.username = true := by
    rw [hsaves]
    decide
  have hpairs := (images_share_path_iff _ _ events c (.goes (serveAll_goes hc)) htimes hnames).2
  rw [hstamped, List.pairwise_pair] at hpairs
  exact ⟨a, b, hstamped, hpairs.2 (.inr (.inr (by decide)))⟩

/-- Two images of one second go into one file. -/
theorem second_image_overwrites :
    ¬∀ (now : Tm) (es : List Event) (c : Conn), now.Valid → (∀ e ∈ es, e.inp.save.now = now) →
      sessions.Visits (.accepted (makeUniqueFD 5) samplePeer) es c →
      (∀ call ∈ saves c.effects, isValidName call.hostname = true ∧ isValidName call.username = true) →
      (saves c.effects).Pairwise fun a b => a.outPath ≠ b.outPath := by
  intro h
  let now : Tm := ⟨2025, 3, 9, 7, 5, 0⟩
  let call (payload : UInt8) : SaveCall :=
    ⟨⟨[73], [0, 0, 0, 1], [payload]⟩, lit "pc", lit "ann", lit "screenshots/pc/ann/20250309_070500_10001_4000.png", true⟩
  have hrun : (serveAll (imageEvents now now) (.accepted (makeUniqueFD 5) samplePeer)).map (fun c => saves c.effects) =
      some [call 8, call 9] := by decide +kernel
  obtain ⟨c, hc, hsaves⟩ := Option.map_eq_some_iff.1 hrun
  have hvalid : now.Valid := by constructor <;> decide
  have hnow : ∀ e ∈ imageEvents now now, e.inp.save.now = now := by
    intro e he
    simp only [imageEvents, List.mem_cons, List.not_mem_nil, or_false] at he
    rcases he with rfl | rfl | rfl <;> rfl
  have hpairs := h now _ c hvalid hnow (.goes (serveAll_goes hc)) (by rw [hsaves]; decide)
  rw [hsaves, List.pairwise_pair] at hpairs
  exact hpairs rfl

end RemoteScreenCapture
