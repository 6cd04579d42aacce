import RemoteScreenCapture.InputParser
import RemoteScreenCapture.Lib.Path
/-!
# Values of options

Which strings each option takes, and what the parser then holds. A number that
does not fit in an `int` leaves with `std::out_of_range`, every other string
that is not taken with `std::invalid_argument`.
-/
open Lib Lib.Getopt

namespace RemoteScreenCapture

/-! ## Numerals -/

/-- White space, at most one sign, and digits: the numeral of `n`. -/
def Numeral (s : Bytes) (n : Int) : Prop :=
  ∃ spaces sign digits, s = spaces ++ sign ++ digits ∧ (∀ c ∈ spaces, isSpace c = true) ∧
    digits ≠ [] ∧ (∀ c ∈ digits, isDigit c = true) ∧
      (((sign = [] ∨ sign = lit "+") ∧ n = readDecimal digits) ∨ (sign = lit "-" ∧ n = -readDecimal digits))

/-- The string begins with a numeral of `n` that no digit follows. -/
def StartsWith (s : Bytes) (n : Int) : Prop :=
  ∃ numeral rest, s = numeral ++ rest ∧ Numeral numeral n ∧ ∀ c, rest.head? = some c → isDigit c = false

theorem takeWhile_append_of {α : Type} {p : α → Bool} {l r : List α} (hl : ∀ a ∈ l, p a = true)
    (hr : ∀ a, r.head? = some a → p a = false) : (l ++ r).takeWhile p = l ∧ (l ++ r).dropWhile p = r := by
  have hstop : r.takeWhile p = [] ∧ r.dropWhile p = r := by
    cases r with
    | nil => exact ⟨rfl, rfl⟩
    | cons a r => simp [hr a rfl]
  rw [List.takeWhile_append_of_pos hl, List.dropWhile_append_of_pos hl, hstop.1, hstop.2, List.append_nil]
  exact ⟨rfl, rfl⟩

/-- A digit is neither white space nor a sign. -/
theorem isDigit_plain {c : UInt8} (h : isDigit c = true) :
    isSpace c = false ∧ ¬(c = '-'.toUInt8 ∨ c = '+'.toUInt8) := by
  simp only [isDigit, Bool.and_eq_true, decide_eq_true_eq, UInt8.le_iff_toNat_le] at h
  have hlow : 48 ≤ c.toNat := h.1
  constructor
  · have hne : c ≠ 32 := by
      rintro rfl
      exact absurd hlow (by decide)
    have hgt : ¬c ≤ 13 := by
      rw [UInt8.le_iff_toNat_le]
      show ¬c.toNat ≤ 13
      omega
    simp [isSpace, hne, hgt]
  · rintro (rfl | rfl)
    · exact absurd hlow (by decide)
    · exact absurd hlow (by decide)

theorem takeSign_cons (c : UInt8) (s : Bytes) :
    takeSign (c :: s) = if c = '-'.toUInt8 ∨ c = '+'.toUInt8 then ([c], s) else ([], c :: s) := rfl

theorem takeSign_append (s : Bytes) :
    (takeSign s).1 ++ (takeSign s).2 = s ∧
      ((takeSign s).1 = [] ∨ (takeSign s).1 = lit "+" ∨ (takeSign s).1 = lit "-") := by
  cases s with
  | nil => exact ⟨rfl, .inl rfl⟩
  | cons c s =>
    rw [takeSign_cons]
    by_cases hc : c = '-'.toUInt8 ∨ c = '+'.toUInt8
    · rw [if_pos hc]
      refine ⟨rfl, .inr ?_⟩
      rcases hc with rfl | rfl
      · exact .inr rfl
      · exact .inl rfl
    · rw [if_neg hc]
      exact ⟨rfl, .inl rfl⟩

theorem takeSign_eq {sign digits rest : Bytes} (hs : sign = [] ∨ sign = lit "+" ∨ sign = lit "-") (hne : digits ≠ [])
    (hd : ∀ c ∈ digits, isDigit c = true) : takeSign (sign ++ (digits ++ rest)) = (sign, digits ++ rest) := by
  rcases hs with rfl | rfl | rfl
  · obtain ⟨d, ds, rfl⟩ := List.exists_cons_of_ne_nil hne
    have hplain := (isDigit_plain (hd d List.mem_cons_self)).2
    show takeSign (d :: (ds ++ rest)) = ([], d :: (ds ++ rest))
    rw [takeSign_cons, if_neg hplain]
  · rfl
  · rfl

/-- What `strtol` reads is a numeral in front, and it counts its characters. -/
theorem strtol_sound {s : Bytes} {n : Int} {k : Nat} (h : strtol s = some (n, k)) :
    ∃ numeral rest, s = numeral ++ rest ∧ k = numeral.length ∧ Numeral numeral n ∧
      ∀ c, rest.head? = some c → isDigit c = false := by
  obtain ⟨happend, hsign⟩ := takeSign_append (s.dropWhile isSpace)
  unfold strtol at h
  cases hs : takeSign (s.dropWhile isSpace) with
  | mk sign rest =>
  rw [hs] at happend hsign h
  dsimp only at happend hsign h
  split at h
  · cases h
  rename_i hdigits
  cases h
  refine ⟨_, rest.dropWhile isDigit, ?_, rfl, ⟨s.takeWhile isSpace, sign, rest.takeWhile isDigit, rfl,
    fun c hc => List.mem_takeWhile_imp hc, hdigits, fun c hc => List.mem_takeWhile_imp hc, ?_⟩, ?_⟩
  · rw [List.append_assoc, List.takeWhile_append_dropWhile, List.append_assoc, happend,
      List.takeWhile_append_dropWhile]
  · rcases hsign with rfl | rfl | rfl
    · exact .inl ⟨.inl rfl, rfl⟩
    · exact .inl ⟨.inr rfl, rfl⟩
    · exact .inr ⟨rfl, rfl⟩
  · intro c hc
    have hhead := List.head?_dropWhile_not isDigit rest
    rw [hc] at hhead
    exact hhead

/-- A numeral in front is read, if no digit follows. -/
theorem strtol_complete {numeral rest : Bytes} {n : Int} (h : Numeral numeral n)
    (hrest : ∀ c, rest.head? = some c → isDigit c = false) : strtol (numeral ++ rest) = some (n, numeral.length) := by
  obtain ⟨spaces, sign, digits, rfl, hspaces, hne, hdigits, hvalue⟩ := h
  have hsign : sign = [] ∨ sign = lit "+" ∨ sign = lit "-" := by
    rcases hvalue with ⟨rfl | rfl, -⟩ | ⟨rfl, -⟩ <;> simp
  have hbehind : ∀ c, (sign ++ (digits ++ rest)).head? = some c → isSpace c = false := by
    intro c hc
    obtain ⟨d, ds, rfl⟩ := List.exists_cons_of_ne_nil hne
    rcases hsign with rfl | rfl | rfl
    · cases hc
      exact (isDigit_plain (hdigits c List.mem_cons_self)).1
    · cases hc
      rfl
    · cases hc
      rfl
  obtain ⟨htake, hdrop⟩ := takeWhile_append_of hspaces hbehind
  unfold strtol
  have hs : spaces ++ sign ++ digits ++ rest = spaces ++ (sign ++ (digits ++ rest)) := by simp only [List.append_assoc]
  rw [hs, htake, hdrop, takeSign_eq hsign hne hdigits]
  dsimp only
  rw [(takeWhile_append_of hdigits hrest).1, if_neg hne]
  rcases hvalue with ⟨rfl | rfl, rfl⟩ | ⟨rfl, rfl⟩
  · rfl
  · rfl
  · rfl

theorem Numeral.strtol {s : Bytes} {n : Int} (h : Numeral s n) : strtol s = some (n, s.length) := by
  have hread := @strtol_complete s [] n h (by simp)
  rwa [List.append_nil] at hread

theorem startsWith_iff {s : Bytes} {n : Int} : StartsWith s n ↔ ∃ k, strtol s = some (n, k) := by
  constructor
  · rintro ⟨numeral, rest, rfl, hn, hrest⟩
    exact ⟨_, strtol_complete hn hrest⟩
  · rintro ⟨k, h⟩
    obtain ⟨numeral, rest, hs, -, hn, hrest⟩ := strtol_sound h
    exact ⟨numeral, rest, hs, hn, hrest⟩

/-- Where all characters are read, the string is a numeral. -/
theorem numeral_of_strtol {s : Bytes} {n : Int} (h : RemoteScreenCapture.strtol s = some (n, s.length)) : Numeral s n := by
  obtain ⟨numeral, rest, hs, hlen, hn, -⟩ := strtol_sound h
  have hrest : rest = [] := by
    apply List.eq_nil_of_length_eq_zero
    have hl := congrArg List.length hs
    rw [List.length_append] at hl
    omega
  rwa [hs, hrest, List.append_nil]

namespace InputParser

/-- The string is the numeral of a number from `lo` to `hi`. -/
def InRange (lo hi : Int) (s : Bytes) (n : Int) : Prop := Numeral s n ∧ lo ≤ n ∧ n ≤ hi

/-- The string starts with a number that does not fit in an `int`. -/
def Overlong (s : Bytes) : Prop := ∃ n, StartsWith s n ∧ ¬IsInt n

/-- `ParseNum`, for every string. -/
theorem parseNum_cases (s : Bytes) (p : InputParser) :
    (∃ n, Numeral s n ∧ ¬Overlong s ∧ parseNum s p = .returns n p) ∨
    (Overlong s ∧ parseNum s p = .throws .outOfRange p) ∨
    ((∀ n, ¬Numeral s n) ∧ ¬Overlong s ∧ ∃ what, parseNum s p = .throws (.invalidArgument what) p) := by
  have hover : ∀ n k, strtol s = some (n, k) → IsInt n → ¬Overlong s := by
    rintro n k hs hint ⟨m, hm, hno⟩
    obtain ⟨k', hk'⟩ := startsWith_iff.1 hm
    rw [hs] at hk'
    cases hk'
    exact hno hint
  unfold parseNum
  cases hs : strtol s with
  | none =>
    refine .inr (.inr ⟨fun n hn => ?_, ?_, lit "stoi", ?_⟩)
    · rw [hn.strtol] at hs
      cases hs
    · rintro ⟨m, hm, -⟩
      obtain ⟨k, hk⟩ := startsWith_iff.1 hm
      rw [hs] at hk
      cases hk
    · simp [stoi, hs, Proc.bind_apply]
  | some read =>
    obtain ⟨n, k⟩ := read
    by_cases hint : IsInt n
    · by_cases hk : k = s.length
      · subst hk
        exact .inl ⟨n, numeral_of_strtol hs, hover n _ hs hint, by simp [stoi, hs, hint, Proc.bind_apply]⟩
      · refine .inr (.inr ⟨fun m hm => ?_, hover n k hs hint, lit "Invalid num.",
          by simp [stoi, hs, hint, hk, Proc.bind_apply]⟩)
        rw [hm.strtol] at hs
        cases hs
        exact hk rfl
    · exact .inr (.inl ⟨⟨n, startsWith_iff.2 ⟨k, hs⟩, hint⟩, by simp [stoi, hs, hint, Proc.bind_apply]⟩)

/-! ## What an option takes -/

/-- The parser holds what the option `i` says with the value `v`. -/
def Holds (inetPton : Bytes → Bool) : ProgramType → Nat → Bytes → InputParser → Prop
  | .kServer, 0, v, p => ∃ n, InRange 1 65535 v n ∧ p.port = some (.ofInt n)
  | .kClient, 0, v, p => ∃ host port n, v = host ++ colon :: port ∧ colon ∉ host ∧ inetPton host = true ∧
      InRange 1 65535 port n ∧ p.host = host ∧ p.port = some (.ofInt n)
  | .kClient, 1, v, p => ∃ n, InRange 0 86400 v n ∧ p.period = some (.ofInt n)
  | _, _, _, _ => False

/-- A value that a parser can hold. -/
def Valid (inetPton : Bytes → Bool) (t : ProgramType) (i : Nat) (v : Bytes) : Prop := ∃ p, Holds inetPton t i v p

/-- A value with a number in it that does not fit in an `int`. The port is not
looked at behind a host that is refused. -/
def TooLong (inetPton : Bytes → Bool) : ProgramType → Nat → Bytes → Prop
  | .kServer, 0, v => Overlong v
  | .kClient, 0, v => ∃ host port, v = host ++ colon :: port ∧ colon ∉ host ∧ inetPton host = true ∧ Overlong port
  | .kClient, 1, v => Overlong v
  | _, _, _ => False

/-- An option changes nothing that another one set. -/
structure Kept (inetPton : Bytes → Bool) (t : ProgramType) (i : Nat) (p p' : InputParser) : Prop where
  progType : p'.progType = p.progType
  longOptions : p'.longOptions = p.longOptions
  optionEnabled : p'.optionEnabled = p.optionEnabled
  others : ∀ j v, j ≠ i → Holds inetPton t j v p → Holds inetPton t j v p'

/-- How the handling of an option with a value can end. -/
inductive Handling (inetPton : Bytes → Bool) (t : ProgramType) (i : Nat) (v : Bytes) (p : InputParser) :
    Outcome InputParser ParseExn Unit → Prop
  | stored {p' : InputParser} : Holds inetPton t i v p' → ¬TooLong inetPton t i v → Kept inetPton t i p p' →
      Handling inetPton t i v p (.returns () p')
  | tooLong {p' : InputParser} : TooLong inetPton t i v → Handling inetPton t i v p (.throws .outOfRange p')
  | refused {what : Bytes} {p' : InputParser} : ¬Valid inetPton t i v → ¬TooLong inetPton t i v →
      Handling inetPton t i v p (.throws (.invalidArgument what) p')

section Handlers
variable {inetPton : Bytes → Bool} {p : InputParser} {v : Bytes}

/-- A number with bounds, read and stored. -/
def parseBounded (refused : Int → Bool) (what : Bytes) (store : Int → InputParser → InputParser) (arg : Option Bytes) :
    OptionProc Unit := do
  let str ← string arg
  let num ← parseNum str
  if refused num then
    throw (.invalidArgument what)
  modify (store num)

theorem parseBounded_cases {lo hi : Int} {refused : Int → Bool} {what : Bytes}
    {store : Int → InputParser → InputParser} (hc : ∀ n, refused n = true ↔ n < lo ∨ hi < n) (s : Bytes)
    (p : InputParser) :
    (∃ n, InRange lo hi s n ∧ ¬Overlong s ∧ parseBounded refused what store (some s) p = .returns () (store n p)) ∨
    (Overlong s ∧ parseBounded refused what store (some s) p = .throws .outOfRange p) ∨
    ((∀ n, ¬InRange lo hi s n) ∧ ¬Overlong s ∧
      ∃ what', parseBounded refused what store (some s) p = .throws (.invalidArgument what') p) := by
  unfold parseBounded
  rcases parseNum_cases s p with ⟨n, hn, hover, hp⟩ | ⟨hover, hp⟩ | ⟨hno, hover, what', hp⟩
  · by_cases hr : refused n = true
    · refine .inr (.inr ⟨fun m hm => ?_, hover, what, by simp [string, Proc.bind_apply, hp, hr]⟩)
      have heq := hm.1.strtol
      rw [hn.strtol] at heq
      cases heq
      have hout := (hc n).1 hr
      have hrange := hm.2
      omega
    · have hin : ¬(n < lo ∨ hi < n) := fun h => hr ((hc n).2 h)
      exact .inl ⟨n, ⟨hn, by omega, by omega⟩, hover, by simp [string, Proc.bind_apply, hp, hr]⟩
  · exact .inr (.inl ⟨hover, by simp [string, Proc.bind_apply, hp]⟩)
  · exact .inr (.inr ⟨fun n hn => hno n hn.1, hover, what', by simp [string, Proc.bind_apply, hp]⟩)

theorem parsePort_eq : parsePort = parseBounded (fun n => n ≤ 0 ∨ 65535 < n) (lit "Invalid port.")
    (fun n p => { p with port := some (.ofInt n) }) := by
  funext arg
  simp [parsePort, parseBounded]

theorem parsePeriod_eq : parsePeriod = parseBounded (fun n => n < 0 ∨ 86400 < n) (lit "Invalid period.")
    (fun n p => { p with period := some (.ofInt n) }) := by
  funext arg
  simp [parsePeriod, parseBounded]

theorem parsePort_cases (s : Bytes) (p : InputParser) :
    (∃ n, InRange 1 65535 s n ∧ ¬Overlong s ∧ parsePort (some s) p = .returns () { p with port := some (.ofInt n) }) ∨
    (Overlong s ∧ parsePort (some s) p = .throws .outOfRange p) ∨
    ((∀ n, ¬InRange 1 65535 s n) ∧ ¬Overlong s ∧
      ∃ what, parsePort (some s) p = .throws (.invalidArgument what) p) := by
  rw [parsePort_eq]
  refine parseBounded_cases (fun n => ?_) s p
  rw [decide_eq_true_iff]
  omega

theorem parsePeriod_cases (s : Bytes) (p : InputParser) :
    (∃ n, InRange 0 86400 s n ∧ ¬Overlong s ∧
      parsePeriod (some s) p = .returns () { p with period := some (.ofInt n) }) ∨
    (Overlong s ∧ parsePeriod (some s) p = .throws .outOfRange p) ∨
    ((∀ n, ¬InRange 0 86400 s n) ∧ ¬Overlong s ∧
      ∃ what, parsePeriod (some s) p = .throws (.invalidArgument what) p) := by
  rw [parsePeriod_eq]
  exact parseBounded_cases (fun n => decide_eq_true_iff) s p

/-- The first colon of a string is where its host ends. -/
theorem idxOf?_colon {host port : Bytes} (h : colon ∉ host) : (host ++ colon :: port).idxOf? colon = some host.length := by
  rw [List.idxOf?_eq_some_iff]
  refine ⟨by simp, by simp, fun j hj he => h ?_⟩
  rw [List.getElem_append_left hj] at he
  exact he ▸ List.getElem_mem hj

theorem parseHost_eq (inetPton : Bytes → Bool) (host : Bytes) (p : InputParser) :
    parseHost inetPton (some host) p =
      if inetPton host = true then .returns () { p with host } else .throws (.invalidArgument (lit "Invalid host.")) p := by
  unfold parseHost
  cases hh : inetPton host <;> simp [string, Proc.bind_apply, hh]

theorem parseSrv_eq {host port : Bytes} (h : colon ∉ host) (p : InputParser) :
    parseSrv inetPton (some (host ++ colon :: port)) p =
      (do
        parseHost inetPton (some host)
        parsePort (some port)) p := by
  have hdrop : (host ++ colon :: port).drop (host.length + 1) = port := by
    rw [← List.drop_drop, List.drop_left]
    rfl
  unfold parseSrv
  simp only [string, Proc.bind_apply, Proc.lift_ok, idxOf?_colon h, List.take_left, hdrop]

/-- There is one way to take a string apart at its first colon. -/
theorem split_unique {host host' port port' : Bytes} (h : colon ∉ host)
    (he : host ++ colon :: port = host' ++ colon :: port') (h' : colon ∉ host') : host = host' ∧ port = port' :=
  (Path.append_cons_inj h h').1 he

theorem tooLong_srv {host port : Bytes} (h : colon ∉ host) : TooLong inetPton .kClient 0 (host ++ colon :: port) ↔
    inetPton host = true ∧ Overlong port := by
  constructor
  · rintro ⟨host', port', he, hn, hpton, ho⟩
    obtain ⟨rfl, rfl⟩ := split_unique h he hn
    exact ⟨hpton, ho⟩
  · rintro ⟨hpton, ho⟩
    exact ⟨host, port, rfl, h, hpton, ho⟩

theorem valid_srv {host port : Bytes} (h : colon ∉ host) (hv : Valid inetPton .kClient 0 (host ++ colon :: port)) :
    inetPton host = true ∧ ∃ n, InRange 1 65535 port n := by
  obtain ⟨q, host', port', n, he, hn, hpton, hr, -⟩ := hv
  obtain ⟨rfl, rfl⟩ := split_unique h he hn
  exact ⟨hpton, n, hr⟩

/-- `ParseSrv` handles the first option of the client: the host, -/
theorem parseSrv_handling {host port : Bytes} (h : colon ∉ host) (p : InputParser) :
    Handling inetPton .kClient 0 (host ++ colon :: port) p (parseSrv inetPton (some (host ++ colon :: port)) p) := by
  rw [parseSrv_eq h, Proc.bind_apply, parseHost_eq]
  by_cases hpton : inetPton host = true
  · rw [if_pos hpton]
    dsimp only
    rcases parsePort_cases port { p with host } with ⟨n, hn, hover, hp⟩ | ⟨hover, hp⟩ | ⟨hno, hover, what, hp⟩
    · rw [hp]
      refine .stored ⟨host, port, n, rfl, h, hpton, hn, rfl, rfl⟩ (fun ht => hover ((tooLong_srv h).1 ht).2)
        ⟨rfl, rfl, rfl, ?_⟩
      intro j w hj hw
      match j with
      | 0 => exact absurd rfl hj
      | 1 => exact hw
    · rw [hp]
      exact .tooLong ((tooLong_srv h).2 ⟨hpton, hover⟩)
    · rw [hp]
      refine .refused (fun hv => ?_) (fun ht => hover ((tooLong_srv h).1 ht).2)
      obtain ⟨-, n, hn⟩ := valid_srv h hv
      exact hno n hn
  · rw [if_neg hpton]
    exact .refused (fun hv => hpton (valid_srv h hv).1) (fun ht => hpton ((tooLong_srv h).1 ht).1)

/-- or no host at all. -/
theorem parseSrv_no_colon (h : colon ∉ v) (p : InputParser) :
    Handling inetPton .kClient 0 v p (parseSrv inetPton (some v) p) := by
  have hnone : v.idxOf? colon = none := List.idxOf?_eq_none_iff.2 h
  have hsrv : parseSrv inetPton (some v) p = .throws (.invalidArgument (lit "Invalid host or port: " ++ v)) p := by
    unfold parseSrv
    simp [string, Proc.bind_apply, hnone]
  rw [hsrv]
  refine .refused ?_ ?_
  · rintro ⟨q, host, port, n, rfl, -⟩
    exact h (by simp)
  · rintro ⟨host, port, rfl, -⟩
    exact h (by simp)

/-- `ParsePort` handles the option of the server, -/
theorem parsePort_handling (v : Bytes) (p : InputParser) :
    Handling inetPton .kServer 0 v p (parsePort (some v) p) := by
  rcases parsePort_cases v p with ⟨n, hn, hover, hp⟩ | ⟨hover, hp⟩ | ⟨hno, hover, what, hp⟩
  · rw [hp]
    refine .stored ⟨n, hn, rfl⟩ hover ⟨rfl, rfl, rfl, ?_⟩
    intro j w hj hw
    match j with
    | 0 => exact absurd rfl hj
  · rw [hp]
    exact .tooLong hover
  · rw [hp]
    refine .refused ?_ hover
    rintro ⟨q, n, hn, -⟩
    exact hno n hn

/-- and `ParsePeriod` the second of the client. -/
theorem parsePeriod_handling (v : Bytes) (p : InputParser) :
    Handling inetPton .kClient 1 v p (parsePeriod (some v) p) := by
  rcases parsePeriod_cases v p with ⟨n, hn, hover, hp⟩ | ⟨hover, hp⟩ | ⟨hno, hover, what, hp⟩
  · rw [hp]
    refine .stored ⟨n, hn, rfl⟩ hover ⟨rfl, rfl, rfl, ?_⟩
    intro j w hj hw
    match j with
    | 0 => exact hw
    | 1 => exact absurd rfl hj
  · rw [hp]
    exact .tooLong hover
  · rw [hp]
    refine .refused ?_ hover
    rintro ⟨q, n, hn, -⟩
    exact hno n hn

/-- The options that a program requires, in the order of `long_options`. -/
def optionNames : ProgramType → List Bytes
  | .kServer => [lit "--port"]
  | .kClient => [lit "--srv", lit "--period"]

theorem handleOption_handling {t : ProgramType} {i : Nat} (hi : i < (optionNames t).length) (v : Bytes)
    (p : InputParser) : Handling inetPton t i v p (handleOption inetPton t (some v) i p) := by
  cases t with
  | kServer =>
    match i with
    | 0 => exact parsePort_handling v p
  | kClient =>
    match i with
    | 0 =>
      by_cases hc : colon ∈ v
      · obtain ⟨host, port, rfl, hhost⟩ := List.eq_append_cons_of_mem hc
        exact parseSrv_handling hhost p
      · exact parseSrv_no_colon hc p
    | 1 => exact parsePeriod_handling v p

/-- An option without a value. -/
theorem handleOption_null {t : ProgramType} {i : Nat} (hi : i < (optionNames t).length) (p : InputParser) :
    handleOption inetPton t none i p = .throws .logicError p := by
  cases t with
  | kServer =>
    match i with
    | 0 => rfl
  | kClient =>
    match i with
    | 0 => rfl
    | 1 => rfl

/-- No option is the value of one. -/
theorem Valid.not_option {t : ProgramType} {i : Nat} (h : Valid inetPton t i v) : v ∉ optionNames t := by
  have hnumeral : ∀ s ∈ [lit "--port", lit "--srv", lit "--period"], ∀ n, ¬Numeral s n := by
    intro s hs n hn
    have hread := hn.strtol
    have hnone : ∀ s ∈ [lit "--port", lit "--srv", lit "--period"], strtol s = none := by decide
    rw [hnone s hs] at hread
    cases hread
  obtain ⟨p, hp⟩ := h
  intro hmem
  match t, i, hp with
  | .kServer, 0, ⟨n, hn, _⟩ =>
    have hv : v = lit "--port" := by simpa [optionNames] using hmem
    exact hnumeral v (by simp [hv]) n hn.1
  | .kClient, 0, ⟨host, port, n, hv, _⟩ =>
    have hcolon : ∀ s ∈ optionNames .kClient, colon ∉ s := by decide
    exact hcolon v hmem (by simp [hv])
  | .kClient, 1, ⟨n, hn, _⟩ => exact hnumeral v (List.mem_cons_of_mem _ hmem) n hn.1

end Handlers

end InputParser

end RemoteScreenCapture
