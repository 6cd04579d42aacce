import RemoteScreenCapture.OptionValues
/-!
# Command lines

The loop of `Parse` over any vector. What it accepts gives every option once,
by its full name and with its value behind it, and the parser holds the values.
It does not always leave with `std::invalid_argument`: a value that is missing
and a number that is too long leave with other exceptions.
-/
open Lib Lib.Getopt

namespace RemoteScreenCapture

namespace InputParser

/-! ## What stands on a command line -/

/-- The arguments give these options with their values, among non-options. All
behind two dashes are non-options. -/
inductive Gives (names : List Bytes) : List Bytes → List (Bytes × Bytes) → Prop
  | nil : Gives names [] []
  | terminator (args : List Bytes) : Gives names (terminator :: args) []
  | skip {arg : Bytes} {args : List Bytes} {ps : List (Bytes × Bytes)} : nonOption arg = true → Gives names args ps →
      Gives names (arg :: args) ps
  | option {name value : Bytes} {args : List Bytes} {ps : List (Bytes × Bytes)} : name ∈ names → Gives names args ps →
      Gives names (name :: value :: args) ((name, value) :: ps)

section Breaks
variable (inetPton : Bytes → Bool) (t : ProgramType)

/-- Behind options that are taken stands a known one, not yet given, without a
value or with a number that does not fit in an `int`. -/
def Breaks : List Bytes → List Bytes → Prop
  | _, [] => False
  | given, [arg] => arg ∈ optionNames t ∧ arg ∉ given
  | given, arg :: value :: args =>
    if nonOption arg = true then Breaks given (value :: args)
    else arg ∈ optionNames t ∧ arg ∉ given ∧
      (TooLong inetPton t ((optionNames t).idxOf arg) value ∨
        Valid inetPton t ((optionNames t).idxOf arg) value ∧ Breaks (arg :: given) args)

/-- A command line that `Parse` does not handle. Where the name of the program
is an option itself, it counts as one that stands directly before an argument
that holds its own value, and before a cluster of short options. -/
def Unhandled : List Bytes → Prop
  | [] => False
  | arg0 :: args => Breaks inetPton t [] args ∨
      (arg0 ∈ optionNames t ∧ ∃ arg rest, args = arg :: rest ∧
        (Cluster arg ∨ ∃ i value, Glued (new t).longOptions arg i value ∧
          (TooLong inetPton t i value ∨ Valid inetPton t i value ∧ Breaks inetPton t [arg0] rest)))

end Breaks

section Lines
variable {inetPton : Bytes → Bool} {t : ProgramType} {given : List Bytes}

theorem optionNames_pos (t : ProgramType) : 0 < (optionNames t).length := by
  cases t <;> decide

theorem option_facts {name : Bytes} (h : name ∈ optionNames t) :
    ∃ body, name = dash :: dash :: body ∧ body ≠ [] ∧ equals ∉ body ∧
      findLong (new t).longOptions body = some ((optionNames t).idxOf name, ⟨body, .requiredArgument, 0⟩) := by
  cases t with
  | kServer =>
    have hn : name = lit "--port" := by simpa [optionNames] using h
    exact ⟨lit "port", by rw [hn]; rfl, by decide, by decide, by rw [hn]; decide⟩
  | kClient =>
    have hn : name = lit "--srv" ∨ name = lit "--period" := by simpa [optionNames] using h
    rcases hn with hn | hn
    · exact ⟨lit "srv", by rw [hn]; rfl, by decide, by decide, by rw [hn]; decide⟩
    · exact ⟨lit "period", by rw [hn]; rfl, by decide, by decide, by rw [hn]; decide⟩

theorem nonOption_of_mem {name : Bytes} (h : name ∈ optionNames t) : nonOption name = false ∧ name ≠ terminator := by
  obtain ⟨body, rfl, hb, -⟩ := option_facts h
  simp [nonOption, terminator, hb]

/-- Non-options in front change nothing. -/
theorem breaks_dropWhile (rest : List Bytes) :
    Breaks inetPton t given (rest.dropWhile nonOption) ↔ Breaks inetPton t given rest := by
  induction rest with
  | nil => rfl
  | cons arg rest ih =>
    by_cases ha : nonOption arg = true
    · rw [List.dropWhile_cons_of_pos ha, ih]
      cases rest with
      | nil =>
        simp only [Breaks, false_iff]
        rintro ⟨hmem, -⟩
        rw [(nonOption_of_mem hmem).1] at ha
        cases ha
      | cons value rest => simp only [Breaks, ha, if_true]
    · rw [List.dropWhile_cons_of_neg ha]

/-- At an option with a value behind it. -/
theorem breaks_option {name value : Bytes} {args : List Bytes} (h : name ∈ optionNames t) :
    Breaks inetPton t given (name :: value :: args) ↔ name ∉ given ∧
      (TooLong inetPton t ((optionNames t).idxOf name) value ∨
        Valid inetPton t ((optionNames t).idxOf name) value ∧ Breaks inetPton t (name :: given) args) := by
  rw [Breaks, if_neg (by rw [(nonOption_of_mem h).1]; decide)]
  exact and_iff_right h

/-- At an option that is none of the program's. -/
theorem not_breaks_other {arg : Bytes} {args : List Bytes} (h : nonOption arg = false) (hno : arg ∉ optionNames t) :
    ¬Breaks inetPton t given (arg :: args) := by
  cases args with
  | nil => exact fun hb => hno hb.1
  | cons value args =>
    rw [Breaks, if_neg (by rw [h]; decide)]
    exact fun hb => hno hb.1

theorem gives_dropWhile {names rest : List Bytes} {ps : List (Bytes × Bytes)}
    (h : Gives names (rest.dropWhile nonOption) ps) : Gives names rest ps := by
  induction rest with
  | nil => exact h
  | cons arg rest ih =>
    by_cases ha : nonOption arg = true
    · rw [List.dropWhile_cons_of_pos ha] at h
      exact .skip ha (ih h)
    · rwa [List.dropWhile_cons_of_neg ha] at h

/-! ## The table of options -/

/-- The parser of a program that these options were given to. -/
structure Given (t : ProgramType) (given : List Bytes) (p : InputParser) : Prop where
  progType : p.progType = t
  longOptions : p.longOptions = (new t).longOptions
  optionEnabled : p.optionEnabled = (optionNames t).map fun name => (name, decide (name ∈ given))

theorem given_new (t : ProgramType) : Given t [] (new t) := by
  cases t with
  | kServer => exact ⟨rfl, rfl, rfl⟩
  | kClient => exact ⟨rfl, rfl, rfl⟩

theorem lookup_map (f : Bytes → Bool) (names : List Bytes) (option : Bytes) :
    (names.map fun name => (name, f name)).lookup option = if option ∈ names then some (f option) else none := by
  induction names with
  | nil => rfl
  | cons name names ih =>
    rw [List.map_cons, List.lookup_cons, ih]
    by_cases he : option = name
    · simp [he]
    · have hb : (option == name) = false := by simpa using he
      simp [he, hb]

variable {p : InputParser}

theorem Given.lookup (h : Given t given p) (option : Bytes) : p.optionEnabled.lookup option =
    if option ∈ optionNames t then some (decide (option ∈ given)) else none := by
  rw [h.optionEnabled]
  exact lookup_map (fun name => decide (name ∈ given)) _ _

theorem Given.enable (h : Given t given p) (name : Bytes) : Given t (name :: given) (enable name p) where
  progType := h.progType
  longOptions := h.longOptions
  optionEnabled := by
    unfold InputParser.enable
    rw [h.optionEnabled, List.map_map]
    apply List.map_congr_left
    intro n hn
    by_cases he : n = name
    · simp [he]
    · simp [he]

theorem holds_enable {i : Nat} {v name : Bytes} :
    Holds inetPton t i v (enable name p) ↔ Holds inetPton t i v p := by
  unfold Holds enable
  cases t with
  | kServer =>
    match i with
    | 0 => rfl
    | i + 1 => rfl
  | kClient =>
    match i with
    | 0 => rfl
    | 1 => rfl
    | i + 2 => rfl

theorem Given.missing (h : Given t given p) : p.missingOptions = [] ↔ ∀ name ∈ optionNames t, name ∈ given := by
  unfold missingOptions
  rw [h.optionEnabled]
  simp [List.flatMap_eq_nil_iff, lit]

theorem Given.kept {p' : InputParser} (h : Given t given p) {i : Nat} (hk : Kept inetPton t i p p') :
    Given t given p' where
  progType := hk.progType.trans h.progType
  longOptions := hk.longOptions.trans h.longOptions
  optionEnabled := hk.optionEnabled.trans h.optionEnabled

/-! ## One pass -/

section Pass
variable {c : Call} {r : Int} {i : Nat} {g : State} {option : Bytes}

theorem parseStep_done (h : (getoptLong c.parser.longOptions c.optionIndex c.getopt).1 = done) :
    ∃ c', parseStep inetPton c = .returns false c' ∧ c'.parser = c.parser := by
  cases hg : getoptLong c.parser.longOptions c.optionIndex c.getopt with
  | mk r rest =>
  obtain ⟨i, g⟩ := rest
  rw [hg] at h
  refine ⟨⟨c.parser, g, i⟩, ?_, rfl⟩
  unfold parseStep
  simp [Proc.bind_apply, hg, show r = -1 from h]

/-- The option that is looked up is not the program's. -/
theorem parseStep_unknown (hp : Given t given c.parser)
    (hg : getoptLong c.parser.longOptions c.optionIndex c.getopt = (r, i, g)) (hr : r ≠ done)
    (ho : optionAt g = .ok option) (hno : option ∉ optionNames t) :
    ∃ what c', parseStep inetPton c = .throws (.invalidArgument what) c' := by
  have hlookup := hp.lookup option
  rw [if_neg hno] at hlookup
  refine ⟨lit "Invalid option: " ++ option, ⟨c.parser, g, i⟩, ?_⟩
  unfold parseStep
  simp [Proc.bind_apply, hg, show ¬r = -1 from hr, ho, hlookup]

/-- It was given before. -/
theorem parseStep_given (hp : Given t given c.parser)
    (hg : getoptLong c.parser.longOptions c.optionIndex c.getopt = (r, i, g)) (hr : r ≠ done)
    (ho : optionAt g = .ok option) (hmem : option ∈ optionNames t) (hgiven : option ∈ given) :
    ∃ what c', parseStep inetPton c = .throws (.invalidArgument what) c' := by
  have hlookup := hp.lookup option
  rw [if_pos hmem, decide_eq_true hgiven] at hlookup
  refine ⟨lit "Duplicate option: " ++ option, ⟨c.parser, g, i⟩, ?_⟩
  unfold parseStep
  simp [Proc.bind_apply, hg, show ¬r = -1 from hr, ho, hlookup]

/-- It is new, and handled by its index. -/
theorem parseStep_fresh (hp : Given t given c.parser)
    (hg : getoptLong c.parser.longOptions c.optionIndex c.getopt = (r, i, g)) (hr : r ≠ done)
    (ho : optionAt g = .ok option) (hmem : option ∈ optionNames t) (hnew : option ∉ given) :
    parseStep inetPton c = match handleOption inetPton t g.optarg i c.parser with
      | .returns _ p' => .returns true ⟨enable option p', g, i⟩
      | .throws e p' => .throws e ⟨p', g, i⟩
      | .diverges => .diverges := by
  have hlookup := hp.lookup option
  rw [if_pos hmem, decide_eq_false hnew] at hlookup
  unfold parseStep onParser
  cases hh : handleOption inetPton t g.optarg i c.parser <;>
    simp [Proc.bind_apply, hg, show ¬r = -1 from hr, ho, hlookup, Proc.zoom, hp.progType, hh]

/-- The token that `optind` is behind, -/
theorem optionAt_passed {front more : List Bytes} {arg : Bytes} (hargv : g.argv = front ++ arg :: more)
    (hoptind : g.optind = front.length + (if g.optarg.isSome then 2 else 1)) : optionAt g = .ok arg := by
  have hget : g.argv[front.length]? = some arg := by
    rw [hargv, List.getElem?_append_right le_rfl, Nat.sub_self]
    rfl
  unfold optionAt
  simp [hoptind, hget]

theorem optionAt_view {placed skipped tail more : List Bytes} {name : Bytes}
    (hv : View g placed skipped (name :: tail) more) (hlen : (name :: tail).length = if g.optarg.isSome then 2 else 1) :
    optionAt g = .ok name := by
  have hargv : g.argv = (placed ++ skipped) ++ name :: (tail ++ more) := by
    rw [hv.argv, List.append_assoc (placed ++ skipped), List.cons_append]
  exact optionAt_passed hargv (by rw [hv.optind, hlen, List.length_append])

/-- or the one before that. -/
theorem optionAt_before {front rest : List Bytes} {a : Bytes} (hargv : g.argv = front ++ rest)
    (hoptind : g.optind + 1 = front.length + (if g.optarg.isSome then 2 else 1)) (hlast : front.getLast? = some a) :
    optionAt g = .ok a := by
  have hpos : 0 < front.length := by
    apply List.length_pos_iff.2
    rintro rfl
    cases hlast
  have hget : g.argv[front.length - 1]? = some a := by
    rw [hargv, List.getElem?_append_left (by omega), ← hlast, List.getLast?_eq_getElem?]
  have hplace : ∀ back, g.optind + 1 = front.length + back → g.optind - back = front.length - 1 ∧ ¬g.optind < back := by
    intro back h
    omega
  obtain ⟨hindex, hback⟩ := hplace _ hoptind
  unfold optionAt
  simp only [hback, if_false, hindex, hget]

theorem optionAt_glued {placed skipped more : List Bytes} {arg value a : Bytes} (ho : g.optarg = some value)
    (hv : View g placed skipped [arg] more) (hlast : (placed ++ skipped).getLast? = some a) : optionAt g = .ok a := by
  have hargv : g.argv = (placed ++ skipped) ++ ([arg] ++ more) := by rw [hv.argv, List.append_assoc]
  refine optionAt_before hargv ?_ hlast
  rw [hv.optind, ho, List.length_append]
  rfl

theorem optionAt_cluster {placed skipped rest : List Bytes} {a : Bytes} (ho : g.optarg = none)
    (hargv : g.argv = placed ++ skipped ++ rest) (hoptind : g.optind = placed.length + skipped.length)
    (hlast : (placed ++ skipped).getLast? = some a) : optionAt g = .ok a := by
  refine optionAt_before hargv ?_ hlast
  rw [hoptind, ho, List.length_append]
  rfl

theorem longOptions_required (t : ProgramType) :
    ∀ o ∈ (new t).longOptions, o.hasArg = .requiredArgument ∧ o.val ≠ done := by
  cases t <;> decide

/-- `optind` and what it is behind, before a call of `getopt_long`. -/
structure Before (t : ProgramType) (given rest : List Bytes) (c : Call) : Prop where
  parser : Given t given c.parser
  index : c.optionIndex < (optionNames t).length
  view : ∃ placed skipped options a, View c.getopt placed skipped options rest ∧ placed ≠ [] ∧
    (placed ++ options).getLast? = some a ∧ a ∉ optionNames t

/-- What one pass can do with the arguments that are left. -/
inductive Pass (inetPton : Bytes → Bool) (t : ProgramType) (given rest : List Bytes) (c : Call) :
    Outcome Call ParseExn Bool → Prop
  | ended {c' : Call} : c'.parser = c.parser → Gives (optionNames t) rest [] → ¬Breaks inetPton t given rest →
      Pass inetPton t given rest c (.returns false c')
  | took {name value : Bytes} {args : List Bytes} {c' : Call} : rest.dropWhile nonOption = name :: value :: args →
      name ∈ optionNames t → name ∉ given → Holds inetPton t ((optionNames t).idxOf name) value c'.parser →
      ¬TooLong inetPton t ((optionNames t).idxOf name) value →
      (∀ j v, j ≠ (optionNames t).idxOf name → Holds inetPton t j v c.parser → Holds inetPton t j v c'.parser) →
      Before t (name :: given) args c' → Pass inetPton t given rest c (.returns true c')
  | broke {e : ParseExn} {c' : Call} : (∀ what, e ≠ .invalidArgument what) → Breaks inetPton t given rest →
      Pass inetPton t given rest c (.throws e c')
  | refused {what : Bytes} {c' : Call} : ¬Breaks inetPton t given rest →
      Pass inetPton t given rest c (.throws (.invalidArgument what) c')

section Options
variable {placed skipped options rest more : List Bytes} {arg : Bytes}

/-- At an argument that is no option of the program. -/
theorem parseStep_other (hp : Given t given c.parser) (hv : View c.getopt placed skipped options rest)
    (hne : placed ≠ []) (hr : rest.dropWhile nonOption = arg :: more) (hterm : arg ≠ terminator)
    (hno : arg ∉ optionNames t) {a : Bytes}
    (hlast : (placed ++ options ++ (skipped ++ rest.takeWhile nonOption)).getLast? = some a) (ha : a ∉ optionNames t) :
    ∃ what c', parseStep inetPton c = .throws (.invalidArgument what) c' := by
  have hcame := @getoptLong_came _ _ _ _ _ _ c.optionIndex arg more (longOptions_required t) hv hne hr hterm
  rw [← hp.longOptions] at hcame
  cases hg : getoptLong c.parser.longOptions c.optionIndex c.getopt with
  | mk r found =>
  obtain ⟨i, g⟩ := found
  rw [hg] at hcame
  cases hcame with
  | glued _ hr ho hview => exact parseStep_unknown hp hg hr (optionAt_glued ho hview hlast) ha
  | cluster _ hr ho hargv hoptind =>
    exact parseStep_unknown hp hg hr (optionAt_cluster ho hargv hoptind hlast) ha
  | passed _ _ hr hargv hoptind =>
    rw [← List.length_append] at hoptind
    exact parseStep_unknown hp hg hr (optionAt_passed hargv hoptind) hno

/-- At an option of the program with nothing behind it. -/
theorem parseStep_missing (hp : Given t given c.parser) (hi : c.optionIndex < (optionNames t).length)
    (hv : View c.getopt placed skipped options rest) (hne : placed ≠ []) {name : Bytes}
    (hr : rest.dropWhile nonOption = [name]) (hmem : name ∈ optionNames t) :
    Pass inetPton t given rest c (parseStep inetPton c) := by
  have hbreaks : Breaks inetPton t given rest ↔ name ∈ optionNames t ∧ name ∉ given := by
    rw [← breaks_dropWhile, hr]
    rfl
  obtain ⟨body, rfl, hb, heq, hf⟩ := option_facts hmem
  rw [← hp.longOptions] at hf
  obtain ⟨g, hg, ho, hview⟩ := @getoptLong_missing _ _ _ _ _ _ c.optionIndex _ _ _ hv hne hb heq hf rfl hr
  have hoption : optionAt g = .ok (dash :: dash :: body) := optionAt_view hview (by rw [ho]; rfl)
  by_cases hgiven : dash :: dash :: body ∈ given
  · obtain ⟨what, c', hstep⟩ := parseStep_given hp hg (by decide) hoption hmem hgiven
    rw [hstep]
    exact .refused fun h => (hbreaks.1 h).2 hgiven
  · rw [parseStep_fresh hp hg (by decide) hoption hmem hgiven, ho, handleOption_null hi]
    exact .broke (by simp) (hbreaks.2 ⟨hmem, hgiven⟩)

/-- At an option of the program with a value. -/
theorem parseStep_value (hp : Given t given c.parser) (hv : View c.getopt placed skipped options rest)
    (hne : placed ≠ []) {name value : Bytes} (hr : rest.dropWhile nonOption = name :: value :: more)
    (hmem : name ∈ optionNames t) : Pass inetPton t given rest c (parseStep inetPton c) := by
  have hbreaks := @breaks_option inetPton t given name value more hmem
  rw [← hr, breaks_dropWhile] at hbreaks
  have hindex : (optionNames t).idxOf name < (optionNames t).length := List.idxOf_lt_length_iff.2 hmem
  obtain ⟨body, hname, hb, heq, hf⟩ := option_facts hmem
  rw [← hp.longOptions] at hf
  rw [hname] at hr
  obtain ⟨g, hg, ho, hview⟩ := @getoptLong_value _ _ _ _ _ _ c.optionIndex _ _ _ _ _ hv hne hb heq hf rfl hr
  rw [← hname] at hr hview
  have hoption : optionAt g = .ok name := optionAt_view hview (by rw [ho]; rfl)
  have hval : (0 : Int) ≠ done := by decide
  by_cases hgiven : name ∈ given
  · obtain ⟨what, c', hstep⟩ := parseStep_given hp hg hval hoption hmem hgiven
    rw [hstep]
    exact .refused fun h => (hbreaks.1 h).1 hgiven
  · rw [parseStep_fresh hp hg hval hoption hmem hgiven, ho]
    have hhandling := @handleOption_handling inetPton t _ hindex value c.parser
    cases hh : handleOption inetPton t (some value) ((optionNames t).idxOf name) c.parser with
    | returns u p' =>
      rw [hh] at hhandling
      cases hhandling with
      | stored hholds hlong hkept =>
        refine .took hr hmem hgiven (holds_enable.2 hholds) hlong
          (fun j v hj h => holds_enable.2 (hkept.others j v hj h)) ⟨(hp.kept hkept).enable name, hindex, ?_⟩
        exact ⟨_, _, _, value, hview, by simp [hne], by simp, Valid.not_option ⟨p', hholds⟩⟩
    | throws e p' =>
      rw [hh] at hhandling
      cases hhandling with
      | tooLong hlong => exact .broke (by simp) (hbreaks.2 ⟨hgiven, .inl hlong⟩)
      | refused hvalid hlong =>
        refine .refused fun h => ?_
        rcases (hbreaks.1 h).2 with h | h
        · exact hlong h
        · exact hvalid h.1
    | diverges =>
      rw [hh] at hhandling
      cases hhandling

/-- Any pass, if an option that is none of the program's is refused. -/
theorem parseStep_cases (hp : Given t given c.parser) (hi : c.optionIndex < (optionNames t).length)
    (hv : View c.getopt placed skipped options rest) (hne : placed ≠ [])
    (hother : ∀ arg more, rest.dropWhile nonOption = arg :: more → arg ≠ terminator → arg ∉ optionNames t →
      ∃ what c', parseStep inetPton c = .throws (.invalidArgument what) c') :
    Pass inetPton t given rest c (parseStep inetPton c) := by
  have hends : (∀ arg more, rest.dropWhile nonOption = arg :: more → arg = terminator) →
      Pass inetPton t given rest c (parseStep inetPton c) := by
    intro hend
    obtain ⟨c', hstep, hparser⟩ := @parseStep_done inetPton c (getoptLong_done hv hne hend)
    rw [hstep]
    refine .ended hparser (gives_dropWhile ?_) ?_
    · cases hr : rest.dropWhile nonOption with
      | nil => exact .nil
      | cons arg more => rw [hend arg more hr]; exact .terminator more
    · rw [← breaks_dropWhile]
      cases hr : rest.dropWhile nonOption with
      | nil => exact id
      | cons arg more =>
        rw [hend arg more hr]
        exact not_breaks_other rfl fun hmem => (nonOption_of_mem hmem).2 rfl
  cases hr : rest.dropWhile nonOption with
  | nil => exact hends fun arg more h => by rw [hr] at h; cases h
  | cons arg more =>
    by_cases hterm : arg = terminator
    · refine hends fun arg' more' h => ?_
      rw [hr] at h
      cases h
      exact hterm
    by_cases hmem : arg ∈ optionNames t
    · cases more with
      | nil => exact parseStep_missing hp hi hv hne hr hmem
      | cons value more => exact parseStep_value hp hv hne hr hmem
    · obtain ⟨what, c', hstep⟩ := hother arg more hr hterm hmem
      rw [hstep]
      refine .refused ?_
      rw [← breaks_dropWhile, hr]
      exact not_breaks_other (head_dropWhile hr) hmem

/-- What stands before the next option is none of the program's. -/
theorem Before.pass (hb : Before t given rest c) : Pass inetPton t given rest c (parseStep inetPton c) := by
  obtain ⟨hp, hi, placed, skipped, options, a, hv, hne, hlast, ha⟩ := hb
  have hadvance := advance_view hv
  refine parseStep_cases hp hi hv hne fun arg more hr hterm hno => ?_
  have hfront : placed ++ options ++ (skipped ++ rest.takeWhile nonOption) ≠ [] := by simp [hne]
  obtain ⟨b, hb⟩ := Option.isSome_iff_exists.1 (List.getLast?_isSome.2 hfront)
  refine parseStep_other hp hv hne hr hterm hno hb ?_
  rcases hadvance.before hb with hnon | ⟨-, hsame⟩
  · intro hmem
    rw [(nonOption_of_mem hmem).1] at hnon
    cases hnon
  · rw [hlast] at hsame
    cases hsame
    exact ha

end Options

/-! ## The whole vector -/

/-- A call that `main` is prepared for: it returns, or it throws what is caught. -/
def Handled (o : Outcome Call ParseExn Unit) : Prop :=
  (∃ c, o = .returns () c) ∨ ∃ what c, o = .throws (.invalidArgument what) c

variable {rest : List Bytes}

theorem not_handled_throw {e : ParseExn} (h : ∀ what, e ≠ .invalidArgument what) :
    ¬Handled (.throws e c) := by
  rintro (⟨c', he⟩ | ⟨what, c', he⟩)
  · cases he
  · cases he
    exact h what rfl

/-- The loop is handled if and only if the arguments left do not break it. -/
theorem loop_handled {n : Nat} (hn : rest.length < n) (h : Pass inetPton t given rest c (parseStep inetPton c)) :
    Handled (Proc.loop (parseStep inetPton) n c) ↔ ¬Breaks inetPton t given rest := by
  induction n generalizing given rest c with
  | zero => omega
  | succ n ih =>
    generalize hstep : parseStep inetPton c = o at h
    cases h with
    | ended _ _ hno =>
      rw [Proc.loop_return hstep]
      exact ⟨fun _ => hno, fun _ => .inl ⟨_, rfl⟩⟩
    | @took name value args c' hr hmem hnew hholds hlong _ hbefore =>
      have hlen : args.length + 2 ≤ rest.length := by
        have hle := (List.dropWhile_sublist (p := nonOption) (l := rest)).length_le
        rw [hr] at hle
        exact hle
      have hbreaks := @breaks_option inetPton t given name value args hmem
      rw [← hr, breaks_dropWhile] at hbreaks
      rw [Proc.loop_again hstep, ih (by omega) hbefore.pass, hbreaks]
      have hvalid : Valid inetPton t ((optionNames t).idxOf name) value := ⟨_, hholds⟩
      simp [hnew, hlong, hvalid]
    | broke hexn hyes =>
      rw [Proc.loop_throw hstep]
      exact iff_of_false (not_handled_throw hexn) (not_not_intro hyes)
    | refused hno =>
      rw [Proc.loop_throw hstep]
      exact ⟨fun _ => hno, fun _ => .inr ⟨_, _, rfl⟩⟩

/-- Missing options are reported with what is caught. -/
theorem parse_handled (argv : List Bytes) :
    Handled (parse inetPton argv c) ↔ Handled (Proc.loop (parseStep inetPton) (argv.length + 1) c) := by
  unfold parse
  cases hl : Proc.loop (parseStep inetPton) (argv.length + 1) c with
  | returns u c' =>
    refine ⟨fun _ => .inl ⟨c', rfl⟩, fun _ => ?_⟩
    rw [Proc.bind_returns hl, Proc.bind_returns (Proc.get_apply c')]
    by_cases hm : c'.parser.missingOptions = []
    · exact .inl ⟨c', by simp [hm]⟩
    · exact .inr ⟨lit "Missing options: " ++ c'.parser.missingOptions, c', by simp [hm]⟩
  | throws e c' => rw [Proc.bind_throws hl]
  | diverges => rw [Proc.bind_diverges hl]

/-- The value of an argument that holds it, handled under the name of the program. -/
theorem glued_handled {arg0 arg value : Bytes} {more : List Bytes} {n : Nat} (hn : more.length < n)
    (hp : Given t [] c.parser) (h0 : arg0 ∈ optionNames t) (hi : i < (optionNames t).length)
    (hno : arg ∉ optionNames t) (hg : getoptLong c.parser.longOptions c.optionIndex c.getopt = (r, i, g))
    (hr : r ≠ done) (ho : g.optarg = some value) (hv : View g [arg0] [] [arg] more) :
    Handled (Proc.loop (parseStep inetPton) (n + 1) c) ↔
      ¬(TooLong inetPton t i value ∨ Valid inetPton t i value ∧ Breaks inetPton t [arg0] more) := by
  have hstep := @parseStep_fresh inetPton t [] c r i g arg0 hp hg hr (optionAt_glued ho hv rfl) h0 (by simp)
  have hhandling := @handleOption_handling inetPton t i hi value c.parser
  rw [ho] at hstep
  cases hh : handleOption inetPton t (some value) i c.parser with
  | returns u p' =>
    rw [hh] at hstep hhandling
    cases hhandling with
    | stored hholds hlong hkept =>
      have hvalid : Valid inetPton t i value := ⟨p', hholds⟩
      have hbefore : Before t [arg0] more ⟨enable arg0 p', g, i⟩ :=
        ⟨(hp.kept hkept).enable arg0, hi, [arg0], [], [arg], arg, hv, by simp, rfl, hno⟩
      rw [Proc.loop_again hstep, loop_handled hn hbefore.pass]
      simp [hlong, hvalid]
  | throws e p' =>
    rw [hh] at hstep hhandling
    rw [Proc.loop_throw hstep]
    cases hhandling with
    | tooLong hlong => exact iff_of_false (not_handled_throw (by simp)) (not_not_intro (.inl hlong))
    | refused hvalid hlong =>
      refine iff_of_true (.inr ⟨_, _, rfl⟩) ?_
      rintro (h | h)
      · exact hlong h
      · exact hvalid h.1
  | diverges =>
    rw [hh] at hhandling
    cases hhandling

theorem parse_returns {argv : List Bytes} {c' : Call} (h : parse inetPton argv c = .returns () c') :
    Proc.loop (parseStep inetPton) (argv.length + 1) c = .returns () c' ∧ c'.parser.missingOptions = [] := by
  obtain ⟨u, c₁, hloop, hrest⟩ := Proc.bind_returns_inv h
  rw [Proc.bind_returns (Proc.get_apply c₁)] at hrest
  by_cases hm : c₁.parser.missingOptions = []
  · simp only [hm, ne_eq, not_true_eq_false, if_false] at hrest
    cases hrest
    exact ⟨hloop, hm⟩
  · simp only [hm, ne_eq, not_false_eq_true, if_true] at hrest
    cases hrest

/-- The program's name, if it is an option, before an argument that is none. -/
theorem front_handled {arg0 arg : Bytes} {more : List Bytes} {n : Nat} (hn : more.length < n)
    (h0 : arg0 ∈ optionNames t) (hopt : nonOption arg = false) (hterm : arg ≠ terminator) (hno : arg ∉ optionNames t) :
    Handled (Proc.loop (parseStep inetPton) (n + 1) ⟨new t, start (arg0 :: arg :: more), 0⟩) ↔
      ¬(Cluster arg ∨ ∃ i value, Glued (new t).longOptions arg i value ∧
        (TooLong inetPton t i value ∨ Valid inetPton t i value ∧ Breaks inetPton t [arg0] more)) := by
  have hp := given_new t
  have hv := view_start arg0 (arg :: more)
  have hneg : ¬nonOption arg = true := by simp [hopt]
  have hcame := @getoptLong_came _ _ _ _ _ _ 0 arg more (longOptions_required t) hv (by simp)
    (List.dropWhile_cons_of_neg hneg) hterm
  rw [List.takeWhile_cons_of_neg hneg] at hcame
  simp only [List.append_nil] at hcame
  generalize hg : getoptLong (new t).longOptions 0 (start (arg0 :: arg :: more)) = found at hcame
  cases hcame with
  | @glued i value r g hglued hr ho hview =>
    have hi : i < (optionNames t).length := by
      obtain ⟨body, name, o, -, -, hfind⟩ := hglued
      have hlt := (List.getElem?_eq_some_iff.1 (findLong_getElem hfind)).1
      cases t <;> exact hlt
    rw [glued_handled hn hp h0 hi hno hg hr ho hview]
    refine not_congr ⟨fun h => .inr ⟨i, value, hglued, h⟩, ?_⟩
    rintro (h | ⟨i', value', hglued', h⟩)
    · exact absurd h hglued.not_cluster
    · obtain ⟨rfl, rfl⟩ := hglued.unique hglued'
      exact h
  | @cluster r g hcluster hr ho hargv hoptind =>
    have hlast : ([arg0] ++ []).getLast? = some arg0 := rfl
    have hstep := @parseStep_fresh inetPton t [] ⟨new t, start (arg0 :: arg :: more), 0⟩ r 0 g arg0 hp hg hr
      (optionAt_cluster ho hargv hoptind hlast) h0 (by simp)
    rw [ho, handleOption_null (optionNames_pos t)] at hstep
    rw [Proc.loop_throw hstep]
    exact iff_of_false (not_handled_throw (by simp)) (not_not_intro (.inl hcluster))
  | @passed i r g hglued hcluster hr hargv hoptind =>
    rw [← List.length_append] at hoptind
    obtain ⟨what, c', hstep⟩ := @parseStep_unknown inetPton t [] ⟨new t, start (arg0 :: arg :: more), 0⟩ r i g arg hp hg hr
      (optionAt_passed hargv hoptind) hno
    rw [Proc.loop_throw hstep]
    refine iff_of_true (.inr ⟨what, c', rfl⟩) ?_
    rintro (h | ⟨i', value', hglued', -⟩)
    · exact hcluster h
    · exact hglued i' value' hglued'

/-- Arguments that only an option as the program's name can come before. -/
theorem front_facts {opts : List LongOption} {arg : Bytes} (h : Cluster arg ∨ ∃ i value, Glued opts arg i value) :
    nonOption arg = false ∧ arg ≠ terminator ∧ arg ∉ optionNames t := by
  rcases h with ⟨c, c', cs, rfl, hc⟩ | ⟨i, value, body, name, o, rfl, hsplit, -⟩
  · refine ⟨by simp [nonOption], by simp [terminator], fun hmem => ?_⟩
    obtain ⟨body, he, -⟩ := option_facts hmem
    cases he
    exact hc rfl
  · have heq : equals ∈ body := by
      by_contra hno
      rw [splitName_plain hno] at hsplit
      cases hsplit
    refine ⟨by simp [nonOption], ?_, fun hmem => ?_⟩
    · rintro he
      cases he
      cases heq
    · obtain ⟨body', he, -, hno, -⟩ := option_facts hmem
      cases he
      exact hno heq

/-- The first pass, unless the program's name is an option before an argument
that is none. -/
theorem start_pass {arg0 : Bytes} {args : List Bytes}
    (h : ∀ arg more, args = arg :: more → nonOption arg = false → arg ≠ terminator → arg ∉ optionNames t →
      arg0 ∉ optionNames t) :
    Pass inetPton t [] args ⟨new t, start (arg0 :: args), 0⟩
      (parseStep inetPton ⟨new t, start (arg0 :: args), 0⟩) := by
  have hp := given_new t
  have hv := view_start arg0 args
  refine parseStep_cases hp (optionNames_pos t) hv (by simp) fun arg more hr hterm hno => ?_
  have hfront : [arg0] ++ [] ++ ([] ++ args.takeWhile nonOption) ≠ [] := by simp
  obtain ⟨b, hb⟩ := Option.isSome_iff_exists.1 (List.getLast?_isSome.2 hfront)
  refine parseStep_other hp hv (by simp) hr hterm hno hb ?_
  rcases (advance_view hv).before hb with hnon | ⟨hnil, hlast⟩
  · intro hmem
    rw [(nonOption_of_mem hmem).1] at hnon
    cases hnon
  · -- Nothing was skipped, so the option stands behind the program's name.
    rw [List.nil_append] at hnil
    cases hlast
    refine h arg more ?_ (head_dropWhile hr) hterm hno
    rw [← hr, ← List.nil_append (args.dropWhile nonOption), ← hnil, List.takeWhile_append_dropWhile]

/-- For every argument vector, `Parse` returns or throws what `main` catches if
and only if the vector is not one of those. -/
theorem parse_handled_iff (inetPton : Bytes → Bool) (t : ProgramType) (argv : List Bytes) :
    Handled (run inetPton t argv) ↔ ¬Unhandled inetPton t argv := by
  unfold run
  rw [parse_handled]
  cases argv with
  | nil =>
    obtain ⟨c', hstep, -⟩ := @parseStep_done inetPton ⟨new t, start [], 0⟩ rfl
    exact iff_of_true (.inl ⟨c', Proc.loop_return hstep⟩) id
  | cons arg0 args =>
    by_cases hfront : arg0 ∈ optionNames t ∧ ∃ arg more, args = arg :: more ∧ nonOption arg = false ∧
        arg ≠ terminator ∧ arg ∉ optionNames t
    · obtain ⟨h0, arg, more, rfl, hopt, hterm, hno⟩ := hfront
      have hn : more.length < (arg0 :: arg :: more).length := by
        simp only [List.length_cons]
        omega
      rw [front_handled hn h0 hopt hterm hno]
      refine not_congr ⟨fun h => .inr ⟨h0, arg, more, rfl, h⟩, ?_⟩
      rintro (h | ⟨-, arg', more', he, h⟩)
      · exact absurd h (not_breaks_other hopt hno)
      · cases he
        exact h
    · have hpass : Pass inetPton t [] args ⟨new t, start (arg0 :: args), 0⟩ _ :=
        start_pass fun arg more he hopt hterm hno h0 => hfront ⟨h0, arg, more, he, hopt, hterm, hno⟩
      have hn : args.length < (arg0 :: args).length + 1 := by
        simp only [List.length_cons]
        omega
      rw [loop_handled hn hpass]
      refine not_congr ⟨.inl, ?_⟩
      rintro (h | ⟨h0, arg, more, he, h⟩)
      · exact h
      · have hfacts : nonOption arg = false ∧ arg ≠ terminator ∧ arg ∉ optionNames t := by
          apply front_facts
          rcases h with h | ⟨i, value, h, -⟩
          · exact .inl h
          · exact .inr ⟨i, value, h⟩
        exact absurd ⟨h0, arg, more, he, hfacts⟩ hfront

/-- An option at the end of the line, without its value, is not handled. -/
theorem missing_value_unhandled :
    ¬∀ (inetPton : Bytes → Bool) (t : ProgramType) (argv : List Bytes), Handled (run inetPton t argv) := by
  intro h
  have hrun : ∃ c, run (fun _ => false) .kServer [lit "server", lit "--port"] = .throws .logicError c := ⟨_, rfl⟩
  obtain ⟨c, hrun⟩ := hrun
  have hhandled := h (fun _ => false) .kServer [lit "server", lit "--port"]
  rw [hrun] at hhandled
  exact not_handled_throw (by simp) hhandled

/-! ## What is accepted -/

/-- The parser holds the values of these options, each given once. -/
structure Accepted (inetPton : Bytes → Bool) (t : ProgramType) (qs : List (Bytes × Bytes)) (p : InputParser) : Prop where
  nodup : (qs.map Prod.fst).Nodup
  names : ∀ q ∈ qs, q.1 ∈ optionNames t
  holds : ∀ q ∈ qs, Holds inetPton t ((optionNames t).idxOf q.1) q.2 p

theorem Accepted.cons {qs : List (Bytes × Bytes)} {name value : Bytes} {p' : InputParser}
    (h : Accepted inetPton t qs p) (hmem : name ∈ optionNames t) (hnew : name ∉ qs.map Prod.fst)
    (hholds : Holds inetPton t ((optionNames t).idxOf name) value p')
    (hkept : ∀ j v, j ≠ (optionNames t).idxOf name → Holds inetPton t j v p → Holds inetPton t j v p') :
    Accepted inetPton t ((name, value) :: qs) p' where
  nodup := by
    rw [List.map_cons, List.nodup_cons]
    exact ⟨hnew, h.nodup⟩
  names := by
    intro q hq
    rcases List.mem_cons.1 hq with rfl | hq
    · exact hmem
    · exact h.names q hq
  holds := by
    intro q hq
    rcases List.mem_cons.1 hq with rfl | hq
    · exact hholds
    · refine hkept _ _ (fun he => hnew ?_) (h.holds q hq)
      rw [List.idxOf_inj (h.names q hq)] at he
      rw [← he]
      exact List.mem_map_of_mem hq

/-- A loop that ends found options with their values, and the parser holds them. -/
theorem loop_accepted {n : Nat} {qs : List (Bytes × Bytes)} {c' : Call}
    (hb : Before t (qs.map Prod.fst) rest c) (ha : Accepted inetPton t qs c.parser)
    (h : Proc.loop (parseStep inetPton) n c = .returns () c') :
    ∃ ps, Gives (optionNames t) rest ps ∧ Accepted inetPton t (ps.reverse ++ qs) c'.parser ∧
      Given t ((ps.reverse ++ qs).map Prod.fst) c'.parser := by
  induction n generalizing qs rest c with
  | zero => cases h
  | succ n ih =>
    have hpass := @Before.pass inetPton t _ c rest hb
    generalize hstep : parseStep inetPton c = o at hpass
    cases hpass with
    | ended hparser hgives _ =>
      rw [Proc.loop_return hstep] at h
      cases h
      refine ⟨[], hgives, ?_⟩
      rw [hparser]
      exact ⟨ha, hb.parser⟩
    | @took name value args c₁ hr hmem hnew hholds _ hkept hbefore =>
      rw [Proc.loop_again hstep] at h
      have hnext : Before t (((name, value) :: qs).map Prod.fst) args c₁ := hbefore
      obtain ⟨ps, hgives, hall, hgiven⟩ := ih hnext (ha.cons hmem hnew hholds hkept) h
      refine ⟨(name, value) :: ps, gives_dropWhile (hr ▸ .option hmem hgives), ?_⟩
      rw [List.reverse_cons, List.append_assoc]
      exact ⟨hall, hgiven⟩
    | broke _ _ =>
      rw [Proc.loop_throw hstep] at h
      cases h
    | refused _ =>
      rw [Proc.loop_throw hstep] at h
      cases h

/-- The configuration of a program is what its options say. -/
def Configured (inetPton : Bytes → Bool) : ProgramType → List (Bytes × Bytes) → InputParser → Prop
  | .kServer, ps, p => ∃ value n port, (lit "--port", value) ∈ ps ∧ Numeral value n ∧ 1 ≤ n ∧ n ≤ 65535 ∧
      p.port = some port ∧ (port.toNat : Int) = n
  | .kClient, ps, p =>
    (∃ host portStr n port, (lit "--srv", host ++ colon :: portStr) ∈ ps ∧ colon ∉ host ∧ inetPton host = true ∧
      p.host = host ∧ Numeral portStr n ∧ 1 ≤ n ∧ n ≤ 65535 ∧ p.port = some port ∧ (port.toNat : Int) = n) ∧
    ∃ value n period, (lit "--period", value) ∈ ps ∧ Numeral value n ∧ 0 ≤ n ∧ n ≤ 86400 ∧
      p.period = some period ∧ (period.toNat : Int) = n

/-- In a `uint16_t` the port is not cut off, -/
theorem toNat_port {n : Int} (h0 : 0 ≤ n) (h : n ≤ 65535) : ((UInt16.ofInt n).toNat : Int) = n := by
  unfold UInt16.ofInt
  rw [UInt16.toNat_ofNat']
  omega

/-- nor the period in an `unsigned`. -/
theorem toNat_period {n : Int} (h0 : 0 ≤ n) (h : n ≤ 86400) : ((UInt32.ofInt n).toNat : Int) = n := by
  unfold UInt32.ofInt
  rw [UInt32.toNat_ofNat']
  omega

theorem Accepted.configured {ps : List (Bytes × Bytes)} (h : Accepted inetPton t ps p)
    (hall : ∀ name ∈ optionNames t, name ∈ ps.map Prod.fst) : Configured inetPton t ps p := by
  have hgiven : ∀ name ∈ optionNames t, ∃ value, (name, value) ∈ ps ∧
      Holds inetPton t ((optionNames t).idxOf name) value p := by
    intro name hmem
    obtain ⟨⟨name', value⟩, hq, rfl⟩ := List.mem_map.1 (hall name hmem)
    exact ⟨value, hq, h.holds _ hq⟩
  cases t with
  | kServer =>
    obtain ⟨value, hmem, n, ⟨hn, hlo, hhi⟩, hport⟩ := hgiven (lit "--port") (by decide)
    exact ⟨value, n, _, hmem, hn, hlo, hhi, hport, toNat_port (by omega) hhi⟩
  | kClient =>
    obtain ⟨value, hmem, hsrv⟩ := hgiven (lit "--srv") (by decide)
    obtain ⟨value', hmem', hperiod⟩ := hgiven (lit "--period") (by decide)
    obtain ⟨host, portStr, n, rfl, hcolon, hpton, ⟨hn, hlo, hhi⟩, hhost, hport⟩ := hsrv
    obtain ⟨m, ⟨hm, hmlo, hmhi⟩, hset⟩ := hperiod
    exact ⟨⟨host, portStr, n, _, hmem, hcolon, hpton, hhost, hn, hlo, hhi, hport, toNat_port (by omega) hhi⟩,
      value', m, _, hmem', hm, hmlo, hmhi, hset, toNat_period hmlo hmhi⟩

/-- Where `Parse` returns, each option that the program requires stands on the
line once, by its full name and with its value behind it, among non-options.
The configuration is what these values say. -/
theorem parse_accepted (inetPton : Bytes → Bool) (t : ProgramType) (argv : List Bytes)
    (h0 : ∀ arg0, argv.head? = some arg0 → arg0 ∉ optionNames t) {c : Call} (h : run inetPton t argv = .returns () c) :
    ∃ ps, Gives (optionNames t) argv.tail ps ∧ (ps.map Prod.fst).Perm (optionNames t) ∧
      Configured inetPton t ps c.parser := by
  obtain ⟨hloop, hmissing⟩ := parse_returns h
  cases argv with
  | nil =>
    obtain ⟨c', hstep, hparser⟩ := @parseStep_done inetPton ⟨new t, start [], 0⟩ rfl
    rw [List.length_nil, Proc.loop_return hstep] at hloop
    cases hloop
    rw [hparser, (given_new t).missing] at hmissing
    exact absurd (hmissing _ (List.getElem_mem (optionNames_pos t))) (by simp)
  | cons arg0 args =>
    have hbefore : Before t (([] : List (Bytes × Bytes)).map Prod.fst) args ⟨new t, start (arg0 :: args), 0⟩ :=
      ⟨given_new t, optionNames_pos t, [arg0], [], [], arg0, view_start arg0 args, by simp, rfl, h0 arg0 rfl⟩
    have hnone : Accepted inetPton t [] (new t) := ⟨List.nodup_nil, by simp, by simp⟩
    obtain ⟨ps, hgives, haccepted, hgiven⟩ := loop_accepted hbefore hnone hloop
    rw [List.append_nil] at haccepted hgiven
    have hall := hgiven.missing.1 hmissing
    have hsame : (ps.map Prod.fst).Perm (ps.reverse.map Prod.fst) := by
      rw [List.map_reverse]
      exact (List.reverse_perm _).symm
    have hperm : (ps.reverse.map Prod.fst).Perm (optionNames t) := by
      rw [List.perm_ext_iff_of_nodup haccepted.nodup (by cases t <;> decide)]
      intro name
      refine ⟨fun hmem => ?_, hall name⟩
      obtain ⟨q, hq, rfl⟩ := List.mem_map.1 hmem
      exact haccepted.names q hq
    refine ⟨ps, hgives, hsame.trans hperm, Accepted.configured ?_ fun name hmem => hsame.mem_iff.2 (hall name hmem)⟩
    exact ⟨hsame.nodup_iff.2 haccepted.nodup, fun q hq => haccepted.names q (List.mem_reverse.2 hq),
      fun q hq => haccepted.holds q (List.mem_reverse.2 hq)⟩

/-- A client whose options stand in the other order, with a name between them. -/
def clientLine : List Bytes := [lit "client", lit "--period", lit "5", lit "now", lit "--srv", lit "10.0.0.1:4000"]

theorem parse_accepted_client :
    ∃ c ps, run (fun host => host = lit "10.0.0.1") .kClient clientLine = .returns () c ∧
      Gives (optionNames .kClient) clientLine.tail ps ∧
      Configured (fun host => host = lit "10.0.0.1") .kClient ps c.parser := by
  have hreturns : (match run (fun host => host = lit "10.0.0.1") .kClient clientLine with
      | .returns _ _ => true
      | _ => false) = true := by decide +kernel
  cases hrun : run (fun host => host = lit "10.0.0.1") .kClient clientLine with
  | returns u c =>
    obtain ⟨ps, hgives, -, hconf⟩ := parse_accepted (fun host => host = lit "10.0.0.1") .kClient clientLine
      (by decide) hrun
    exact ⟨c, ps, rfl, hgives, hconf⟩
  | throws e c =>
    rw [hrun] at hreturns
    cases hreturns
  | diverges =>
    rw [hrun] at hreturns
    cases hreturns

end Pass

end Lines

end InputParser

end RemoteScreenCapture
