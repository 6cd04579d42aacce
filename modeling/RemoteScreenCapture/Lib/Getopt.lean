import Mathlib.Data.List.TakeWhile
/-!
# Long options

`getopt_long` of glibc for a program without short options: it permutes the
arguments, takes abbreviations and `--name=value`, and keeps its place in
`optind`. The rules say which token a call comes to and what stands before it.
-/

namespace Lib.Getopt

abbrev Token := List UInt8

def dash : UInt8 := '-'.toUInt8

def equals : UInt8 := '='.toUInt8

inductive HasArg where
  | noArgument
  | requiredArgument
  | optionalArgument
  deriving DecidableEq, Repr

/-- A `struct option` whose `flag` is null. -/
structure LongOption where
  name : Token
  hasArg : HasArg
  val : Int
  deriving DecidableEq, Repr

/-- The global variables, the static ones and the vector, which is permuted. -/
structure State where
  argv : List Token
  optind : Nat
  optarg : Option Token
  /-- The rest of a cluster of short options. -/
  nextchar : Token
  /-- The non-options that were skipped and not yet moved. -/
  firstNonopt : Nat
  lastNonopt : Nat
  deriving DecidableEq, Repr

/-- Before the first call. -/
def start (argv : List Token) : State := ⟨argv, 1, none, [], 1, 1⟩

/-- `argv[optind][0] != '-' || argv[optind][1] == '\0'` -/
def nonOption (a : Token) : Bool := a.head? ≠ some dash || a.length = 1

/-- The two dashes that end the options. -/
def terminator : Token := [dash, dash]

/-- The skipped non-options trade places with the options behind them. -/
def exchange (d : State) : State :=
  { d with
    argv := d.argv.take d.firstNonopt ++
      ((d.argv.drop d.lastNonopt).take (d.optind - d.lastNonopt) ++
        (d.argv.drop d.firstNonopt).take (d.lastNonopt - d.firstNonopt)) ++ d.argv.drop d.optind
    firstNonopt := d.firstNonopt + (d.optind - d.lastNonopt)
    lastNonopt := d.optind }

/-- Non-options are moved behind the options just processed. -/
def moveNonoptions (d : State) : State :=
  if d.firstNonopt ≠ d.lastNonopt ∧ d.lastNonopt ≠ d.optind then exchange d
  else if d.lastNonopt ≠ d.optind then { d with firstNonopt := d.optind }
  else d

/-- On to the next option, over further non-options. -/
def advance (d : State) : State :=
  let d := moveNonoptions d
  let optind := d.optind + ((d.argv.drop d.optind).takeWhile nonOption).length
  { d with optind, lastNonopt := optind }

/-- The scan is over: `optind` goes back over the non-options. -/
def finish (d : State) : State :=
  if d.firstNonopt ≠ d.lastNonopt then { d with optind := d.firstNonopt } else d

/-- The two dashes are skipped like an option, all behind them like non-options. -/
def terminate (d : State) : State :=
  let d := { d with optind := d.optind + 1 }
  let d := if d.firstNonopt ≠ d.lastNonopt ∧ d.lastNonopt ≠ d.optind then exchange d
    else if d.firstNonopt = d.lastNonopt then { d with firstNonopt := d.optind }
    else d
  { d with lastNonopt := d.argv.length, optind := d.argv.length }

/-- What `getopt_long` returns besides the `val` of an option. -/
def done : Int := -1

def questionMark : Int := '?'.toNat

/-- A short option, which no program here has. -/
def shortOption (longind : Nat) (d : State) : Int × Nat × State :=
  let nextchar := d.nextchar.tail
  (questionMark, longind,
    { d with nextchar, optind := if nextchar = [] then d.optind + 1 else d.optind })

/-- The option of this name, or the first that the name abbreviates, if no
other one with different properties is abbreviated too. -/
def findLong (opts : List LongOption) (name : Token) : Option (Nat × LongOption) :=
  match opts.zipIdx.find? (fun o => o.1.name = name) with
  | some (o, i) => some (i, o)
  | none =>
    match opts.zipIdx.filter (fun o => name.isPrefixOf o.1.name) with
    | [] => none
    | (o, i) :: others =>
      if others.all (fun o' => o'.1.hasArg = o.hasArg ∧ o'.1.val = o.val) then some (i, o) else none

/-- The name in a long option, and what stands behind an equals sign. -/
def splitName (arg : Token) : Token × Option Token :=
  (arg.takeWhile (· ≠ equals), if equals ∈ arg then some ((arg.dropWhile (· ≠ equals)).tail) else none)

/-- `process_long_option`, for the text behind the two dashes. -/
def longOption (opts : List LongOption) (longind : Nat) (arg : Token) (d : State) : Int × Nat × State :=
  let (name, glued) := splitName arg
  let d := { d with optind := d.optind + 1 }
  match findLong opts name with
  | none => (questionMark, longind, d)
  | some (i, o) =>
    match glued with
    | some value =>
      if o.hasArg = .noArgument then (questionMark, longind, d)
      else (o.val, i, { d with optarg := some value })
    | none =>
      if o.hasArg = .requiredArgument then
        match d.argv[d.optind]? with
        | some value => (o.val, i, { d with optarg := some value, optind := d.optind + 1 })
        | none => (questionMark, longind, d)
      else (o.val, i, d)

/-- `getopt_long(argc, argv, "", opts, &longind)`: what it returns, and then
`longind` and the variables. -/
def getoptLong (opts : List LongOption) (longind : Nat) (d : State) : Int × Nat × State :=
  if d.argv.length < 1 then (done, longind, d)
  else
    let d := { d with optarg := none }
    if d.nextchar ≠ [] then shortOption longind d
    else
      let d := advance d
      match d.argv[d.optind]? with
      | none => (done, longind, finish d)
      | some arg =>
        if arg = terminator then (done, longind, finish (terminate d))
        else if arg.tail.head? = some dash then longOption opts longind (arg.drop 2) d
        else shortOption longind { d with nextchar := arg.drop 1 }

/-! ## Where a call comes to -/

/-- The vector in four parts: what is in its final place, non-options that were
skipped, options processed since, and what is still to be read. -/
structure View (d : State) (placed skipped options rest : List Token) : Prop where
  argv : d.argv = placed ++ skipped ++ options ++ rest
  firstNonopt : d.firstNonopt = placed.length
  lastNonopt : d.lastNonopt = placed.length + skipped.length
  optind : d.optind = placed.length + skipped.length + options.length
  nextchar : d.nextchar = []
  nonOptions : ∀ a ∈ skipped, nonOption a = true

section Calls
variable {d : State} {placed skipped options rest : List Token}

theorem view_start (arg0 : Token) (rest : List Token) : View (start (arg0 :: rest)) [arg0] [] [] rest :=
  ⟨rfl, rfl, rfl, rfl, rfl, by simp⟩

theorem exchange_argv (h : View d placed skipped options rest) :
    (exchange d).argv = placed ++ options ++ skipped ++ rest := by
  obtain ⟨hargv, hfirst, hlast, hoptind, -, -⟩ := h
  have htake : d.argv.take d.firstNonopt = placed := by
    rw [hargv, hfirst, List.append_assoc, List.append_assoc]
    exact List.take_left' rfl
  have hskipped : (d.argv.drop d.firstNonopt).take (d.lastNonopt - d.firstNonopt) = skipped := by
    rw [hargv, hfirst, hlast, List.append_assoc, List.append_assoc, List.drop_left' rfl]
    exact List.take_left' (by omega)
  have hoptions : (d.argv.drop d.lastNonopt).take (d.optind - d.lastNonopt) = options := by
    rw [hargv, hlast, hoptind, List.append_assoc, List.drop_left' (by simp)]
    exact List.take_left' (by omega)
  have hrest : d.argv.drop d.optind = rest := by
    rw [hargv, hoptind]
    exact List.drop_left' (by simp [Nat.add_assoc])
  unfold exchange
  rw [htake, hskipped, hoptions, hrest]
  simp only [List.append_assoc]

/-- The options come to stand in front of the non-options, wherever that takes
an exchange. -/
theorem moveNonoptions_view (h : View d placed skipped options rest) :
    (moveNonoptions d).argv = placed ++ options ++ skipped ++ rest ∧
      (moveNonoptions d).firstNonopt = (placed ++ options).length ∧ (moveNonoptions d).optind = d.optind ∧
        (moveNonoptions d).nextchar = [] := by
  have hexchange := exchange_argv h
  obtain ⟨hargv, hfirst, hlast, hoptind, hnext, -⟩ := h
  unfold moveNonoptions
  by_cases hs : skipped = []
  · subst hs
    by_cases ho : options = []
    · subst ho
      simp_all
    · simp_all
  · by_cases ho : options = []
    · subst ho
      simp_all
    · simp_all [exchange]

theorem advance_view (h : View d placed skipped options rest) :
    View (advance d) (placed ++ options) (skipped ++ rest.takeWhile nonOption) [] (rest.dropWhile nonOption) := by
  obtain ⟨hargv, hfirst, hoptind, hnext⟩ := moveNonoptions_view h
  have hk : d.optind = (placed ++ options ++ skipped).length := by
    rw [h.optind]
    simp
    omega
  have hrest : (moveNonoptions d).argv.drop d.optind = rest := by
    rw [hargv, hk, List.drop_left]
  have hplace : d.optind + (((moveNonoptions d).argv.drop d.optind).takeWhile nonOption).length =
      (placed ++ options).length + (skipped ++ rest.takeWhile nonOption).length := by
    rw [hrest, hk]
    simp only [List.length_append]
    omega
  unfold advance
  simp only [hoptind]
  refine ⟨?_, hfirst, hplace, hplace, hnext, ?_⟩
  · simp only [hargv, List.append_nil, List.append_assoc, List.takeWhile_append_dropWhile]
  · intro a ha
    rcases List.mem_append.1 ha with ha | ha
    · exact h.nonOptions a ha
    · exact List.mem_takeWhile_imp ha

/-- The tokens behind the skipped ones. -/
theorem View.getElem (h : View d placed skipped options rest) (j : Nat) :
    d.argv[placed.length + skipped.length + j]? = (options ++ rest)[j]? := by
  rw [h.argv, List.append_assoc, ← List.length_append, List.getElem?_append_right (Nat.le_add_right _ _),
    Nat.add_sub_cancel_left]

/-- Before them stands a non-option, if one was skipped. -/
theorem View.before (h : View d placed skipped options rest) {a : Token} (ha : (placed ++ skipped).getLast? = some a) :
    nonOption a = true ∨ (skipped = [] ∧ placed.getLast? = some a) := by
  cases hs : skipped.getLast? with
  | none =>
    have hnil := List.getLast?_eq_none_iff.1 hs
    rw [hnil, List.append_nil] at ha
    exact .inr ⟨hnil, ha⟩
  | some b =>
    rw [List.getLast?_append, hs] at ha
    cases ha
    exact .inl (h.nonOptions a (List.mem_of_getLast? hs))

theorem View.getElem_optind (h : View d placed skipped [] rest) (j : Nat) : d.argv[d.optind + j]? = rest[j]? := by
  rw [h.optind]
  exact h.getElem j

/-- What a call does once it has come to an option or to the end. -/
theorem getoptLong_eq (opts : List LongOption) (longind : Nat) (h : View d placed skipped options rest)
    (hp : placed ≠ []) :
    ∃ d', View d' (placed ++ options) (skipped ++ rest.takeWhile nonOption) [] (rest.dropWhile nonOption) ∧
      d'.optarg = none ∧ getoptLong opts longind d = match rest.dropWhile nonOption with
        | [] => (done, longind, finish d')
        | arg :: _ =>
          if arg = terminator then (done, longind, finish (terminate d'))
          else if arg.tail.head? = some dash then longOption opts longind (arg.drop 2) d'
          else shortOption longind { d' with nextchar := arg.drop 1 } := by
  have hview := @advance_view { d with optarg := none } _ _ _ _ ⟨h.argv, h.firstNonopt, h.lastNonopt, h.optind, h.nextchar, h.nonOptions⟩
  have hlen : ¬d.argv.length < 1 := by
    have hpos := List.length_pos_iff.2 hp
    rw [h.argv]
    simp only [List.length_append]
    omega
  have hnext : ¬d.nextchar ≠ [] := by simp [h.nextchar]
  refine ⟨_, hview, ?_, ?_⟩
  · unfold advance moveNonoptions
    split
    · rfl
    · split <;> rfl
  have hhead := hview.getElem_optind 0
  rw [Nat.add_zero] at hhead
  unfold getoptLong
  simp only [hlen, hnext, if_false, hhead]
  cases rest.dropWhile nonOption with
  | nil => rfl
  | cons arg more => rfl

variable {opts : List LongOption} {longind : Nat}

/-- The scan ends with the arguments, and at two dashes. -/
theorem getoptLong_done (h : View d placed skipped options rest) (hp : placed ≠ [])
    (hend : ∀ arg more, rest.dropWhile nonOption = arg :: more → arg = terminator) :
    (getoptLong opts longind d).1 = done := by
  obtain ⟨d', -, -, heq⟩ := getoptLong_eq opts longind h hp
  rw [heq]
  cases hr : rest.dropWhile nonOption with
  | nil => rfl
  | cons arg more => simp [hend arg more hr]

theorem splitName_plain {name : Token} (hn : equals ∉ name) : splitName name = (name, none) := by
  have hall : name.takeWhile (· ≠ equals) = name := by
    rw [List.takeWhile_eq_self_iff]
    intro c hc
    have hne : c ≠ equals := fun he => hn (he ▸ hc)
    simpa using hne
  rw [splitName, hall, if_neg hn]

section Named
variable {name value : Token} {more : List Token} {i : Nat} {o : LongOption}

/-- An option by its full name, with the argument it requires behind it. -/
theorem getoptLong_value (h : View d placed skipped options rest) (hp : placed ≠ []) (hne : name ≠ [])
    (heq : equals ∉ name) (hf : findLong opts name = some (i, o)) (hreq : o.hasArg = .requiredArgument)
    (hr : rest.dropWhile nonOption = (dash :: dash :: name) :: value :: more) :
    ∃ d', getoptLong opts longind d = (o.val, i, d') ∧ d'.optarg = some value ∧
      View d' (placed ++ options) (skipped ++ rest.takeWhile nonOption) [dash :: dash :: name, value] more := by
  obtain ⟨d₁, hview, -, hcall⟩ := getoptLong_eq opts longind h hp
  have hterm : dash :: dash :: name ≠ terminator := by simp [terminator, hne]
  rw [hr] at hview hcall
  have hvalue := hview.getElem_optind 1
  obtain ⟨hargv, hfirst, hlast, hoptind, hnext, hnon⟩ := hview
  refine ⟨{ d₁ with optarg := some value, optind := d₁.optind + 1 + 1 }, ?_, rfl, ?_⟩
  · rw [hcall]
    simp [hterm, longOption, splitName_plain heq, hf, hreq, hvalue]
  · refine ⟨?_, hfirst, hlast, ?_, hnext, hnon⟩
    · simpa using hargv
    · simp [hoptind]

/-- The same at the end of the vector. -/
theorem getoptLong_missing (h : View d placed skipped options rest) (hp : placed ≠ []) (hne : name ≠ [])
    (heq : equals ∉ name) (hf : findLong opts name = some (i, o)) (hreq : o.hasArg = .requiredArgument)
    (hr : rest.dropWhile nonOption = [dash :: dash :: name]) :
    ∃ d', getoptLong opts longind d = (questionMark, longind, d') ∧ d'.optarg = none ∧
      View d' (placed ++ options) (skipped ++ rest.takeWhile nonOption) [dash :: dash :: name] [] := by
  obtain ⟨d₁, hview, hnone, hcall⟩ := getoptLong_eq opts longind h hp
  have hterm : dash :: dash :: name ≠ terminator := by simp [terminator, hne]
  rw [hr] at hview hcall
  have hvalue := hview.getElem_optind 1
  obtain ⟨hargv, hfirst, hlast, hoptind, hnext, hnon⟩ := hview
  refine ⟨{ d₁ with optind := d₁.optind + 1 }, ?_, hnone, ?_⟩
  · rw [hcall]
    simp [hterm, longOption, splitName_plain heq, hf, hreq, hvalue]
  · refine ⟨?_, hfirst, hlast, ?_, hnext, hnon⟩
    · simpa using hargv
    · simp [hoptind]

end Named

/-! ## Other options -/

/-- `--name=value`, for a name that finds the option `i`. -/
def Glued (opts : List LongOption) (arg : Token) (i : Nat) (value : Token) : Prop :=
  ∃ body name o, arg = dash :: dash :: body ∧ splitName body = (name, some value) ∧ findLong opts name = some (i, o)

/-- Two or more short options in one argument. -/
def Cluster (arg : Token) : Prop := ∃ c c' cs, arg = dash :: c :: c' :: cs ∧ c ≠ dash

theorem Glued.unique {arg value value' : Token} {i i' : Nat} (h : Glued opts arg i value)
    (h' : Glued opts arg i' value') : i = i' ∧ value = value' := by
  obtain ⟨body, name, o, rfl, hsplit, hfind⟩ := h
  obtain ⟨body', name', o', he, hsplit', hfind'⟩ := h'
  cases he
  rw [hsplit] at hsplit'
  cases hsplit'
  rw [hfind] at hfind'
  cases hfind'
  exact ⟨rfl, rfl⟩

/-- Two dashes in front make a long option. -/
theorem not_cluster_long (body : Token) : ¬Cluster (dash :: dash :: body) := by
  rintro ⟨c, c', cs, he, hc⟩
  cases he
  exact hc rfl

theorem Glued.not_cluster {arg value : Token} {i : Nat} (h : Glued opts arg i value) : ¬Cluster arg := by
  obtain ⟨body, -, -, rfl, -⟩ := h
  exact not_cluster_long body

theorem glued_long {body value : Token} {i : Nat} : Glued opts (dash :: dash :: body) i value ↔
    ∃ name o, splitName body = (name, some value) ∧ findLong opts name = some (i, o) := by
  constructor
  · rintro ⟨body, name, o, he, hsplit, hfind⟩
    cases he
    exact ⟨name, o, hsplit, hfind⟩
  · rintro ⟨name, o, hsplit, hfind⟩
    exact ⟨body, name, o, rfl, hsplit, hfind⟩

theorem option_cases {arg : Token} (h : nonOption arg = false) : ∃ c cs, arg = dash :: c :: cs := by
  match arg with
  | [] => simp [nonOption] at h
  | [_] => simp [nonOption] at h
  | a :: c :: cs =>
    have ha : a = dash := by simpa [nonOption] using h
    exact ⟨c, cs, by rw [ha]⟩

theorem head_dropWhile {arg : Token} {more : List Token} (h : rest.dropWhile nonOption = arg :: more) :
    nonOption arg = false := by
  have hne : rest.dropWhile nonOption ≠ [] := by rw [h]; simp
  have hhead := List.head_dropWhile_not nonOption hne
  simpa [h] using hhead

/-- How a call at the option `arg` can leave `optind`: behind `arg`, which has
the value in itself, or still at `arg`, or as far behind `arg` as `optarg` says. -/
inductive Came (opts : List LongOption) (longind : Nat) (placed skipped : List Token) (arg : Token) (more : List Token) :
    Int × Nat × State → Prop
  | glued {i : Nat} {value : Token} {r : Int} {d : State} : Glued opts arg i value → r ≠ done →
      d.optarg = some value → View d placed skipped [arg] more →
      Came opts longind placed skipped arg more (r, i, d)
  | cluster {r : Int} {d : State} : Cluster arg → r ≠ done → d.optarg = none →
      d.argv = placed ++ skipped ++ arg :: more → d.optind = placed.length + skipped.length →
      Came opts longind placed skipped arg more (r, longind, d)
  | passed {i : Nat} {r : Int} {d : State} : (∀ i value, ¬Glued opts arg i value) → ¬Cluster arg → r ≠ done →
      d.argv = placed ++ skipped ++ arg :: more →
      d.optind = placed.length + skipped.length + (if d.optarg.isSome then 2 else 1) →
      Came opts longind placed skipped arg more (r, i, d)

/-- What is found is an option of the table, at its place. -/
theorem findLong_getElem {name : Token} {i : Nat} {o : LongOption} (h : findLong opts name = some (i, o)) :
    opts[i]? = some o := by
  unfold findLong at h
  split at h
  · rename_i o' i' hf
    cases h
    exact List.mk_mem_zipIdx_iff_getElem?.1 (List.mem_of_find?_eq_some hf)
  · split at h
    · cases h
    · rename_i o' i' others hf
      split at h
      · cases h
        have hmem : (o, i) ∈ opts.zipIdx.filter (fun o => name.isPrefixOf o.1.name) := by
          rw [hf]
          exact List.mem_cons_self
        exact List.mk_mem_zipIdx_iff_getElem?.1 (List.mem_filter.1 hmem).1
      · cases h

variable {arg : Token} {more : List Token}

/-- A long option comes to one of the two ends behind `arg`. -/
theorem longOption_came (hval : ∀ o ∈ opts, o.hasArg = .requiredArgument ∧ o.val ≠ done) {cs : Token}
    (h : View d placed skipped [] ((dash :: dash :: cs) :: more)) (hnone : d.optarg = none) :
    Came opts longind placed skipped (dash :: dash :: cs) more (longOption opts longind cs d) := by
  have hvalue := h.getElem_optind 1
  obtain ⟨hargv, hfirst, hlast, hoptind, hnext, hnon⟩ := h
  rw [List.append_nil] at hargv
  rw [List.length_nil, Nat.add_zero] at hoptind
  cases hs : splitName cs with
  | mk name glued =>
  cases hf : findLong opts name with
  | none =>
    have hno : ∀ i value, ¬Glued opts (dash :: dash :: cs) i value := by
      intro i value hg
      obtain ⟨name', o, hsplit, hfind⟩ := glued_long.1 hg
      rw [hs] at hsplit
      cases hsplit
      rw [hf] at hfind
      cases hfind
    unfold longOption
    simp only [hs, hf]
    exact .passed hno (not_cluster_long cs) (by decide) hargv (by simp [hoptind, hnone])
  | some found =>
    obtain ⟨i, o⟩ := found
    obtain ⟨hreq, hdone⟩ := hval o (List.mem_of_getElem? (findLong_getElem hf))
    cases glued with
    | some value =>
      unfold longOption
      simp only [hs, hf, hreq, reduceCtorEq, if_false]
      refine .glued (glued_long.2 ⟨name, o, hs, hf⟩) hdone rfl ⟨?_, hfirst, hlast, ?_, hnext, hnon⟩
      · simpa using hargv
      · simp [hoptind]
    | none =>
      have hno : ∀ i value, ¬Glued opts (dash :: dash :: cs) i value := by
        intro i value hg
        obtain ⟨name', o', hsplit, -⟩ := glued_long.1 hg
        rw [hs] at hsplit
        cases hsplit
      unfold longOption
      simp only [hs, hf, hreq, if_true]
      rw [hvalue]
      cases more with
      | nil => exact .passed hno (not_cluster_long cs) (by decide) hargv (by simp [hoptind, hnone])
      | cons value more => exact .passed hno (not_cluster_long cs) hdone hargv (by simp [hoptind])

/-- Wherever a call comes to an option. -/
theorem getoptLong_came (hval : ∀ o ∈ opts, o.hasArg = .requiredArgument ∧ o.val ≠ done)
    (h : View d placed skipped options rest) (hp : placed ≠ []) (hr : rest.dropWhile nonOption = arg :: more)
    (hne : arg ≠ terminator) :
    Came opts longind (placed ++ options) (skipped ++ rest.takeWhile nonOption) arg more
      (getoptLong opts longind d) := by
  obtain ⟨d', hview, hnone, hcall⟩ := getoptLong_eq opts longind h hp
  rw [hr] at hview hcall
  obtain ⟨c, cs, rfl⟩ := option_cases (head_dropWhile hr)
  have hargv := hview.argv
  have hoptind := hview.optind
  rw [List.append_nil] at hargv
  rw [List.length_nil, Nat.add_zero] at hoptind
  rw [hcall]
  by_cases hc : c = dash
  · subst hc
    simp only [hne, if_false, List.tail_cons, List.head?_cons, if_true]
    exact longOption_came hval hview hnone
  · have hhead : ¬(dash :: c :: cs).tail.head? = some dash := by simpa using hc
    simp only [hne, hhead, if_false]
    cases cs with
    | nil =>
      refine .passed ?_ ?_ (by decide) hargv ?_
      · rintro i value ⟨body, name, o, he, -⟩
        cases he
        exact hc rfl
      · rintro ⟨_, _, _, he, -⟩
        cases he
      · simp [hoptind, hnone]
    | cons c' cs =>
      exact .cluster ⟨c, c', cs, rfl, hc⟩ (by decide) hnone hargv (by simpa using hoptind)

end Calls

end Lib.Getopt
