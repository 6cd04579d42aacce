import Mathlib.Data.List.Basic
/-!
# Paths

POSIX pathnames as `std::filesystem::path` treats them: `join` is `operator/`
and `normal` is `lexically_normal`, given as the names on the way from the
start of the path. Joining a plain name adds exactly that name.
-/

namespace Lib.Path

abbrev Name := List UInt8

def slash : UInt8 := 47
def dot : UInt8 := 46

def isAbsolute (p : Name) : Bool := p.head? == some slash

/-- The path does not end in a separator. -/
def hasFilename (p : Name) : Bool := p.getLast?.any (· != slash)

/-- `p / q`: an absolute right operand replaces the left one. -/
def join (p q : Name) : Name :=
  if isAbsolute q then q
  else if hasFilename p then p ++ slash :: q
  else p ++ q

/-- One name of a path, on the names before it (last one first). -/
def push (absolute : Bool) (stack : List Name) (c : Name) : List Name :=
  if c = [] ∨ c = [dot] then stack
  else if c = [dot, dot] then
    match stack with
    | [] => if absolute then [] else [c]
    | top :: rest => if top = [dot, dot] then c :: stack else rest
  else c :: stack

/-- A path in normal form. -/
structure Normal where
  absolute : Bool
  names : List Name
  deriving DecidableEq, Repr

def normal (p : Name) : Normal :=
  ⟨isAbsolute p, ((p.splitOn slash).foldl (push (isAbsolute p)) []).reverse⟩

/-- `p` names a file beneath the relative directory `dir`. -/
def Beneath (dir p : Name) : Prop :=
  (normal p).absolute = false ∧ (normal p).names.head? = some dir ∧ 2 ≤ (normal p).names.length ∧
    hasFilename p = true

instance (dir p : Name) : Decidable (Beneath dir p) := inferInstanceAs (Decidable (_ ∧ _ ∧ _ ∧ _))

/-- A name that stands for one directory entry. -/
structure Plain (c : Name) : Prop where
  ne_nil : c ≠ []
  no_slash : slash ∉ c
  ne_dot : c ≠ [dot]
  ne_dotdot : c ≠ [dot, dot]

variable {p c : Name}

theorem Plain.push (h : Plain c) (absolute : Bool) (stack : List Name) : push absolute stack c = c :: stack := by
  simp [Path.push, h.ne_nil, h.ne_dot, h.ne_dotdot]

theorem push_nil (absolute : Bool) (stack : List Name) : push absolute stack [] = stack := by
  simp [push]

theorem Plain.not_absolute (h : Plain c) : isAbsolute c = false := by
  match c, h.no_slash with
  | [], _ => rfl
  | x :: _, hs => simpa [isAbsolute] using fun e : x = slash => hs (by simp [e])

theorem Plain.hasFilename (h : Plain c) (p : Name) : hasFilename (p ++ c) = true := by
  obtain ⟨a, x, rfl⟩ := List.eq_nil_or_concat c |>.resolve_left h.ne_nil
  have hx : x ≠ slash := fun e => h.no_slash (by simp [e])
  simp [Path.hasFilename, hx]

/-- A path without a file name is empty or ends in a separator. -/
theorem hasFilename_false (h : hasFilename p = false) : p = [] ∨ ∃ q, p = q ++ [slash] := by
  rcases List.eq_nil_or_concat p with rfl | ⟨q, x, rfl⟩
  · exact .inl rfl
  · exact .inr ⟨q, by simpa [hasFilename] using h⟩

theorem isAbsolute_append (hp : p ≠ []) (q : Name) : isAbsolute (p ++ q) = isAbsolute p := by
  obtain ⟨x, p, rfl⟩ := List.exists_cons_of_ne_nil hp
  rfl

/-- Joining a plain name adds it. -/
theorem normal_join (h : Plain c) : normal (join p c) = ⟨isAbsolute p, (normal p).names ++ [c]⟩ := by
  have hsplit : c.splitOn slash = [c] := List.splitOn_eq_singleton h.no_slash
  have hadd : ∀ q : Name, isAbsolute (q ++ slash :: c) = isAbsolute p →
      normal (q ++ slash :: c) =
        ⟨isAbsolute p, ((q.splitOn slash).foldl (Path.push (isAbsolute p)) []).reverse ++ [c]⟩ := by
    intro q hq
    rw [normal, hq, List.splitOn_append_cons_self, hsplit, List.foldl_append]
    simp [h.push]
  cases hf : Path.hasFilename p with
  | true =>
    have hp : p ≠ [] := by rintro rfl; simp [Path.hasFilename] at hf
    simp only [join, h.not_absolute, hf, Bool.false_eq_true, if_false, if_true]
    exact hadd p (isAbsolute_append hp _)
  | false =>
    simp only [join, h.not_absolute, hf, Bool.false_eq_true, if_false]
    rcases hasFilename_false hf with rfl | ⟨q, rfl⟩
    · simp only [List.nil_append, normal, h.not_absolute, hsplit]
      simp [isAbsolute, h.push, push_nil]
    · have ha : isAbsolute (q ++ slash :: c) = isAbsolute (q ++ [slash]) := by
        cases q <;> rfl
      rw [List.append_assoc, List.singleton_append, hadd q ha]
      simp [normal, List.splitOn_append_cons_self, push_nil]

/-- Joining the empty name adds nothing. -/
theorem normal_join_nil : normal (join p []) = normal p := by
  cases hf : hasFilename p with
  | true =>
    have hp : p ≠ [] := by rintro rfl; simp [hasFilename] at hf
    have ha := isAbsolute_append hp [slash]
    have hj : join p [] = p ++ [slash] := by simp [join, isAbsolute, hf]
    rw [hj, normal, ha, List.splitOn_append_cons_self]
    simp [normal, push_nil]
  | false => simp [join, isAbsolute, hf]

theorem hasFilename_join (h : Plain c) : hasFilename (join p c) = true := by
  have hs : slash :: c = [slash] ++ c := rfl
  simp only [join, h.not_absolute, Bool.false_eq_true, if_false]
  split
  · rw [hs, ← List.append_assoc]; exact h.hasFilename _
  · exact h.hasFilename _

/-- A plain name behind a path that ends in a name. -/
theorem join_plain (h : Plain c) (hp : hasFilename p = true) : join p c = p ++ slash :: c := by
  simp [join, h.not_absolute, hp]

/-- What stands before the first `x` and what stands behind it. -/
theorem append_cons_inj {x : UInt8} {a a' b b' : Name} (h : x ∉ a) (h' : x ∉ a') :
    a ++ x :: b = a' ++ x :: b' ↔ a = a' ∧ b = b' := by
  constructor
  · intro he
    rcases List.append_eq_append_iff.1 he with ⟨us, rfl, hu⟩ | ⟨us, rfl, hu⟩
    · cases us with
      | nil => simpa using hu
      | cons u us => exact absurd (by rw [(List.cons.inj hu).1]; simp) h'
    · cases us with
      | nil => simpa [eq_comm] using hu
      | cons u us => exact absurd (by rw [(List.cons.inj hu).1]; simp) h
  · rintro ⟨rfl, rfl⟩
    rfl

/-- Directories that are plain names or empty, under a plain directory, keep a
plain file beneath it. -/
theorem beneath_join {dir f : Name} {subs : List Name} (hd : Plain dir) (hs : ∀ s ∈ subs, s = [] ∨ Plain s)
    (hf : Plain f) : Beneath dir (join (subs.foldl join dir) f) := by
  have hsubs : ∀ subs : List Name, (∀ s ∈ subs, s = [] ∨ Plain s) → ∀ p, isAbsolute p = false →
      (normal p).names.head? = some dir →
      isAbsolute (subs.foldl join p) = false ∧ (normal (subs.foldl join p)).names.head? = some dir := by
    intro subs
    induction subs with
    | nil => intro _ p hp hh; exact ⟨hp, hh⟩
    | cons s subs ih =>
      intro hs p hp hh
      have habs : isAbsolute (join p s) = isAbsolute p ∧ (normal (join p s)).names.head? = some dir := by
        rcases hs s (by simp) with rfl | hp'
        · exact ⟨congrArg Normal.absolute normal_join_nil, by rw [normal_join_nil, hh]⟩
        · refine ⟨congrArg Normal.absolute (normal_join hp'), ?_⟩
          rw [normal_join hp']
          cases hn : (normal p).names with
          | nil => simp [hn] at hh
          | cons x xs => simpa [hn] using hh
      exact ih (fun t ht => hs t (by simp [ht])) _ (habs.1.trans hp) habs.2
  have hdir : (normal dir).names = [dir] := by
    simp [normal, List.splitOn_eq_singleton hd.no_slash, hd.push]
  obtain ⟨ha, hh⟩ := hsubs subs hs dir hd.not_absolute (by simp [hdir])
  have hn := normal_join (p := subs.foldl join dir) hf
  obtain ⟨x, xs, hx⟩ : ∃ x xs, (normal (subs.foldl join dir)).names = x :: xs := by
    cases hl : (normal (subs.foldl join dir)).names with
    | nil => simp [hl] at hh
    | cons x xs => exact ⟨x, xs, rfl⟩
  refine ⟨?_, ?_, ?_, hasFilename_join hf⟩
  · rw [hn]; exact ha
  · rw [hn, hx]; simpa [hx] using hh
  · rw [hn, hx]; simp

end Lib.Path
