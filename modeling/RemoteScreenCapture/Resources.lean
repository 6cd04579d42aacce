import RemoteScreenCapture.Common
import RemoteScreenCapture.Lib.Ownership
import RemoteScreenCapture.Lib.Run
/-!
# Objects that own resources

Any number of `UniqueResource` objects of one kind, constructed, moved, reset
and destroyed in any order. Each operation is some changes of hands of
`Lib.Owners`, so a resource is released once, by its own deleter.
-/
open Lib

namespace RemoteScreenCapture

/-- The objects whose lifetime has begun and not ended, and what has happened
to resources. -/
structure Objects (T D : Type) (invalidValue : T) where
  live : Nat → Option (UniqueResource T D invalidValue)
  uses : List (Use T D)

namespace Objects

variable {T D : Type} {invalidValue : T}

inductive Op (T D : Type) where
  | construct (i : Nat) (resource : T) (deleter : D)
  | constructDefault (i : Nat)
  /-- The object `i` is constructed from `j`. -/
  | moveConstruct (i j : Nat)
  /-- `j` is assigned to `i`. -/
  | moveAssign (i j : Nat)
  | reset (i : Nat)
  | destroy (i : Nat)

def start : Objects T D invalidValue := ⟨fun _ => none, []⟩

def put (w : Objects T D invalidValue) (i : Nat) (u : Option (UniqueResource T D invalidValue)) :
    Objects T D invalidValue :=
  { w with live := Function.update w.live i u }

/-- Deleters have been called. -/
def called (w : Objects T D invalidValue) (calls : List (D × T)) : Objects T D invalidValue :=
  { w with uses := w.uses ++ calls.map fun call => .release call.1 call.2 }

variable [DecidableEq T]

/-- One operation. An object is constructed where there is none. A resource
that a constructor gets is not one that was acquired and not released. -/
def step [Inhabited D] (op : Op T D) (w : Objects T D invalidValue) : Option (Objects T D invalidValue) :=
  match op with
  | .construct i resource deleter =>
    if (w.live i).isSome then none
    else if resource = invalidValue then some (w.put i (some (.construct resource deleter)))
    else if (Use.holder resource w.uses).isSome then none
    else some { w.put i (some (.construct resource deleter)) with uses := w.uses ++ [.acquire resource deleter] }
  | .constructDefault i => if (w.live i).isSome then none else some (w.put i (some .constructDefault))
  | .moveConstruct i j =>
    match w.live i, w.live j with
    | none, some other => some ((w.put i (some other.moveConstruct.1)).put j (some other.moveConstruct.2))
    | _, _ => none
  | .moveAssign i j =>
    match w.live i, w.live j with
    | some u, some other =>
      if i = j then some w
      else
        let (assigned, left, calls) := u.moveAssign other
        some (((w.put i (some assigned)).put j (some left)).called calls)
    | _, _ => none
  | .reset i =>
    match w.live i with
    | some u => some ((w.put i (some u.reset.1)).called u.reset.2)
    | none => none
  | .destroy i =>
    match w.live i with
    | some u => some ((w.put i none).called u.destroy)
    | none => none

/-! ## Who owns what -/

/-- What an object owns. -/
def owned? (u : UniqueResource T D invalidValue) : Option (T × D) :=
  if u.valid then some (u.resource, u.deleter) else none

def owners (w : Objects T D invalidValue) : Owners Nat T D := ⟨fun i => (w.live i).bind owned?, w.uses⟩

/-! ## Operations are changes of hands -/

abbrev Hands (w w' : Objects T D invalidValue) : Prop :=
  Relation.ReflTransGen (Owners.Step (· ≠ invalidValue)) w.owners w'.owners

section Hands
variable {w w' : Objects T D invalidValue} {u other : UniqueResource T D invalidValue} {i j : Nat}

theorem owners_put (i : Nat) (o : Option (UniqueResource T D invalidValue)) :
    (w.put i o).owners = ⟨Function.update w.owners.owned i (o.bind owned?), w.owners.uses⟩ := by
  unfold owners put
  congr 1
  funext j
  by_cases hj : j = i
  · subst hj
    simp
  · simp [hj]

theorem owned?_of_valid (h : u.resource ≠ invalidValue) : owned? u = some (u.resource, u.deleter) := by
  simp [owned?, UniqueResource.valid, h]

theorem owned?_of_invalid (h : u.resource = invalidValue) : owned? u = none := by
  simp [owned?, UniqueResource.valid, h]

theorem owned_eq_some {r : T} {d : D} :
    w.owners.owned i = some (r, d) ↔ w.live i = some ⟨r, d⟩ ∧ r ≠ invalidValue := by
  constructor
  · intro h
    obtain ⟨u, hu, ho⟩ := Option.bind_eq_some_iff.1 h
    by_cases hv : u.resource = invalidValue
    · rw [owned?_of_invalid hv] at ho
      cases ho
    · rw [owned?_of_valid hv] at ho
      cases ho
      exact ⟨hu, hv⟩
  · rintro ⟨hu, hv⟩
    simp [owners, hu, owned?_of_valid (u := ⟨r, d⟩) hv]

/-- Nothing changes hands if `i` owned nothing and owns nothing. -/
theorem hands_idle {o : Option (UniqueResource T D invalidValue)} (hi : w.owners.owned i = none)
    (ho : o.bind owned? = none) : w.Hands (w.put i o) := by
  rw [Hands, owners_put, ho, ← hi, Function.update_eq_self]

/-- `Reset()` of an object that is left in place of `u`, or is gone. -/
theorem hands_reset {o : Option (UniqueResource T D invalidValue)} (hi : w.live i = some u) (ho : o.bind owned? = none) :
    w.Hands ((w.put i o).called u.reset.2) := by
  by_cases hv : u.resource = invalidValue
  · have hcalls : u.reset.2 = [] := by simp [UniqueResource.reset, UniqueResource.valid, hv]
    have hnone : w.owners.owned i = none := by simp [owners, hi, owned?_of_invalid hv]
    rw [hcalls]
    have hidle := hands_idle hnone ho
    simpa [Hands, called, owners] using hidle
  · have hcalls : u.reset.2 = [(u.deleter, u.resource)] := by simp [UniqueResource.reset, UniqueResource.valid, hv]
    have hsome : w.owners.owned i = some (u.resource, u.deleter) := by simp [owners, hi, owned?_of_valid hv]
    apply Relation.ReflTransGen.single
    have hput := owners_put (w := w) i o
    rw [ho] at hput
    have hstep : Owners.Step (· ≠ invalidValue) w.owners _ := .release hsome
    rw [hcalls]
    convert hstep using 1
    have hown := congrArg Owners.owned hput
    simp only [owners, called, put] at hown ⊢
    simp [hown]

/-- What `j` owns passes to `i`, which owned nothing. -/
theorem hands_move {d : D} (hi : w.owners.owned i = none) (hj : w.live j = some other) (hij : i ≠ j) :
    w.Hands ((w.put i (some ⟨other.resource, other.deleter⟩)).put j (some ⟨invalidValue, d⟩)) := by
  have hleft : (some (⟨invalidValue, d⟩ : UniqueResource T D invalidValue)).bind owned? = none :=
    owned?_of_invalid rfl
  by_cases hv : other.resource = invalidValue
  · have hjnone : w.owners.owned j = none := by simp [owners, hj, owned?_of_invalid hv]
    have hfirst : w.Hands (w.put i (some ⟨other.resource, other.deleter⟩)) := hands_idle hi (owned?_of_invalid hv)
    refine hfirst.trans (hands_idle ?_ hleft)
    rw [owners_put]
    simp [Ne.symm hij, hjnone]
  · have hjsome : w.owners.owned j = some (other.resource, other.deleter) := by
      simp [owners, hj, owned?_of_valid hv]
    have htaken : (some (⟨other.resource, other.deleter⟩ : UniqueResource T D invalidValue)).bind owned? =
        some (other.resource, other.deleter) := owned?_of_valid hv
    apply Relation.ReflTransGen.single
    rw [owners_put, owners_put, hleft, htaken]
    dsimp only
    rw [Function.update_comm hij]
    exact Owners.Step.move hjsome hi

/-- An object takes a resource that nobody has. -/
theorem hands_acquire {r : T} {d : D} (hi : w.owners.owned i = none) (hr : r ≠ invalidValue)
    (hheld : Use.holder r w.uses = none) :
    w.Hands { w.put i (some (.construct r d)) with uses := w.uses ++ [.acquire r d] } := by
  have hacquire : Owners.Step (· ≠ invalidValue) w.owners _ := .acquire (d := d) hi hr hheld
  have hown := congrArg Owners.owned (owners_put (w := w) i (some (.construct r d)))
  have howned : owned? (.construct r d : UniqueResource T D invalidValue) = some (r, d) := owned?_of_valid hr
  simp only [Option.bind_some, howned] at hown
  apply Relation.ReflTransGen.single
  convert hacquire using 1
  simp only [owners, put] at hown ⊢
  simp [hown]

/-- First `i` is reset, then it takes what `j` has. -/
theorem hands_moveAssign [Inhabited D] (hi : w.live i = some u) (hj : w.live j = some other) (hij : i ≠ j) :
    w.Hands (((w.put i (some (u.moveAssign other).1)).put j (some (u.moveAssign other).2.1)).called
      (u.moveAssign other).2.2) := by
  let w₁ := (w.put i (some u.reset.1)).called u.reset.2
  have hreset : w.Hands w₁ := hands_reset hi (owned?_of_invalid rfl)
  have hi₁ : w₁.owners.owned i = none := by
    simp [w₁, owners, called, put, owned?, UniqueResource.reset, UniqueResource.valid]
  have hj₁ : w₁.live j = some other := by simp [w₁, called, put, Ne.symm hij, hj]
  have hmove : w₁.Hands _ := hands_move (d := default) hi₁ hj₁ hij
  have hsame : (w₁.put i (some ⟨other.resource, other.deleter⟩)).put j (some ⟨invalidValue, default⟩) =
      ((w.put i (some (u.moveAssign other).1)).put j (some (u.moveAssign other).2.1)).called
        (u.moveAssign other).2.2 := by
    simp [w₁, put, called, UniqueResource.moveAssign, UniqueResource.reset]
  rw [hsame] at hmove
  exact hreset.trans hmove

/-- Each operation is some changes of hands. -/
theorem step_hands [Inhabited D] {op : Op T D} (h : step op w = some w') : w.Hands w' := by
  have hfresh : ∀ {i}, ¬(w.live i).isSome = true → w.owners.owned i = none := by
    intro i hi
    simp only [Option.not_isSome_iff_eq_none] at hi
    simp [owners, hi]
  unfold step at h
  cases op with
  | construct i r d =>
    dsimp only at h
    split at h
    · cases h
    rename_i hi
    split at h
    · rename_i hr
      cases h
      exact hands_idle (hfresh hi) (owned?_of_invalid hr)
    rename_i hr
    split at h
    · cases h
    rename_i hheld
    cases h
    exact hands_acquire (hfresh hi) hr (Option.not_isSome_iff_eq_none.1 hheld)
  | constructDefault i =>
    dsimp only at h
    split at h
    · cases h
    rename_i hi
    cases h
    exact hands_idle (hfresh hi) (owned?_of_invalid rfl)
  | moveConstruct i j =>
    dsimp only at h
    split at h
    · rename_i other hi hj
      cases h
      have hij : i ≠ j := by
        rintro rfl
        rw [hi] at hj
        cases hj
      exact hands_move (by simp [owners, hi]) hj hij
    · cases h
  | moveAssign i j =>
    dsimp only at h
    split at h
    · rename_i u other hi hj
      split at h
      · cases h
        exact .refl
      rename_i hij
      cases h
      exact hands_moveAssign hi hj hij
    · cases h
  | reset i =>
    dsimp only at h
    split at h
    · rename_i u hi
      cases h
      exact hands_reset hi (owned?_of_invalid rfl)
    · cases h
  | destroy i =>
    dsimp only at h
    split at h
    · rename_i u hi
      cases h
      exact hands_reset hi rfl
    · cases h

end Hands

/-- Objects on which the operations of a program are done, one after the other. -/
def objects [Inhabited D] : System (Objects T D invalidValue) (Op T D) := .ofStep step

theorem run_inv [Inhabited D] {ops : List (Op T D)} {w : Objects T D invalidValue} (h : objects.Goes start ops w) :
    w.owners.Inv (· ≠ invalidValue) :=
  h.inv (fun _ w => w.owners.Inv (· ≠ invalidValue)) Owners.inv_start fun _ _ _ _ _ hw hs =>
    hw.steps (step_hands hs)

/-- At any time, a resource that was acquired has one owner, which has its
deleter, or it was passed to this deleter, once. Nothing else is passed to a
deleter. When all objects are gone, everything acquired has been released. -/
theorem released_exactly_once [Inhabited D] (ops : List (Op T D)) (w : Objects T D invalidValue)
    (h : objects.Goes start ops w) :
    (∀ pre r d post, w.uses = pre ++ .acquire r d :: post →
      (Use.releasesOf r post = [] ∧
        ∃ i, w.live i = some ⟨r, d⟩ ∧ ∀ j u, w.live j = some u → u.resource = r → j = i) ∨
      (Use.releasesOf r post = [.release d r] ∧
        ((∀ d', .acquire r d' ∉ post) → ∀ j u, w.live j = some u → u.resource ≠ r))) ∧
    (∀ pre d r post, w.uses = pre ++ .release d r :: post → r ≠ invalidValue ∧ Use.holder r pre = some d) ∧
    ((∀ i, w.live i = none) → ∀ pre r d post, w.uses = pre ++ .acquire r d :: post →
      Use.releasesOf r post = [.release d r]) := by
  have hinv := run_inv h
  have hall : ∀ pre r d post, w.uses = pre ++ .acquire r d :: post →
      (Use.releasesOf r post = [] ∧
        ∃ i, w.live i = some ⟨r, d⟩ ∧ ∀ j u, w.live j = some u → u.resource = r → j = i) ∨
      (Use.releasesOf r post = [.release d r] ∧
        ((∀ d', .acquire r d' ∉ post) → ∀ j u, w.live j = some u → u.resource ≠ r)) := by
    intro pre r d post hu
    have hvalid : r ≠ invalidValue := hinv.valid (.acquire r d) (by rw [show w.owners.uses = _ from hu]; simp)
    have howns : ∀ {j u}, w.live j = some u → u.resource = r → w.owners.owned j = some (r, u.deleter) := by
      rintro j u hj rfl
      exact owned_eq_some.2 ⟨hj, hvalid⟩
    rcases hinv.released_once hu with ⟨hnone, i, hi, hone⟩ | ⟨hone, hfree⟩
    · exact .inl ⟨hnone, i, (owned_eq_some.1 hi).1, fun j u hj hr => hone j _ (howns hj hr)⟩
    · exact .inr ⟨hone, fun hlast j u hj hr => hfree hlast j _ (howns hj hr)⟩
  refine ⟨hall, ?_, ?_⟩
  · intro pre d r post hu
    exact ⟨hinv.valid (.release d r) (by rw [show w.owners.uses = _ from hu]; simp), hinv.orderly pre _ post hu⟩
  · intro hgone pre r d post hu
    rcases hall pre r d post hu with ⟨-, i, hi, -⟩ | ⟨hone, -⟩
    · rw [hgone i] at hi
      cases hi
    · exact hone

/-- Two descriptors that change hands, the first of which is given out again. -/
def sampleOps : List (Op Int FdDeleter) :=
  [.construct 0 5 .close, .constructDefault 1, .moveAssign 1 0, .moveAssign 1 1, .construct 2 7 .close,
    .moveConstruct 3 2, .moveAssign 1 3, .construct 4 5 .close, .reset 4, .reset 4, .destroy 0, .destroy 1,
    .destroy 2, .destroy 3, .destroy 4]

theorem released_exactly_once_descriptors :
    ∃ w : Objects Int FdDeleter (-1), objects.Goes start sampleOps w ∧
      w.uses = [.acquire 5 .close, .acquire 7 .close, .release .close 5, .acquire 5 .close, .release .close 5,
        .release .close 7] ∧
      ∀ pre r d post, w.uses = pre ++ .acquire r d :: post → Use.releasesOf r post = [.release d r] := by
  obtain ⟨w, hw⟩ : ∃ w : Objects Int FdDeleter (-1), System.exec step start sampleOps = some w := ⟨_, rfl⟩
  have hgoes : objects.Goes start sampleOps w := System.exec_goes hw
  have hgone : ∀ i, w.live i = none := by
    cases hw
    intro i
    match i with
    | 0 | 1 | 2 | 3 | 4 => rfl
    | i + 5 => rfl
  refine ⟨w, hgoes, ?_, (released_exactly_once sampleOps w hgoes).2.2 hgone⟩
  cases hw
  rfl

end Objects

end RemoteScreenCapture
