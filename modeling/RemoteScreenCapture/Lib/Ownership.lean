import Mathlib.Logic.Function.Basic
import Mathlib.Logic.Relation
import Mathlib.Data.List.Induction
/-!
# Owners

Owners hold resources, at most one each, with the deleter that is to release
it. A resource is acquired by an owner, moves from one owner to another and is
released by the one that has it. Then each acquisition has one owner until it
is released, and is released once (`Inv.released_once`). A resource may be
acquired again after its release.
-/

namespace Lib

/-- What happens to a resource. -/
inductive Use (T D : Type) where
  | acquire (r : T) (d : D)
  | release (d : D) (r : T)
  deriving DecidableEq, Repr

namespace Use

variable {T D : Type}

def resource : Use T D → T
  | .acquire r _ => r
  | .release _ r => r

/-- The deleter that the resource waits for behind this use. -/
def deleter? : Use T D → Option D
  | .acquire _ d => some d
  | .release _ _ => none

def isRelease : Use T D → Bool
  | .acquire _ _ => false
  | .release _ _ => true

@[simp] theorem resource_acquire (r : T) (d : D) : (acquire r d).resource = r := rfl

@[simp] theorem resource_release (r : T) (d : D) : (release d r).resource = r := rfl

@[simp] theorem deleter?_acquire (r : T) (d : D) : (acquire r d).deleter? = some d := rfl

@[simp] theorem deleter?_release (r : T) (d : D) : (release d r).deleter? = none := rfl

@[simp] theorem isRelease_acquire (r : T) (d : D) : (acquire r d).isRelease = false := rfl

@[simp] theorem isRelease_release (r : T) (d : D) : (release d r).isRelease = true := rfl

variable [DecidableEq T]

/-- The deleter that `r` waits for after some uses, if it has been acquired and not released. -/
def holder (r : T) (uses : List (Use T D)) : Option D :=
  uses.foldl (fun h u => if u.resource = r then u.deleter? else h) none

theorem holder_snoc (r : T) (uses : List (Use T D)) (u : Use T D) :
    holder r (uses ++ [u]) = if u.resource = r then u.deleter? else holder r uses := by
  simp [holder]

theorem holder_other {r : T} {uses us : List (Use T D)} (h : ∀ u ∈ us, u.resource ≠ r) :
    holder r (uses ++ us) = holder r uses := by
  induction us using List.reverseRecOn with
  | nil => rw [List.append_nil]
  | append_singleton us u ih =>
    rw [← List.append_assoc, holder_snoc, if_neg (h u (by simp)), ih fun v hv => h v (by simp [hv])]

/-- What is held has been acquired. -/
theorem acquire_mem {r : T} {d : D} {uses : List (Use T D)} (h : holder r uses = some d) : .acquire r d ∈ uses := by
  induction uses using List.reverseRecOn with
  | nil => cases h
  | append_singleton uses u ih =>
    rw [holder_snoc] at h
    split at h
    · rename_i hr
      cases u with
      | acquire r' d' =>
        obtain rfl : d' = d := Option.some.inj h
        obtain rfl : r' = r := hr
        simp
      | release => cases h
    · exact List.mem_append_left _ (ih h)

/-- The uses of `r` until it is acquired again. -/
def releasesOf (r : T) (uses : List (Use T D)) : List (Use T D) :=
  (uses.filter fun u => u.resource = r).takeWhile isRelease

section Releases
variable {r : T} {d : D} {a b : List (Use T D)}

theorem filter_other (ha : ∀ u ∈ a, u.resource ≠ r) : (a.filter fun u => u.resource = r) = [] := by
  rw [List.filter_eq_nil_iff]
  simpa using ha

theorem releasesOf_nil (ha : ∀ u ∈ a, u.resource ≠ r) : releasesOf r a = [] := by
  rw [releasesOf, filter_other ha, List.takeWhile_nil]

theorem releasesOf_release (ha : ∀ u ∈ a, u.resource ≠ r) :
    releasesOf r (a ++ .release d r :: b) = .release d r :: releasesOf r b := by
  simp [releasesOf, filter_other ha, List.takeWhile_cons]

theorem releasesOf_acquire (ha : ∀ u ∈ a, u.resource ≠ r) : releasesOf r (a ++ .acquire r d :: b) = [] := by
  simp [releasesOf, filter_other ha]

end Releases

/-- The use may come behind those before it. -/
def Follows (before : List (Use T D)) : Use T D → Prop
  | .acquire r _ => holder r before = none
  | .release d r => holder r before = some d

/-- Each use may come where it does. -/
def Orderly (uses : List (Use T D)) : Prop := ∀ pre u post, uses = pre ++ u :: post → u.Follows pre

theorem orderly_nil : Orderly ([] : List (Use T D)) := by
  intro pre u post h
  simp at h

theorem Orderly.snoc {uses : List (Use T D)} {u : Use T D} (h : Orderly uses) (hu : u.Follows uses) :
    Orderly (uses ++ [u]) := by
  intro pre v post he
  rcases List.eq_nil_or_concat post with rfl | ⟨post, w, rfl⟩
  · obtain ⟨rfl, hv⟩ := List.append_inj' he rfl
    cases hv
    exact hu
  · rw [List.concat_eq_append, ← List.cons_append, ← List.append_assoc] at he
    exact h pre v post (List.append_inj' he rfl).1

/-- The next use of `r`: its release if it is held, and else its next acquisition. -/
theorem Orderly.next {before us : List (Use T D)} (h : Orderly (before ++ us)) (r : T) :
    ((∀ u ∈ us, u.resource ≠ r) ∧ holder r (before ++ us) = holder r before) ∨
    ∃ a u b, us = a ++ u :: b ∧ (∀ v ∈ a, v.resource ≠ r) ∧
      ((∃ d, holder r before = some d ∧ u = .release d r) ∨ ∃ d, holder r before = none ∧ u = .acquire r d) := by
  cases hf : us.filter fun u => u.resource = r with
  | nil =>
    have hother : ∀ u ∈ us, u.resource ≠ r := by simpa using List.filter_eq_nil_iff.1 hf
    exact .inl ⟨hother, holder_other hother⟩
  | cons u vs =>
    obtain ⟨a, b, rfl, ha, hr, -⟩ := List.filter_eq_cons_iff.1 hf
    have ha : ∀ v ∈ a, v.resource ≠ r := by simpa using ha
    have hr : u.resource = r := by simpa using hr
    have hfollows := h (before ++ a) u b (by simp)
    refine .inr ⟨a, u, b, rfl, ha, ?_⟩
    cases u with
    | acquire r' d =>
      rw [resource] at hr
      subst hr
      rw [Follows, holder_other ha] at hfollows
      exact .inr ⟨d, hfollows, rfl⟩
    | release d r' =>
      rw [resource] at hr
      subst hr
      rw [Follows, holder_other ha] at hfollows
      exact .inl ⟨d, hfollows, rfl⟩

/-- An acquisition is released at most once before the next one, by its own deleter. -/
theorem Orderly.released {uses pre post : List (Use T D)} {r : T} {d : D} (h : Orderly uses)
    (hu : uses = pre ++ .acquire r d :: post) :
    (releasesOf r post = [] ∧ holder r uses = some d) ∨
    (releasesOf r post = [.release d r] ∧ ((∀ d', .acquire r d' ∉ post) → holder r uses = none)) := by
  have hu : uses = (pre ++ [.acquire r d]) ++ post := by simp [hu]
  subst hu
  have hheld : holder r (pre ++ [.acquire r d]) = some d := by simp [holder_snoc]
  rcases h.next r with ⟨hother, hsame⟩ | ⟨a, u, b, rfl, ha, ⟨d', hd, rfl⟩ | ⟨d', hd, rfl⟩⟩
  · exact .inl ⟨releasesOf_nil hother, hsame.trans hheld⟩
  · -- Behind its release, the resource is free.
    obtain rfl : d = d' := Option.some.inj (hheld.symm.trans hd)
    have hfree : holder r (pre ++ [.acquire r d] ++ a ++ [.release d r]) = none := by
      rw [holder_snoc, resource, if_pos rfl, deleter?]
    rw [releasesOf_release ha]
    have he : pre ++ [.acquire r d] ++ (a ++ .release d r :: b) = (pre ++ [.acquire r d] ++ a ++ [.release d r]) ++ b := by
      simp
    rw [he] at h ⊢
    right
    rcases h.next r with ⟨hother, hsame⟩ | ⟨a', u, b', rfl, ha', ⟨d', hd', -⟩ | ⟨d', -, rfl⟩⟩
    · exact ⟨by rw [releasesOf_nil hother], fun _ => hsame.trans hfree⟩
    · rw [hfree] at hd'
      cases hd'
    · refine ⟨by rw [releasesOf_acquire ha'], fun hnone => absurd ?_ (hnone d')⟩
      simp
  · rw [hheld] at hd
    cases hd

end Use

/-- Who has which resource, with which deleter, and what has happened to resources so far. -/
structure Owners (O T D : Type) where
  owned : O → Option (T × D)
  uses : List (Use T D)

namespace Owners

variable {O T D : Type} [DecidableEq O] [DecidableEq T]

/-- Nobody has anything. -/
def start : Owners O T D := ⟨fun _ => none, []⟩

/-- One change of hands. A resource that is acquired is `valid`, and nobody has it. -/
inductive Step (valid : T → Prop) (s : Owners O T D) : Owners O T D → Prop
  | acquire {i : O} {r : T} {d : D} : s.owned i = none → valid r → Use.holder r s.uses = none →
      Step valid s ⟨Function.update s.owned i (some (r, d)), s.uses ++ [.acquire r d]⟩
  | release {i : O} {r : T} {d : D} : s.owned i = some (r, d) →
      Step valid s ⟨Function.update s.owned i none, s.uses ++ [.release d r]⟩
  | move {i j : O} {x : T × D} : s.owned i = some x → s.owned j = none →
      Step valid s ⟨Function.update (Function.update s.owned i none) j (some x), s.uses⟩

/-- The invariant: what is held has one owner, which has the deleter for it. -/
structure Inv (valid : T → Prop) (s : Owners O T D) : Prop where
  owner : ∀ r d, Use.holder r s.uses = some d → ∃ i, s.owned i = some (r, d)
  held : ∀ i r d, s.owned i = some (r, d) → Use.holder r s.uses = some d
  unique : ∀ i j r d d', s.owned i = some (r, d) → s.owned j = some (r, d') → i = j
  orderly : Use.Orderly s.uses
  valid : ∀ u ∈ s.uses, valid u.resource

variable {valid : T → Prop} {s s' : Owners O T D}

omit [DecidableEq O] in
theorem inv_start : (start : Owners O T D).Inv valid where
  owner := by simp [start, Use.holder]
  held := by simp [start]
  unique := by simp [start]
  orderly := Use.orderly_nil
  valid := by simp [start]

omit [DecidableEq T] in
theorem update_eq_some {f : O → Option (T × D)} {i j : O} {x : Option (T × D)} {y : T × D} :
    Function.update f i x j = some y ↔ (j = i ∧ x = some y) ∨ (j ≠ i ∧ f j = some y) := by
  by_cases h : j = i
  · subst h
    simp
  · simp [h]

theorem Inv.acquire {i : O} {r : T} {d : D} (h : s.Inv valid) (hi : s.owned i = none) (hr : valid r)
    (hfree : Use.holder r s.uses = none) :
    Inv valid ⟨Function.update s.owned i (some (r, d)), s.uses ++ [.acquire r d]⟩ := by
  -- Nobody had `r` before.
  have hnobody : ∀ j d', s.owned j ≠ some (r, d') := by
    intro j d' hj
    rw [h.held j r d' hj] at hfree
    cases hfree
  constructor
  · intro r' d' hheld
    rw [Use.holder_snoc] at hheld
    split at hheld
    · rename_i hrr
      obtain rfl : r = r' := hrr
      obtain rfl : d = d' := Option.some.inj hheld
      exact ⟨i, Function.update_self ..⟩
    · obtain ⟨j, hj⟩ := h.owner r' d' hheld
      have hji : j ≠ i := by
        rintro rfl
        rw [hi] at hj
        cases hj
      exact ⟨j, update_eq_some.2 (.inr ⟨hji, hj⟩)⟩
  · intro j r' d' hj
    rw [Use.holder_snoc]
    rcases update_eq_some.1 hj with ⟨-, he⟩ | ⟨-, hj⟩
    · cases he
      simp
    · rw [if_neg ?_, h.held j r' d' hj]
      rintro rfl
      exact hnobody j d' hj
  · intro j k r' d' d'' hj hk
    rcases update_eq_some.1 hj with ⟨rfl, he⟩ | ⟨-, hj⟩
    · cases he
      rcases update_eq_some.1 hk with ⟨rfl, -⟩ | ⟨-, hk⟩
      · rfl
      · exact absurd hk (hnobody k d'')
    · rcases update_eq_some.1 hk with ⟨-, he⟩ | ⟨-, hk⟩
      · cases he
        exact absurd hj (hnobody j d')
      · exact h.unique j k r' d' d'' hj hk
  · exact h.orderly.snoc hfree
  · intro u hu
    rcases List.mem_append.1 hu with hu | hu
    · exact h.valid u hu
    · rw [List.mem_singleton.1 hu]
      exact hr

theorem Inv.release {i : O} {r : T} {d : D} (h : s.Inv valid) (hi : s.owned i = some (r, d)) :
    Inv valid ⟨Function.update s.owned i none, s.uses ++ [.release d r]⟩ := by
  have hheld := h.held i r d hi
  -- What somebody has then, somebody else had before.
  have helse : ∀ j r' d', Function.update s.owned i none j = some (r', d') → s.owned j = some (r', d') ∧ r' ≠ r := by
    intro j r' d' hj
    rcases update_eq_some.1 hj with ⟨-, he⟩ | ⟨hji, hj⟩
    · cases he
    · refine ⟨hj, ?_⟩
      rintro rfl
      exact hji (h.unique j i r' d' d hj hi)
  constructor
  · intro r' d' hheld'
    rw [Use.holder_snoc] at hheld'
    split at hheld'
    · cases hheld'
    · rename_i hrr
      obtain ⟨j, hj⟩ := h.owner r' d' hheld'
      refine ⟨j, update_eq_some.2 (.inr ⟨?_, hj⟩)⟩
      rintro rfl
      rw [hi] at hj
      cases hj
      exact hrr rfl
  · intro j r' d' hj
    obtain ⟨hj, hne⟩ := helse j r' d' hj
    rw [Use.holder_snoc, Use.resource_release, if_neg (Ne.symm hne), h.held j r' d' hj]
  · exact fun j k r' d' d'' hj hk => h.unique j k r' d' d'' (helse j r' d' hj).1 (helse k r' d'' hk).1
  · exact h.orderly.snoc hheld
  · intro u hu
    rcases List.mem_append.1 hu with hu | hu
    · exact h.valid u hu
    · rw [List.mem_singleton.1 hu]
      exact h.valid (.acquire r d) (Use.acquire_mem hheld)

theorem Inv.move {i j : O} {x : T × D} (h : s.Inv valid) (hi : s.owned i = some x) (hj : s.owned j = none) :
    Inv valid ⟨Function.update (Function.update s.owned i none) j (some x), s.uses⟩ := by
  -- The one who has `x` is another, and everything else is where it was.
  have hcases : ∀ k y, Function.update (Function.update s.owned i none) j (some x) k = some y ↔
      (k = j ∧ x = y) ∨ (k ≠ j ∧ k ≠ i ∧ s.owned k = some y) := by
    intro k y
    rw [update_eq_some, update_eq_some]
    simp
  constructor
  · intro r d hheld
    obtain ⟨k, hk⟩ := h.owner r d hheld
    by_cases hki : k = i
    · subst hki
      exact ⟨j, (hcases _ _).2 (.inl ⟨rfl, Option.some.inj (hi.symm.trans hk)⟩)⟩
    · refine ⟨k, (hcases _ _).2 (.inr ⟨?_, hki, hk⟩)⟩
      rintro rfl
      rw [hj] at hk
      cases hk
  · intro k r d hk
    rcases (hcases _ _).1 hk with ⟨-, rfl⟩ | ⟨-, -, hk⟩
    · exact h.held i r d hi
    · exact h.held k r d hk
  · intro k l r d d' hk hl
    rcases (hcases _ _).1 hk with ⟨rfl, hx⟩ | ⟨-, hki, hk'⟩
    · rcases (hcases _ _).1 hl with ⟨rfl, -⟩ | ⟨-, hli, hl'⟩
      · rfl
      · rw [hx] at hi
        exact absurd (h.unique l i r d' d hl' hi) hli
    · rcases (hcases _ _).1 hl with ⟨-, hx⟩ | ⟨-, -, hl'⟩
      · rw [hx] at hi
        exact absurd (h.unique k i r d d' hk' hi) hki
      · exact h.unique k l r d d' hk' hl'
  · exact h.orderly
  · exact h.valid

/-- Each change of hands keeps the invariant. -/
theorem Inv.step (h : s.Inv valid) (hs : Step valid s s') : s'.Inv valid := by
  cases hs with
  | acquire hi hr hfree => exact h.acquire hi hr hfree
  | release hi => exact h.release hi
  | move hi hj => exact h.move hi hj

theorem Inv.steps (h : s.Inv valid) (hs : Relation.ReflTransGen (Step valid) s s') : s'.Inv valid := by
  induction hs with
  | refl => exact h
  | tail _ hs ih => exact ih.step hs

omit [DecidableEq O] in
/-- Each acquisition has one owner until it is released, and is released once. -/
theorem Inv.released_once (h : s.Inv valid) {pre post : List (Use T D)} {r : T} {d : D}
    (hu : s.uses = pre ++ .acquire r d :: post) :
    (Use.releasesOf r post = [] ∧ ∃ i, s.owned i = some (r, d) ∧ ∀ j d', s.owned j = some (r, d') → j = i) ∨
    (Use.releasesOf r post = [.release d r] ∧
      ((∀ d', .acquire r d' ∉ post) → ∀ i d', s.owned i ≠ some (r, d'))) := by
  rcases h.orderly.released hu with ⟨hnone, hheld⟩ | ⟨hone, hfree⟩
  · obtain ⟨i, hi⟩ := h.owner r d hheld
    exact .inl ⟨hnone, i, hi, fun j d' hj => h.unique j i r d' d hj hi⟩
  · refine .inr ⟨hone, fun hlast i d' hi => ?_⟩
    have hheld := h.held i r d' hi
    rw [hfree hlast] at hheld
    cases hheld

end Owners

end Lib
