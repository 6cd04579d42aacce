import Mathlib.Tactic.Common
/-!
# Procedures

A procedure runs on a state and returns a value, throws, or never ends. The
state it had reached survives a throw, as the fields of a C++ object do. The
file also has the endless loop `while (true)`, run with a bound on its passes,
and the rules that say when the bound does not matter.
-/

namespace Lib

/-- How a call ends. -/
inductive Outcome (σ ε α : Type) where
  | returns (a : α) (s : σ)
  | throws (e : ε) (s : σ)
  | diverges
  deriving DecidableEq, Repr

/-- The call ends, in any way, in the state `t`. -/
def Outcome.Leaves {σ ε α : Type} : Outcome σ ε α → σ → Prop
  | .returns _ s, t => s = t
  | .throws _ s, t => s = t
  | .diverges, _ => False

/-- The outcome, with `f` applied to the state that is left. -/
def Outcome.mapState {σ ε α : Type} (f : σ → σ) : Outcome σ ε α → Outcome σ ε α
  | .returns a s => .returns a (f s)
  | .throws e s => .throws e (f s)
  | .diverges => .diverges

/-- A procedure on the state `σ` that may throw an `ε`. -/
def Proc (σ ε α : Type) : Type := σ → Outcome σ ε α

namespace Proc

variable {σ τ ε α β : Type}

protected def bind (p : Proc σ ε α) (f : α → Proc σ ε β) : Proc σ ε β := fun s =>
  match p s with
  | .returns a s' => f a s'
  | .throws e s' => .throws e s'
  | .diverges => .diverges

instance : Monad (Proc σ ε) where
  pure a := fun s => .returns a s
  bind := Proc.bind

instance : MonadStateOf σ (Proc σ ε) where
  get := fun s => .returns s s
  set s := fun _ => .returns () s
  modifyGet f := fun s => .returns (f s).1 (f s).2

instance : MonadExceptOf ε (Proc σ ε) where
  throw e := fun s => .throws e s
  tryCatch p handler := fun s =>
    match p s with
    | .throws e s' => handler e s'
    | r => r

instance : MonadLift (Except ε) (Proc σ ε) where
  monadLift x := fun s =>
    match x with
    | .ok a => .returns a s
    | .error e => .throws e s

@[simp] theorem pure_apply (a : α) (s : σ) : (pure a : Proc σ ε α) s = .returns a s := rfl

theorem bind_apply (p : Proc σ ε α) (f : α → Proc σ ε β) (s : σ) :
    (p >>= f) s = match p s with
      | .returns a s' => f a s'
      | .throws e s' => .throws e s'
      | .diverges => .diverges := rfl

theorem bind_returns {p : Proc σ ε α} {f : α → Proc σ ε β} {s s' : σ} {a : α} (h : p s = .returns a s') :
    (p >>= f) s = f a s' := by
  simp [bind_apply, h]

theorem bind_throws {p : Proc σ ε α} {f : α → Proc σ ε β} {s s' : σ} {e : ε} (h : p s = .throws e s') :
    (p >>= f) s = .throws e s' := by
  simp [bind_apply, h]

theorem bind_diverges {p : Proc σ ε α} {f : α → Proc σ ε β} {s : σ} (h : p s = .diverges) :
    (p >>= f) s = .diverges := by
  simp [bind_apply, h]

theorem bind_returns_inv {p : Proc σ ε α} {f : α → Proc σ ε β} {s t : σ} {b : β}
    (h : (p >>= f) s = .returns b t) : ∃ a s', p s = .returns a s' ∧ f a s' = .returns b t := by
  rw [bind_apply] at h
  cases hp : p s with
  | returns a s' => rw [hp] at h; exact ⟨a, s', rfl, h⟩
  | throws e s' => rw [hp] at h; cases h
  | diverges => rw [hp] at h; cases h

@[simp] theorem get_apply (s : σ) : (get : Proc σ ε σ) s = .returns s s := rfl

@[simp] theorem set_apply (s s' : σ) : (set s' : Proc σ ε PUnit) s = .returns ⟨⟩ s' := rfl

@[simp] theorem modify_apply (f : σ → σ) (s : σ) : (modify f : Proc σ ε PUnit) s = .returns ⟨⟩ (f s) := rfl

@[simp] theorem throw_apply (e : ε) (s : σ) : (throw e : Proc σ ε α) s = .throws e s := rfl

theorem tryCatch_apply (p : Proc σ ε α) (handler : ε → Proc σ ε α) (s : σ) :
    (tryCatch p handler) s = match p s with
      | .throws e s' => handler e s'
      | r => r := rfl

@[simp] theorem lift_ok (a : α) (s : σ) : (liftM (.ok a : Except ε α) : Proc σ ε α) s = .returns a s := rfl

@[simp] theorem lift_error (e : ε) (s : σ) : (liftM (.error e : Except ε α) : Proc σ ε α) s = .throws e s := rfl

@[simp] theorem ite_apply (c : Prop) [Decidable c] (p q : Proc σ ε α) (s : σ) :
    (if c then p else q) s = if c then p s else q s := by
  split <;> rfl

/-- A procedure on one part of a larger state. -/
def zoom (view : σ → τ) (put : τ → σ → σ) (p : Proc τ ε α) : Proc σ ε α := fun s =>
  match p (view s) with
  | .returns a t => .returns a (put t s)
  | .throws e t => .throws e (put t s)
  | .diverges => .diverges

theorem zoom_returns {view : σ → τ} {put : τ → σ → σ} {p : Proc τ ε α} {s : σ} {t : τ} {a : α}
    (h : p (view s) = .returns a t) : zoom view put p s = .returns a (put t s) := by
  simp [zoom, h]

theorem zoom_throws {view : σ → τ} {put : τ → σ → σ} {p : Proc τ ε α} {s : σ} {t : τ} {e : ε}
    (h : p (view s) = .throws e t) : zoom view put p s = .throws e (put t s) := by
  simp [zoom, h]

theorem zoom_diverges {view : σ → τ} {put : τ → σ → σ} {p : Proc τ ε α} {s : σ}
    (h : p (view s) = .diverges) : zoom view put p s = .diverges := by
  simp [zoom, h]

/-! ## Procedures that do not look at a part of the state -/

/-- On the state that `f` makes, `p` does what it does without, up to `f`. -/
def Commutes (f : σ → σ) (p : Proc σ ε α) : Prop := ∀ s, p (f s) = (p s).mapState f

variable {f : σ → σ}

theorem commutes_pure (a : α) : Commutes f (pure a : Proc σ ε α) := fun _ => rfl

theorem commutes_throw (e : ε) : Commutes f (throw e : Proc σ ε α) := fun _ => rfl

theorem commutes_bind {p : Proc σ ε α} {q : α → Proc σ ε β} (hp : Commutes f p) (hq : ∀ a, Commutes f (q a)) :
    Commutes f (p >>= q) := by
  intro s
  rw [bind_apply, bind_apply, hp s]
  cases p s with
  | returns a t => exact hq a t
  | throws e t => rfl
  | diverges => rfl

/-- What is done with the state read may not depend on what `f` changes. -/
theorem commutes_get {k : σ → Proc σ ε α} (h : ∀ s, k (f s) = k s) (hk : ∀ s, Commutes f (k s)) :
    Commutes f (get >>= k) := by
  intro s
  rw [bind_apply, bind_apply, get_apply, get_apply]
  dsimp only
  rw [h s]
  exact hk s s

theorem commutes_modify {g : σ → σ} (h : ∀ s, g (f s) = f (g s)) : Commutes f (modify g : Proc σ ε PUnit) := by
  intro s
  rw [modify_apply, modify_apply, h s]
  rfl

theorem commutes_ite {c : Prop} [Decidable c] {p q : Proc σ ε α} (hp : Commutes f p) (hq : Commutes f q) :
    Commutes f (if c then p else q) := by
  split
  · exact hp
  · exact hq

theorem commutes_tryCatch {p : Proc σ ε α} {handler : ε → Proc σ ε α} (hp : Commutes f p)
    (hh : ∀ e, Commutes f (handler e)) : Commutes f (tryCatch p handler) := by
  intro s
  rw [tryCatch_apply, tryCatch_apply, hp s]
  cases p s with
  | returns a t => rfl
  | throws e t => exact hh e t
  | diverges => rfl

/-- A procedure on one part of the state, where `f` changes another. -/
theorem commutes_zoom {view : σ → τ} {put : τ → σ → σ} (hv : ∀ s, view (f s) = view s)
    (hp : ∀ t s, put t (f s) = f (put t s)) (p : Proc τ ε α) : Commutes f (zoom view put p) := by
  intro s
  unfold zoom
  rw [hv s]
  cases p (view s) with
  | returns a t => exact congrArg (Outcome.returns a) (hp t s)
  | throws e t => exact congrArg (Outcome.throws e) (hp t s)
  | diverges => rfl

/-! ## Counting loops -/

/-- `for (int i{0}; i < n; ++i)` -/
def forUpTo (n : Nat) (body : Nat → Proc σ ε Unit) : Proc σ ε Unit := (List.range n).forM body

theorem forM_concat (l : List τ) (a : τ) (body : τ → Proc σ ε Unit) (s : σ) :
    (l ++ [a]).forM body s = (l.forM body >>= fun _ => body a) s := by
  induction l generalizing s with
  | nil =>
    show (body a >>= fun _ => pure ()) s = body a s
    rw [bind_apply]
    cases body a s <;> rfl
  | cons b l ih =>
    show (body b >>= fun _ => (l ++ [a]).forM body) s = ((body b >>= fun _ => l.forM body) >>= fun _ => body a) s
    rw [bind_apply, bind_apply, bind_apply]
    cases body b s with
    | returns u t => exact ih t
    | throws e t => rfl
    | diverges => rfl

section ForUpTo
variable {n : Nat} {body : Nat → Proc σ ε Unit} {states : Nat → σ}

/-- The last pass comes after all the others. -/
theorem forUpTo_succ (n : Nat) (body : Nat → Proc σ ε Unit) (s : σ) :
    forUpTo (n + 1) body s = (forUpTo n body >>= fun _ => body n) s := by
  unfold forUpTo
  rw [List.range_succ, forM_concat]

/-- A loop whose passes lead from each state of a sequence to the next. -/
theorem forUpTo_returns (h : ∀ i < n, body i (states i) = .returns () (states (i + 1))) :
    forUpTo n body (states 0) = .returns () (states n) := by
  induction n with
  | zero => rfl
  | succ n ih =>
    rw [forUpTo_succ, bind_returns (ih fun i hi => h i (by omega))]
    exact h n (Nat.lt_succ_self n)

/-- A loop that comes as far as the pass `m`, which throws. -/
theorem forUpTo_throws {m : Nat} {e : ε} {s : σ} (h : ∀ i < m, body i (states i) = .returns () (states (i + 1)))
    (hm : m < n) (ht : body m (states m) = .throws e s) : forUpTo n body (states 0) = .throws e s := by
  induction n with
  | zero => omega
  | succ n ih =>
    rw [forUpTo_succ]
    rcases Nat.lt_succ_iff_lt_or_eq.1 hm with hlt | rfl
    · exact bind_throws (ih hlt)
    · rw [bind_returns (forUpTo_returns h), ht]

end ForUpTo

/-! ## Endless loops -/

/-- `while (true)`: the body says whether to go round again. A loop that has
not ended after `n` passes counts as one that never ends. -/
def loop (body : Proc σ ε Bool) : Nat → Proc σ ε Unit
  | 0 => fun _ => .diverges
  | n + 1 => do
    if ← body then loop body n

variable {body : Proc σ ε Bool}

theorem loop_again {n : Nat} {s s' : σ} (h : body s = .returns true s') :
    loop body (n + 1) s = loop body n s' := by
  simp [loop, bind_apply, h]

theorem loop_return {n : Nat} {s s' : σ} (h : body s = .returns false s') :
    loop body (n + 1) s = .returns () s' := by
  simp [loop, bind_apply, h]

theorem loop_throw {n : Nat} {s s' : σ} {e : ε} (h : body s = .throws e s') :
    loop body (n + 1) s = .throws e s' := by
  simp [loop, bind_apply, h]

theorem loop_diverge {n : Nat} {s : σ} (h : body s = .diverges) : loop body (n + 1) s = .diverges := by
  simp [loop, bind_apply, h]

/-- A pass that changes nothing is repeated forever. -/
theorem loop_fixpoint {s : σ} (h : body s = .returns true s) (n : Nat) : loop body n s = .diverges := by
  induction n with
  | zero => rfl
  | succ n ih => rw [loop_again h, ih]

/-- Where every pass that goes round again lowers `m` or changes nothing, a
bound above `m` settles whether the loop ends. -/
theorem loop_diverges_iff (m : σ → Nat)
    (hm : ∀ s s', body s = .returns true s' → m s' < m s ∨ s' = s) {s : σ} {n : Nat} (hn : m s < n) :
    loop body n s = .diverges ↔ ∀ k, loop body k s = .diverges := by
  refine ⟨fun h => ?_, fun h => h n⟩
  induction n generalizing s with
  | zero => omega
  | succ n ih =>
    match hb : body s with
    | .returns true s' =>
      rcases hm s s' hb with hlt | rfl
      · rw [loop_again hb] at h
        intro k
        cases k with
        | zero => rfl
        | succ k => rw [loop_again hb]; exact ih (by omega) h k
      · exact loop_fixpoint hb
    | .returns false s' => rw [loop_return hb] at h; cases h
    | .throws e s' => rw [loop_throw hb] at h; cases h
    | .diverges =>
      intro k
      cases k with
      | zero => rfl
      | succ k => exact loop_diverge hb

end Proc

end Lib
