import RemoteScreenCapture.Lib.Proc
/-!
# Runs

A system takes inputs one after the other. With each it goes on in a next
state, or the run ends and leaves a last state. A `Goes` run has not ended; a
`Visits` run may have, with its last input. The rules carry an invariant along
a run and split a run where one looks at it.
-/

namespace Lib

/-- The steps after which a run goes on, and the steps that end it. -/
structure System (σ ι : Type) where
  next : ι → σ → σ → Prop
  last : ι → σ → σ → Prop

namespace System

variable {σ ι ε : Type} (m : System σ ι)

/-- The system of a procedure that says whether to go on. A throw ends a run,
and so does a call that never ends, which leaves no state. -/
def ofProc (step : ι → Proc σ ε Bool) : System σ ι where
  next i s t := step i s = .returns true t
  last i s t := step i s = .returns false t ∨ ∃ e, step i s = .throws e t

/-- The system of a partial step function, whose runs do not end. -/
def ofStep (step : ι → σ → Option σ) : System σ ι where
  next i s t := step i s = some t
  last _ _ _ := False

/-- From `s`, the run is in `t` after the inputs `is` and goes on. -/
inductive Goes (s : σ) : List ι → σ → Prop
  | nil : Goes s [] s
  | snoc {is : List ι} {i : ι} {t u : σ} : Goes s is t → m.next i t u → Goes s (is ++ [i]) u

/-- From `s`, the run is in `t` after the inputs `is`, whether or not it has ended. -/
inductive Visits (s : σ) : List ι → σ → Prop
  | goes {is : List ι} {t : σ} : m.Goes s is t → Visits s is t
  | ends {is : List ι} {i : ι} {t u : σ} : m.Goes s is t → m.last i t u → Visits s (is ++ [i]) u

variable {m} {s t u : σ} {is js : List ι}

/-- What each step keeps holds in every state of a run that goes on. -/
theorem Goes.inv (I : List ι → σ → Prop) (h0 : I [] s)
    (hs : ∀ is i t u, m.Goes s is t → I is t → m.next i t u → I (is ++ [i]) u) (h : m.Goes s is t) : I is t := by
  induction h with
  | nil => exact h0
  | snoc hg hn ih => exact hs _ _ _ _ hg ih hn

/-- What each step keeps, one that ends the run included, holds in every state visited. -/
theorem Visits.inv (I : σ → Prop) (h0 : I s) (hn : ∀ i t u, I t → m.next i t u → I u)
    (hl : ∀ i t u, I t → m.last i t u → I u) (h : m.Visits s is t) : I t := by
  have hg : ∀ {is t}, m.Goes s is t → I t := fun hg => hg.inv (fun _ => I) h0 fun _ i t u _ => hn i t u
  cases h with
  | goes h => exact hg h
  | ends h h' => exact hl _ _ _ (hg h) h'

theorem Goes.append (h : m.Goes s is t) (h' : m.Goes t js u) : m.Goes s (is ++ js) u := by
  induction h' with
  | nil => simpa using h
  | snoc _ hn ih => rw [← List.append_assoc]; exact ih.snoc hn

theorem Goes.visits (h : m.Goes s is t) (h' : m.Visits t js u) : m.Visits s (is ++ js) u := by
  cases h' with
  | goes hg => exact .goes (h.append hg)
  | ends hg hl => rw [← List.append_assoc]; exact .ends (h.append hg) hl

theorem Goes.nil_inv (h : m.Goes s [] t) : s = t := by
  generalize he : ([] : List ι) = is at h
  cases h with
  | nil => rfl
  | snoc => simp at he

theorem Goes.snoc_inv {i : ι} (h : m.Goes s (is ++ [i]) u) : ∃ t, m.Goes s is t ∧ m.next i t u := by
  generalize he : is ++ [i] = js at h
  cases h with
  | nil => simp at he
  | snoc hg hn =>
    obtain ⟨rfl, hi⟩ := List.append_inj' he rfl
    cases hi
    exact ⟨_, hg, hn⟩

/-- A run can be looked at after any of its inputs. -/
theorem Goes.split (h : m.Goes s (is ++ js) u) : ∃ t, m.Goes s is t ∧ m.Goes t js u := by
  generalize he : is ++ js = ks at h
  induction h generalizing js with
  | nil =>
    obtain ⟨rfl, rfl⟩ := List.append_eq_nil_iff.1 he
    exact ⟨s, .nil, .nil⟩
  | @snoc ks i t u hg hn ih =>
    rcases List.eq_nil_or_concat js with rfl | ⟨js, j, rfl⟩
    · rw [List.append_nil] at he
      exact ⟨u, he ▸ hg.snoc hn, .nil⟩
    · rw [List.concat_eq_append, ← List.append_assoc] at he
      obtain ⟨hks, hj⟩ := List.append_inj' he rfl
      cases hj
      obtain ⟨t', h1, h2⟩ := ih hks
      exact ⟨t', h1, by rw [List.concat_eq_append]; exact h2.snoc hn⟩

/-- A run looked at after its first input. -/
theorem Goes.cons_inv {i : ι} (h : m.Goes s (i :: is) u) : ∃ t, m.next i s t ∧ m.Goes t is u := by
  obtain ⟨t, h1, h2⟩ := Goes.split (show m.Goes s ([i] ++ is) u from h)
  obtain ⟨s', h0, hn⟩ := Goes.snoc_inv (show m.Goes s ([] ++ [i]) t from h1)
  rw [h0.nil_inv]
  exact ⟨t, hn, h2⟩

/-- Where each input has one next state at most, so has a run. -/
theorem Goes.unique (hm : ∀ i s t t', m.next i s t → m.next i s t' → t = t') (h : m.Goes s is t)
    (h' : m.Goes s is u) : t = u := by
  induction h generalizing u with
  | nil => exact h'.nil_inv
  | @snoc is i t v hg hn ih =>
    obtain ⟨t', hg', hn'⟩ := h'.snoc_inv
    rw [← ih hg'] at hn'
    exact hm i t v u hn hn'

theorem Goes.cons {i : ι} (hn : m.next i s t) (h : m.Goes t is u) : m.Goes s (i :: is) u :=
  Goes.append (Goes.nil.snoc hn) h

/-- The state after some inputs, if every step is possible. -/
def exec (step : ι → σ → Option σ) (s : σ) (is : List ι) : Option σ := is.foldlM (fun s i => step i s) s

theorem exec_append {step : ι → σ → Option σ} {s t : σ} {is js : List ι} (h : exec step s is = some t) :
    exec step s (is ++ js) = exec step t js := by
  rw [exec, List.foldlM_append, ← exec, h]
  rfl

theorem exec_single (step : ι → σ → Option σ) (s : σ) (i : ι) : exec step s [i] = step i s := by
  simp [exec]

theorem exec_goes {step : ι → σ → Option σ} {s t : σ} {is : List ι} (h : exec step s is = some t) :
    (ofStep step).Goes s is t := by
  induction is generalizing s with
  | nil => cases h; exact .nil
  | cons i is ih =>
    obtain ⟨u, hu, h'⟩ := Option.bind_eq_some_iff.1 (List.foldlM_cons.symm.trans h)
    exact .cons hu (ih h')

end System

end Lib
