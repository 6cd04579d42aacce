import Mathlib.Data.Finset.Card
import Mathlib.Data.List.Induction
import Mathlib.Tactic.Ring
/-!
# Big-endian numbers

Numbers in network byte order: `value` reads a list of bytes as a number,
`bytes k n` writes the low `k` bytes of `n`. Each undoes the other. So lists of
bytes can be counted, and a code that loses nothing does not shorten all of them.
-/

namespace Lib.BigEndian

/-- The number whose big-endian bytes are `l`. -/
def value (l : List UInt8) : Nat := l.foldl (fun n b => n * 256 + b.toNat) 0

/-- The low `k` bytes of `n`, most significant first. -/
def bytes : Nat → Nat → List UInt8
  | 0, _ => []
  | k + 1, n => bytes k (n / 256) ++ [UInt8.ofNat n]

@[simp] theorem value_nil : value [] = 0 := rfl

@[simp] theorem value_append_singleton (l : List UInt8) (b : UInt8) :
    value (l ++ [b]) = value l * 256 + b.toNat := by
  simp [value]

@[simp] theorem value_singleton (b : UInt8) : value [b] = b.toNat := by
  simp [value]

@[simp] theorem bytes_length (k n : Nat) : (bytes k n).length = k := by
  induction k generalizing n with
  | zero => rfl
  | succ k ih => simp [bytes, ih]

theorem value_bytes_mod (k n : Nat) : value (bytes k n) = n % 256 ^ k := by
  induction k generalizing n with
  | zero => simp [bytes, Nat.mod_one]
  | succ k ih =>
    have hb : (UInt8.ofNat n).toNat = n % 256 := by simp
    rw [bytes, value_append_singleton, ih, hb, pow_succ', Nat.mod_mul]
    ring

/-- Reading back what was written, when the number fits in `k` bytes. -/
theorem value_bytes {k n : Nat} (h : n < 256 ^ k) : value (bytes k n) = n := by
  rw [value_bytes_mod, Nat.mod_eq_of_lt h]

/-- Writing back what was read. -/
theorem bytes_value (l : List UInt8) : bytes l.length (value l) = l := by
  induction l using List.reverseRecOn with
  | nil => rfl
  | append_singleton l b ih =>
    have hb := b.toNat_lt
    have hdiv : (value l * 256 + b.toNat) / 256 = value l := by omega
    have hlow : UInt8.ofNat (value l * 256 + b.toNat) = b := by
      apply UInt8.toNat_inj.1
      simp only [UInt8.toNat_ofNat']
      omega
    rw [List.length_append, List.length_singleton, value_append_singleton, bytes, hdiv, ih, hlow]

theorem value_lt (l : List UInt8) : value l < 256 ^ l.length := by
  induction l using List.reverseRecOn with
  | nil => simp
  | append_singleton l b ih =>
    have hb := b.toNat_lt
    rw [value_append_singleton, List.length_append, List.length_singleton, pow_succ]
    omega

/-! ## Counting -/

theorem value_one_cons (l : List UInt8) : 256 ^ l.length ≤ value (1 :: l) ∧ value (1 :: l) < 256 ^ (l.length + 1) := by
  refine ⟨?_, value_lt (1 :: l)⟩
  induction l using List.reverseRecOn with
  | nil => decide
  | append_singleton l b ih =>
    rw [← List.cons_append, value_append_singleton, List.length_append, List.length_singleton, pow_succ]
    omega

/-- Behind a one, lists are told apart by their numbers, whatever their lengths. -/
theorem value_one_cons_inj {l l' : List UInt8} (h : value (1 :: l) = value (1 :: l')) : l = l' := by
  obtain ⟨hge, hlt⟩ := value_one_cons l
  obtain ⟨hge', hlt'⟩ := value_one_cons l'
  have hlen : l.length = l'.length := by
    apply le_antisymm
    · exact Nat.le_of_lt_succ ((Nat.pow_lt_pow_iff_right (by decide)).1 (lt_of_le_of_lt hge (h ▸ hlt')))
    · exact Nat.le_of_lt_succ ((Nat.pow_lt_pow_iff_right (by decide)).1 (lt_of_le_of_lt hge' (h ▸ hlt)))
  have hcons : (1 :: l).length = (1 :: l').length := congrArg (· + 1) hlen
  have heq : 1 :: l = 1 :: l' := by rw [← bytes_value (1 :: l), h, hcons, bytes_value]
  exact (List.cons.inj heq).2

/-- A code that tells all lists of `n` bytes apart does not make each of them shorter. -/
theorem exists_not_shorter {n : Nat} {f : List UInt8 → List UInt8}
    (hf : ∀ l l', l.length = n → l'.length = n → f l = f l' → l = l') : ∃ l, l.length = n ∧ n ≤ (f l).length := by
  by_contra hno
  have hshort (l : List UInt8) (hl : l.length = n) : (f l).length < n := by
    by_contra hle
    exact hno ⟨l, hl, Nat.not_lt.1 hle⟩
  obtain ⟨m, hm, m', hm', hne, heq⟩ := Finset.exists_ne_map_eq_of_card_lt_of_maps_to
    (s := Finset.range (256 ^ n)) (t := (Finset.range (256 ^ n)).erase 0) (f := fun m => value (1 :: f (bytes n m)))
    (Finset.card_erase_lt_of_mem (Finset.mem_range.2 (pow_pos (by decide) n))) (by
      intro m _
      obtain ⟨hge, hlt⟩ := value_one_cons (f (bytes n m))
      have hle : 256 ^ ((f (bytes n m)).length + 1) ≤ 256 ^ n :=
        Nat.pow_le_pow_right (by decide) (hshort _ (bytes_length n m))
      have hpos : 0 < 256 ^ (f (bytes n m)).length := pow_pos (by decide) _
      simp only [Finset.coe_erase, Finset.coe_range, Set.mem_sdiff, Set.mem_Iio, Set.mem_singleton_iff]
      exact ⟨lt_of_lt_of_le hlt hle, by omega⟩)
  have hbytes := hf _ _ (bytes_length n m) (bytes_length n m') (value_one_cons_inj heq)
  have hvalue := congrArg value hbytes
  rw [value_bytes (Finset.mem_range.1 hm), value_bytes (Finset.mem_range.1 hm')] at hvalue
  exact hne hvalue

end Lib.BigEndian
