import Mathlib.Data.Nat.Bitwise
import Mathlib.Tactic.Ring
/-!
# Bits of bytes

Strings of bits, the lowest bit first: `low n v` writes the low `n` bits of a
number, `number` reads a string of bits back. The bits of a list of bytes are
those of its bytes one after the other.
-/

namespace Lib.Bits

/-- The low `n` bits of `v`. -/
def low : Nat → Nat → List Bool
  | 0, _ => []
  | n + 1, v => v.testBit 0 :: low n (v / 2)

/-- The number whose bits are `bs`. -/
def number : List Bool → Nat
  | [] => 0
  | b :: bs => b.toNat + 2 * number bs

/-- The low `n` bits of `v`, the highest first. -/
def high (n v : Nat) : List Bool := (low n v).reverse

def ofBytes (bytes : List UInt8) : List Bool := bytes.flatMap fun b => low 8 b.toNat

/-- The whole bytes of a string of bits. -/
def toBytes : List Bool → List UInt8
  | b₀ :: b₁ :: b₂ :: b₃ :: b₄ :: b₅ :: b₆ :: b₇ :: bs =>
    UInt8.ofNat (number [b₀, b₁, b₂, b₃, b₄, b₅, b₆, b₇]) :: toBytes bs
  | _ => []

variable {n m v : Nat} {bs : List Bool}

@[simp] theorem low_length (n v : Nat) : (low n v).length = n := by
  induction n generalizing v with
  | zero => rfl
  | succ n ih => simp [low, ih]

@[simp] theorem high_length (n v : Nat) : (high n v).length = n := by
  simp [high]

/-- The bits of a number are its low bits and those of the rest. -/
theorem low_add (n m v : Nat) : low (n + m) v = low n v ++ low m (v / 2 ^ n) := by
  induction n generalizing v with
  | zero => simp [low]
  | succ n ih =>
    rw [Nat.succ_add, low, low, ih, Nat.div_div_eq_div_mul, pow_succ']
    rfl

theorem testBit_zero_toNat (v : Nat) : (v.testBit 0).toNat = v % 2 := by
  rw [Nat.testBit_zero]
  rcases Nat.mod_two_eq_zero_or_one v with h | h <;> rw [h] <;> rfl

theorem number_low_mod (n v : Nat) : number (low n v) = v % 2 ^ n := by
  induction n generalizing v with
  | zero => simp [low, number, Nat.mod_one]
  | succ n ih => rw [low, number, ih, testBit_zero_toNat, pow_succ', Nat.mod_mul]

/-- Reading back what was written, when the number fits in `n` bits. -/
theorem number_low (h : v < 2 ^ n) : number (low n v) = v := by
  rw [number_low_mod, Nat.mod_eq_of_lt h]

/-- Writing back what was read. -/
theorem low_number (bs : List Bool) : low bs.length (number bs) = bs := by
  induction bs with
  | nil => rfl
  | cons b bs ih =>
    have hdiv : (b.toNat + 2 * number bs) / 2 = number bs := by
      cases b <;> simp only [Bool.toNat_true, Bool.toNat_false] <;> omega
    have hbit : (b.toNat + 2 * number bs).testBit 0 = b := by
      rw [Nat.testBit_zero]
      cases b <;> simp
    rw [List.length_cons, number, low, hdiv, hbit, ih]

/-- Only the low `n` bits of a number count. -/
theorem low_mod (n v : Nat) : low n (v % 2 ^ n) = low n v := by
  have h := low_number (low n v)
  rwa [number_low_mod, low_length] at h

theorem number_append (bs cs : List Bool) : number (bs ++ cs) = number bs + 2 ^ bs.length * number cs := by
  induction bs with
  | nil => simp [number]
  | cons b bs ih =>
    rw [List.cons_append, number, ih, number, List.length_cons, pow_succ']
    ring

/-- The first bits of a high-first string are those of the number halved. -/
theorem high_succ (n v : Nat) : high (n + 1) v = high n (v / 2) ++ [v.testBit 0] := by
  rw [high, low, List.reverse_cons, high]

@[simp] theorem low_zero_right (n : Nat) : low n 0 = List.replicate n false := by
  induction n with
  | zero => rfl
  | succ n ih => simp [low, ih, List.replicate_succ]

/-! ## Bytes -/

@[simp] theorem ofBytes_nil : ofBytes [] = [] := rfl

@[simp] theorem ofBytes_cons (b : UInt8) (l : List UInt8) : ofBytes (b :: l) = low 8 b.toNat ++ ofBytes l := rfl

@[simp] theorem ofBytes_append (l k : List UInt8) : ofBytes (l ++ k) = ofBytes l ++ ofBytes k := by
  simp [ofBytes]

@[simp] theorem ofBytes_length (l : List UInt8) : (ofBytes l).length = 8 * l.length := by
  induction l with
  | nil => rfl
  | cons b l ih =>
    rw [ofBytes_cons, List.length_append, low_length, ih, List.length_cons]
    ring

@[simp] theorem toBytes_ofBytes (l : List UInt8) : toBytes (ofBytes l) = l := by
  induction l with
  | nil => rfl
  | cons b l ih =>
    have hb : UInt8.ofNat (number (low 8 b.toNat)) = b := by
      rw [number_low b.toNat_lt, UInt8.ofNat_toNat]
    have hcut : toBytes (low 8 b.toNat ++ ofBytes l) = UInt8.ofNat (number (low 8 b.toNat)) :: toBytes (ofBytes l) := rfl
    rw [ofBytes_cons, hcut, hb, ih]

/-- A list of bytes can be told from the start of its bits. -/
theorem ofBytes_split {l k : List UInt8} {bs : List Bool} (h : ofBytes l = ofBytes k ++ bs) :
    ∃ l', l = k ++ l' ∧ ofBytes l' = bs := by
  induction k generalizing l with
  | nil => exact ⟨l, rfl, h⟩
  | cons b k ih =>
    cases l with
    | nil =>
      have hlen := congrArg List.length h
      simp only [ofBytes_cons, ofBytes_nil, List.length_append, List.length_nil, low_length] at hlen
      omega
    | cons c l =>
      rw [ofBytes_cons, ofBytes_cons, List.append_assoc] at h
      obtain ⟨hlow, hrest⟩ := List.append_inj h (by simp)
      have hnum := congrArg number hlow
      rw [number_low c.toNat_lt, number_low b.toNat_lt] at hnum
      obtain ⟨l', rfl, hbits⟩ := ih hrest
      exact ⟨l', by rw [UInt8.toNat_inj.1 hnum]; rfl, hbits⟩

end Lib.Bits
