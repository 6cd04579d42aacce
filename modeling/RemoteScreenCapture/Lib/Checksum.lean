import Mathlib.Tactic.Ring
/-!
# Checksums

Cyclic redundancy checks of any width and polynomial, bit by bit and a byte at
a time from a table (`crcByte_table`), and Adler-32, whose sums may be reduced
later than byte by byte (`adler_sums`).
-/

namespace Lib.Checksum

/-! ## Cyclic redundancy -/

section Crc
variable {w : Nat} (poly : BitVec w)

/-- One bit of the input, which is the low bit of `crc`. -/
def crcBit (crc : BitVec w) : BitVec w := (crc >>> 1) ^^^ if crc.getLsbD 0 then poly else 0#w

def crcByte (crc : BitVec w) (b : UInt8) : BitVec w := (crcBit poly)^[8] (crc ^^^ b.toBitVec.setWidth w)

theorem crcBit_xor (x y : BitVec w) : crcBit poly (x ^^^ y) = crcBit poly x ^^^ crcBit poly y := by
  unfold crcBit
  rw [BitVec.getLsbD_xor, BitVec.ushiftRight_xor_distrib]
  have hswap (a b c d : BitVec w) : a ^^^ b ^^^ (c ^^^ d) = (a ^^^ c) ^^^ (b ^^^ d) := by ac_rfl
  rw [hswap]
  congr 1
  cases x.getLsbD 0 <;> cases y.getLsbD 0 <;> simp

theorem iterate_crcBit_xor (n : Nat) (x y : BitVec w) :
    (crcBit poly)^[n] (x ^^^ y) = (crcBit poly)^[n] x ^^^ (crcBit poly)^[n] y := by
  induction n generalizing x y with
  | zero => rfl
  | succ n ih => rw [Function.iterate_succ_apply, crcBit_xor, ih]; rfl

/-- Zero bits only move what stands above them. -/
theorem iterate_crcBit_zeros {n : Nat} {x : BitVec w} (h : ∀ i < n, x.getLsbD i = false) :
    (crcBit poly)^[n] x = x >>> n := by
  induction n with
  | zero => rw [Function.iterate_zero_apply, BitVec.ushiftRight_zero]
  | succ n ih =>
    have hlow : (x >>> n).getLsbD 0 = false := by
      rw [BitVec.getLsbD_ushiftRight]
      exact h n (Nat.lt_succ_self n)
    rw [Function.iterate_succ_apply', ih fun i hi => h i (by omega), crcBit, hlow, BitVec.shiftRight_add]
    simp

/-- A byte at a time: its eight bits together with the low byte of the
remainder, from a table. -/
theorem crcByte_table (crc : BitVec w) (b : UInt8) :
    crcByte poly crc b = (crc >>> 8) ^^^ (crcBit poly)^[8] ((crc ^^^ b.toBitVec.setWidth w) &&& BitVec.ofNat w 255) := by
  have hmask (i : Nat) : (255 : Nat).testBit i = decide (i < 8) := Nat.testBit_two_pow_sub_one 8 i
  have hhigh (i : Nat) (hi : 8 ≤ i) : b.toBitVec.getLsbD i = false := BitVec.getLsbD_of_ge _ _ hi
  have hsplit : crc ^^^ b.toBitVec.setWidth w =
      (crc &&& ~~~BitVec.ofNat w 255) ^^^ ((crc ^^^ b.toBitVec.setWidth w) &&& BitVec.ofNat w 255) := by
    apply BitVec.eq_of_getLsbD_eq
    intro i hi
    simp only [BitVec.getLsbD_xor, BitVec.getLsbD_and, BitVec.getLsbD_not, BitVec.getLsbD_setWidth,
      BitVec.getLsbD_ofNat, hmask, hi]
    by_cases h8 : i < 8
    · simp [h8]
    · simp [h8, hhigh i (by omega)]
  have hzeros : ∀ i < 8, (crc &&& ~~~BitVec.ofNat w 255).getLsbD i = false := by
    intro i hi
    simp [BitVec.getLsbD_and, BitVec.getLsbD_ofNat, hmask, hi]
  have hshift : (crc &&& ~~~BitVec.ofNat w 255) >>> 8 = crc >>> 8 := by
    apply BitVec.eq_of_getLsbD_eq
    intro i hi
    simp only [BitVec.getLsbD_ushiftRight, BitVec.getLsbD_and, BitVec.getLsbD_not, BitVec.getLsbD_ofNat, hmask]
    by_cases hw : 8 + i < w
    · simp [hw]
    · simp [BitVec.getLsbD_of_ge crc (8 + i) (by omega)]
  unfold crcByte
  rw [hsplit, iterate_crcBit_xor, iterate_crcBit_zeros poly hzeros, hshift, ← hsplit]

end Crc

/-- The CRC-32 of the usual polynomial, low bit first. -/
def crc32 (data : List UInt8) : BitVec 32 := ~~~data.foldl (crcByte 0xEDB88320#32) (BitVec.allOnes 32)

/-! ## Adler-32 -/

/-- The two sums after one more byte. -/
def adlerStep (s : Nat × Nat) (b : UInt8) : Nat × Nat :=
  ((s.1 + b.toNat) % 65521, (s.2 + (s.1 + b.toNat) % 65521) % 65521)

def adler32 (data : List UInt8) : Nat :=
  let (s₁, s₂) := data.foldl adlerStep (1, 0)
  s₂ * 65536 + s₁

/-- The two sums, not reduced. -/
def adlerSums (s : Nat × Nat) (data : List UInt8) : Nat × Nat :=
  data.foldl (fun s b => (s.1 + b.toNat, s.2 + (s.1 + b.toNat))) s

/-- The sums may be reduced at the end. -/
theorem adler_sums (s : Nat × Nat) (data : List UInt8) :
    ((adlerSums s data).1 % 65521, (adlerSums s data).2 % 65521) =
      data.foldl adlerStep (s.1 % 65521, s.2 % 65521) := by
  induction data generalizing s with
  | nil => rfl
  | cons b data ih =>
    have hstep : adlerStep (s.1 % 65521, s.2 % 65521) b =
        ((s.1 + b.toNat) % 65521, (s.2 + (s.1 + b.toNat)) % 65521) := by
      unfold adlerStep
      congr 1 <;> omega
    rw [List.foldl_cons, hstep]
    exact ih (s.1 + b.toNat, s.2 + (s.1 + b.toNat))

theorem le_adlerSums (s : Nat × Nat) (data : List UInt8) :
    s.1 ≤ (adlerSums s data).1 ∧ s.2 ≤ (adlerSums s data).2 := by
  induction data generalizing s with
  | nil => exact ⟨le_rfl, le_rfl⟩
  | cons b data ih =>
    obtain ⟨h₁, h₂⟩ := ih (s.1 + b.toNat, s.2 + (s.1 + b.toNat))
    exact ⟨(Nat.le_add_right _ _).trans h₁, (Nat.le_add_right _ _).trans h₂⟩

/-- How large the sums get before they are reduced. -/
theorem adlerSums_le (s : Nat × Nat) (data : List UInt8) :
    (adlerSums s data).1 ≤ s.1 + 255 * data.length ∧
      2 * (adlerSums s data).2 ≤
        2 * s.2 + 2 * data.length * s.1 + 255 * (data.length * (data.length + 1)) := by
  induction data generalizing s with
  | nil => simp [adlerSums]
  | cons b data ih =>
    have hb : b.toNat ≤ 255 := Nat.le_of_lt_succ b.toNat_lt
    obtain ⟨h₁, h₂⟩ := ih (s.1 + b.toNat, s.2 + (s.1 + b.toNat))
    rw [List.length_cons]
    constructor
    · refine h₁.trans ?_
      dsimp only
      omega
    · have hmul : (data.length + 1) * b.toNat ≤ (data.length + 1) * 255 := Nat.mul_le_mul_left _ hb
      calc 2 * (adlerSums s (b :: data)).2
          ≤ 2 * (s.2 + (s.1 + b.toNat)) + 2 * data.length * (s.1 + b.toNat) + 255 * (data.length * (data.length + 1)) := h₂
        _ = 2 * s.2 + 2 * (data.length + 1) * s.1 + 2 * ((data.length + 1) * b.toNat) +
            255 * (data.length * (data.length + 1)) := by ring
        _ ≤ 2 * s.2 + 2 * (data.length + 1) * s.1 + 2 * ((data.length + 1) * 255) +
            255 * (data.length * (data.length + 1)) := by omega
        _ = 2 * s.2 + 2 * (data.length + 1) * s.1 + 255 * ((data.length + 1) * (data.length + 1 + 1)) := by ring

end Lib.Checksum
