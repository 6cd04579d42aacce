import RemoteScreenCapture.Inflates
import RemoteScreenCapture.PngWriter
/-!
# What the PNG writer writes

The checksum from the table is the CRC of its polynomial, each line is filtered
as the format says, and the file decodes to the picture, whatever filters were
chosen.
-/
open Lib Lib.BigEndian

namespace RemoteScreenCapture

namespace Stb

/-! ## The checksum -/

theorem crcTable_eq : crcTable = (List.range 256).map fun i => (Checksum.crcBit 0xEDB88320#32)^[8] (BitVec.ofNat 32 i) := by
  decide +kernel

theorem crcTable_getD {i : Nat} (h : i < 256) :
    crcTable.getD i 0 = (Checksum.crcBit 0xEDB88320#32)^[8] (BitVec.ofNat 32 i) := by
  rw [crcTable_eq, List.getD_eq_getElem?_getD, List.getElem?_map, List.getElem?_range h]
  rfl

/-- The table-driven checksum is the CRC-32 of the bytes. -/
theorem crc32_eq (buffer : Bytes) : crc32 buffer = Checksum.crc32 buffer := by
  have hstep (crc : BitVec 32) (b : UInt8) :
      (crc >>> 8) ^^^ crcTable.getD (b.toBitVec.setWidth 32 ^^^ (crc &&& 0xff)).toNat 0 =
        Checksum.crcByte 0xEDB88320#32 crc b := by
    have hindex : b.toBitVec.setWidth 32 ^^^ (crc &&& 0xff) = (crc ^^^ b.toBitVec.setWidth 32) &&& 255#32 := by
      have hb : b.toBitVec.setWidth 32 &&& 255#32 = b.toBitVec.setWidth 32 := by
        apply BitVec.eq_of_toNat_eq
        have hlt : b.toBitVec.toNat < 2 ^ 8 := b.toBitVec.isLt
        rw [BitVec.toNat_and, BitVec.toNat_setWidth, Nat.mod_eq_of_lt (by omega)]
        exact (Nat.and_two_pow_sub_one_eq_mod _ 8).trans (Nat.mod_eq_of_lt hlt)
      have hand (x y z : BitVec 32) : (x ^^^ y) &&& z = (x &&& z) ^^^ (y &&& z) := by
        ext i
        simp [Bool.and_xor_distrib_right]
      rw [hand, hb, BitVec.xor_comm]
      rfl
    have hlt : ((crc ^^^ b.toBitVec.setWidth 32) &&& 255#32).toNat < 256 := by
      rw [BitVec.toNat_and]
      exact lt_of_le_of_lt Nat.and_le_right (by decide)
    rw [Checksum.crcByte_table, hindex, crcTable_getD hlt, BitVec.ofNat_toNat, BitVec.setWidth_eq]
  unfold crc32 Checksum.crc32
  congr 2
  · funext crc b
    exact hstep crc b

/-! ## Lines -/

theorem paeth_eq (a b c : UInt8) : paeth a.toNat b.toNat c.toNat = Png.paethPredictor a b c := by
  unfold paeth Png.paethPredictor
  simp only [uchar_natCast, UInt8.ofNat_toNat]

theorem mapM_some {α β : Type} {f : α → Option β} {g : α → β} {l : List α} (h : ∀ a ∈ l, f a = some (g a)) :
    l.mapM f = some (l.map g) := by
  induction l with
  | nil => rfl
  | cons a l ih =>
    rw [List.mapM_cons, h a (by simp), ih fun b hb => h b (by simp [hb])]
    rfl

/-- The bytes of the row `j`. -/
def rowOf (pixels : Bytes) (strideBytes len j : Nat) : Bytes := (pixels.drop (strideBytes * j)).take len

/-- The row above the row `j`, which is none for the first. -/
def priorOf (pixels : Bytes) (strideBytes len j : Nat) : Bytes :=
  if j = 0 then [] else rowOf pixels strideBytes len (j - 1)

section Lines
variable {pixels : Bytes} {strideBytes width n j : Nat}

theorem pixelAt_row (hrow : strideBytes * j + width * n ≤ pixels.length) {i : Nat} (hi : i < width * n) {k : Int}
    (hk : k = strideBytes * j + i) :
    pixelAt pixels k = some ((rowOf pixels strideBytes (width * n) j).getD i 0) := by
  have hk' : k.toNat = strideBytes * j + i := by omega
  have hget : (rowOf pixels strideBytes (width * n) j)[i]? = pixels[strideBytes * j + i]? := by
    rw [rowOf, List.getElem?_take_of_lt hi, List.getElem?_drop]
  unfold pixelAt
  rw [if_pos (by omega), hk', List.getD_eq_getElem?_getD, hget, List.getElem?_eq_getElem (by omega)]
  rfl

theorem pixelAt_prior (hrow : strideBytes * j + width * n ≤ pixels.length)
    (hj : j ≠ 0) {i : Nat} (hi : i < width * n) {k : Int} (hk : k = strideBytes * j + i - strideBytes) :
    pixelAt pixels k = some ((priorOf pixels strideBytes (width * n) j).getD i 0) := by
  cases j with
  | zero => exact absurd rfl hj
  | succ j =>
    have hmul : strideBytes * (j + 1) = strideBytes * j + strideBytes := Nat.mul_succ _ _
    rw [priorOf, if_neg hj]
    apply pixelAt_row (by rw [Nat.add_sub_cancel]; omega) hi
    rw [hk, Nat.add_sub_cancel]
    push_cast
    ring

theorem shift_one (b : UInt8) : b >>> 1 = .ofNat (b.toNat / 2) := by
  apply UInt8.toNat_inj.1
  have := b.toNat_lt
  simp [UInt8.toNat_shiftRight, Nat.shiftRight_eq_div_pow]
  omega

/-- The bytes of the first pixel, which have nothing to their left. -/
theorem firstByte_eq (hrow : strideBytes * j + width * n ≤ pixels.length)
    {filterType type i : Nat} (htype : (if j ≠ 0 then [0, 1, 2, 3, 4] else [0, 1, 0, 5, 6])[filterType]? = some type)
    (hne : type ≠ 0) (hi : i < n) (hin : i < width * n) :
    firstByte pixels strideBytes (strideBytes * j) type i = some (Png.filterByte filterType n
      (priorOf pixels strideBytes (width * n) j) (rowOf pixels strideBytes (width * n) j) i) := by
  have hx := @pixelAt_row pixels strideBytes width n j hrow i hin _ rfl
  have hleft (line : Bytes) : Png.left n line i = 0 := if_pos hi
  unfold firstByte Png.filterByte
  rw [hleft, hleft, hx]
  by_cases hj : j = 0
  · rw [if_neg (not_not.2 hj)] at htype
    have hprior : (priorOf pixels strideBytes (width * n) j).getD i 0 = 0 := by
      rw [priorOf, if_pos hj]
      rfl
    rw [hprior]
    match filterType, htype with
    | 0, h => exact absurd (Option.some.inj h).symm hne
    | 1, h => obtain rfl := Option.some.inj h; simp [Png.predict]
    | 2, h => exact absurd (Option.some.inj h).symm hne
    | 3, h => obtain rfl := Option.some.inj h; simp [Png.predict]
    | 4, h => obtain rfl := Option.some.inj h; simp [Png.predict, Png.paethPredictor]
  · rw [if_pos hj] at htype
    have hup := @pixelAt_prior pixels strideBytes width n j hrow hj i hin _ rfl
    match filterType, htype with
    | 0, h => exact absurd (Option.some.inj h).symm hne
    | 1, h => obtain rfl := Option.some.inj h; simp [Png.predict]
    | 2, h => obtain rfl := Option.some.inj h; simp [Png.predict, hup]
    | 3, h => obtain rfl := Option.some.inj h; simp [Png.predict, hup, shift_one]
    | 4, h =>
      obtain rfl := Option.some.inj h
      have hp (b : UInt8) : paeth 0 b.toNat 0 = Png.paethPredictor 0 b 0 := paeth_eq 0 b 0
      simp [Png.predict, hup, hp]

/-- The bytes behind the first pixel. -/
theorem nextByte_eq (hrow : strideBytes * j + width * n ≤ pixels.length)
    {filterType type i : Nat} (htype : (if j ≠ 0 then [0, 1, 2, 3, 4] else [0, 1, 0, 5, 6])[filterType]? = some type)
    (hne : type ≠ 0) (hi : n ≤ i) (hin : i < width * n) :
    nextByte pixels strideBytes (strideBytes * j) n type i = some (Png.filterByte filterType n
      (priorOf pixels strideBytes (width * n) j) (rowOf pixels strideBytes (width * n) j) i) := by
  have hx := @pixelAt_row pixels strideBytes width n j hrow i hin _ rfl
  have ha := @pixelAt_row pixels strideBytes width n j hrow (i - n) (by omega) (strideBytes * j + i - n) (by omega)
  have hleft (line : Bytes) : Png.left n line i = line.getD (i - n) 0 := if_neg (by omega)
  unfold nextByte Png.filterByte
  rw [hleft, hleft, hx]
  by_cases hj : j = 0
  · rw [if_neg (not_not.2 hj)] at htype
    have hprior (k : Nat) : (priorOf pixels strideBytes (width * n) j).getD k 0 = 0 := by
      rw [priorOf, if_pos hj]
      rfl
    rw [hprior, hprior]
    match filterType, htype with
    | 0, h => exact absurd (Option.some.inj h).symm hne
    | 1, h => obtain rfl := Option.some.inj h; simp [Png.predict, ha]
    | 2, h => exact absurd (Option.some.inj h).symm hne
    | 3, h => obtain rfl := Option.some.inj h; simp [Png.predict, ha, shift_one]
    | 4, h =>
      obtain rfl := Option.some.inj h
      have hp (a : UInt8) : paeth a.toNat 0 0 = Png.paethPredictor a 0 0 := paeth_eq a 0 0
      simp [Png.predict, ha, hp]
  · rw [if_pos hj] at htype
    have hup := @pixelAt_prior pixels strideBytes width n j hrow hj i hin _ rfl
    have hcorner := @pixelAt_prior pixels strideBytes width n j hrow hj (i - n) (by omega)
      (strideBytes * j + i - strideBytes - n) (by omega)
    match filterType, htype with
    | 0, h => exact absurd (Option.some.inj h).symm hne
    | 1, h => obtain rfl := Option.some.inj h; simp [Png.predict, ha]
    | 2, h => obtain rfl := Option.some.inj h; simp [Png.predict, hup]
    | 3, h =>
      obtain rfl := Option.some.inj h
      have hsum (a b : Nat) : uchar (((a : Int) + b) >>> (1 : Nat)) = .ofNat ((a + b) / 2) := uchar_natCast ((a + b) >>> 1)
      simp [Png.predict, ha, hup, hsum]
    | 4, h => obtain rfl := Option.some.inj h; simp [Png.predict, ha, hup, hcorner, paeth_eq]

/-- A line is filtered as the format says, the first one against no row. -/
theorem encodePngLine_eq (hwidth : 0 < width) (hrow : strideBytes * j + width * n ≤ pixels.length)
    (hint : IsInt (strideBytes * j)) {filterType : Nat} (hfilter : filterType ≤ 4) :
    encodePngLine pixels strideBytes width j n filterType = some (Png.filterLine filterType n
      (priorOf pixels strideBytes (width * n) j) (rowOf pixels strideBytes (width * n) j)) := by
  have hlen : (rowOf pixels strideBytes (width * n) j).length = width * n := by
    rw [rowOf, List.length_take, List.length_drop]
    omega
  have hroom : n ≤ width * n := Nat.le_mul_of_pos_left n hwidth
  obtain ⟨type, htype⟩ : ∃ type, (if j ≠ 0 then [0, 1, 2, 3, 4] else [0, 1, 0, 5, 6])[filterType]? = some type := by
    split <;> exact ⟨_, List.getElem?_eq_getElem (by simp only [List.length_cons, List.length_nil]; omega)⟩
  unfold encodePngLine Png.filterLine
  rw [hlen]
  simp only [Option.bind_eq_bind, htype, Option.bind_some, not_true_eq_false, if_false, hint, Nat.not_lt.2 hroom]
  by_cases hne : type = 0
  · subst hne
    rw [if_pos rfl]
    apply mapM_some
    intro i hi
    rw [pixelAt_row hrow (List.mem_range.1 hi) rfl]
    -- In the first line, the row above is taken for a row of zeros.
    have hfirst : ∀ t ≤ 4, [0, 1, 0, 5, 6][t]? = some 0 → t = 0 ∨ t = 2 := by decide
    have hmapping : ∀ t ≤ 4, [0, 1, 2, 3, 4][t]? = some 0 → t = 0 := by decide
    have htype' : filterType = 0 ∨ j = 0 ∧ filterType = 2 := by
      by_cases hj : j = 0
      · rw [if_neg (not_not.2 hj)] at htype
        exact (hfirst filterType hfilter htype).imp id fun h => ⟨hj, h⟩
      · rw [if_pos hj] at htype
        exact .inl (hmapping filterType hfilter htype)
    obtain rfl | ⟨rfl, rfl⟩ := htype'
    · simp [Png.filterByte, Png.predict]
    · simp [Png.filterByte, Png.predict, priorOf]
  · have hfirst := @mapM_some _ _ (firstByte pixels strideBytes (strideBytes * j) type) _ (List.range n) fun i hi =>
      firstByte_eq hrow htype hne (List.mem_range.1 hi) (lt_of_lt_of_le (List.mem_range.1 hi) hroom)
    have hnext := @mapM_some _ _ (nextByte pixels strideBytes (strideBytes * j) n type) _
      (List.range' n (width * n - n)) fun i hi => by
        rw [List.mem_range'_1] at hi
        exact nextByte_eq hrow htype hne hi.1 (by omega)
    have hrange : List.range n ++ List.range' n (width * n - n) = List.range (width * n) := by
      have happ := @List.range'_append_1 0 n (width * n - n)
      rwa [Nat.zero_add, Nat.add_sub_cancel' hroom, ← List.range_eq_range', ← List.range_eq_range'] at happ
    rw [if_neg hne, hfirst, Option.bind_some, hnext, Option.bind_some, ← List.map_append, hrange]
    rfl

end Lines

/-! ## The choice of a filter -/

/-- The estimate that the search makes small. -/
def lineCost (line : Bytes) : Nat := (line.map absSigned).sum

theorem lineCost_le (line : Bytes) : lineCost line ≤ 128 * line.length := by
  induction line with
  | nil => exact le_rfl
  | cons b line ih =>
    have habs : absSigned b ≤ 128 := by
      unfold absSigned
      split <;> omega
    simp only [lineCost, List.map_cons, List.sum_cons, List.length_cons] at ih ⊢
    omega

/-- The search ends with the first of the cheapest filters, if one is below the value it starts from. -/
theorem searchFilter_spec {encode : Nat → Option Bytes} {lines : Nat → Bytes} {filters : List Nat}
    (hencode : ∀ t ∈ filters, encode t = some (lines t)) (hint : ∀ t ∈ filters, IsInt (lineCost (lines t)))
    (bestFilter bestFilterVal : Nat) :
    ∃ t v, searchFilter encode filters bestFilter bestFilterVal = some (t, v) ∧ v ≤ bestFilterVal ∧
      (∀ t' ∈ filters, v ≤ lineCost (lines t')) ∧ (t = bestFilter ∧ v = bestFilterVal ∨
        ∃ before after, filters = before ++ t :: after ∧ v = lineCost (lines t) ∧ v < bestFilterVal ∧
          ∀ t' ∈ before, v < lineCost (lines t')) := by
  induction filters generalizing bestFilter bestFilterVal with
  | nil => exact ⟨bestFilter, bestFilterVal, rfl, le_rfl, by simp, .inl ⟨rfl, rfl⟩⟩
  | cons filterType more ih =>
    have hest : IsInt (((lines filterType).map absSigned).sum : Nat) := hint filterType (.head _)
    have hmore (b v : Nat) := ih (fun t ht => hencode t (.tail _ ht)) (fun t ht => hint t (.tail _ ht)) b v
    rw [searchFilter, hencode filterType (.head _), Option.bind_eq_bind, Option.bind_some, if_neg (not_not.2 hest)]
    by_cases hlt : ((lines filterType).map absSigned).sum < bestFilterVal
    · obtain ⟨t, v, hs, hv, hle, hcase⟩ := hmore filterType (lineCost (lines filterType))
      rw [if_pos hlt]
      refine ⟨t, v, hs, le_trans hv (le_of_lt hlt), ?_, .inr ?_⟩
      · rintro t' (_ | ⟨_, ht'⟩)
        · exact hv
        · exact hle t' ht'
      · obtain ⟨rfl, rfl⟩ | ⟨before, after, rfl, rfl, hbelow, hfirst⟩ := hcase
        · exact ⟨[], more, rfl, rfl, hlt, by simp⟩
        · refine ⟨filterType :: before, after, rfl, rfl, lt_of_le_of_lt hv hlt, ?_⟩
          rintro t' (_ | ⟨_, ht'⟩)
          · exact hbelow
          · exact hfirst t' ht'
    · obtain ⟨t, v, hs, hv, hle, hcase⟩ := hmore bestFilter bestFilterVal
      rw [if_neg hlt]
      refine ⟨t, v, hs, hv, ?_, ?_⟩
      · rintro t' (_ | ⟨_, ht'⟩)
        · exact le_trans hv (Nat.not_lt.1 hlt)
        · exact hle t' ht'
      · obtain h | ⟨before, after, rfl, rfl, hbelow, hfirst⟩ := hcase
        · exact .inl h
        · refine .inr ⟨filterType :: before, after, rfl, rfl, hbelow, ?_⟩
          rintro t' (_ | ⟨_, ht'⟩)
          · exact lt_of_lt_of_le hbelow (Nat.not_lt.1 hlt)
          · exact hfirst t' ht'

section Choice
variable {pixels : Bytes} {strideBytes x n j : Nat}

/-- The line `j` under a filter. -/
def lineOf (pixels : Bytes) (strideBytes x n j filterType : Nat) : Bytes :=
  Png.filterLine filterType n (priorOf pixels strideBytes (x * n) j) (rowOf pixels strideBytes (x * n) j)

theorem lineOf_length (hrow : strideBytes * j + x * n ≤ pixels.length) (filterType : Nat) :
    (lineOf pixels strideBytes x n j filterType).length = x * n := by
  simp only [lineOf, Png.filterLine, List.length_map, List.length_range, rowOf, List.length_take, List.length_drop]
  omega

/-- The search takes the first of the filters whose line costs least. -/
theorem searchFilter_first (hx : 0 < x) (hrow : strideBytes * j + x * n ≤ pixels.length)
    (hint : IsInt (strideBytes * j)) (hcost : x * n < 2 ^ 24) :
    ∃ t v, searchFilter (encodePngLine pixels strideBytes x j n) [0, 1, 2, 3, 4] 0 0x7fffffff = some (t, v) ∧ t ≤ 4 ∧
      ∀ t' ≤ 4, lineCost (lineOf pixels strideBytes x n j t) ≤ lineCost (lineOf pixels strideBytes x n j t') ∧
        (t' < t → lineCost (lineOf pixels strideBytes x n j t) < lineCost (lineOf pixels strideBytes x n j t')) := by
  have hmem : ∀ t, t ∈ [0, 1, 2, 3, 4] ↔ t ≤ 4 := by
    intro t
    simp only [List.mem_cons, List.not_mem_nil, or_false]
    omega
  have hle (t : Nat) : lineCost (lineOf pixels strideBytes x n j t) ≤ 128 * (x * n) :=
    lineOf_length hrow t ▸ lineCost_le _
  have hisInt (t : Nat) : IsInt (lineCost (lineOf pixels strideBytes x n j t)) := by
    have := hle t
    constructor <;> omega
  obtain ⟨t, v, hs, _, hmin, hcase⟩ := @searchFilter_spec _ _ [0, 1, 2, 3, 4]
    (fun t ht => encodePngLine_eq hx hrow hint ((hmem t).1 ht)) (fun t _ => hisInt t) 0 0x7fffffff
  refine ⟨t, v, hs, ?_⟩
  obtain ⟨rfl, rfl⟩ | ⟨before, after, hsplit, rfl, _, hbefore⟩ := hcase
  · have hbig := hmin 0 (by simp)
    have hsmall := hle 0
    exact absurd (le_trans hbig hsmall) (by omega)
  · refine ⟨(hmem t).1 (hsplit ▸ by simp), fun t' ht' => ⟨hmin t' ((hmem t').2 ht'), fun hlt => ?_⟩⟩
    have hsorted : (before ++ t :: after).Pairwise (· < ·) := hsplit ▸ by decide
    have ht' : t' ∈ before ++ t :: after := hsplit ▸ (hmem t').2 ht'
    obtain hin | rfl | hafter : t' ∈ before ∨ t' = t ∨ t' ∈ after := by simpa using ht'
    · exact hbefore t' hin
    · exact absurd hlt (lt_irrefl _)
    · have hgt := (List.pairwise_cons.1 (List.pairwise_append.1 hsorted).2.1).1 t' hafter
      omega

/-- The filter of a line is the forced one, or else the one that the search ends with. -/
theorem filterLine_spec (settings : Settings) (hx : 0 < x) (hrow : strideBytes * j + x * n ≤ pixels.length)
    (hint : IsInt (strideBytes * j)) (hcost : x * n < 2 ^ 24) :
    ∃ t : UInt8, t.toNat ≤ 4 ∧
      filterLine settings pixels strideBytes x n j = some (t :: lineOf pixels strideBytes x n j t.toNat) ∧
      if 0 ≤ settings.writeForcePngFilter ∧ settings.writeForcePngFilter < 5 then
        (t.toNat : Int) = settings.writeForcePngFilter
      else
        ∃ v, searchFilter (encodePngLine pixels strideBytes x j n) [0, 1, 2, 3, 4] 0 0x7fffffff = some (t.toNat, v) := by
  have hbyte {t : Nat} (ht : t ≤ 4) : (uchar (t : Int)).toNat = t := by
    rw [uchar_natCast, UInt8.toNat_ofNat']
    omega
  unfold filterLine
  dsimp only
  by_cases hforced : 0 ≤ settings.writeForcePngFilter ∧ settings.writeForcePngFilter < 5
  · have hle : settings.writeForcePngFilter.toNat ≤ 4 := by omega
    have hcast : ((settings.writeForcePngFilter.toNat : Nat) : Int) = settings.writeForcePngFilter :=
      Int.toNat_of_nonneg hforced.1
    have hforce : ¬settings.writeForcePngFilter ≥ 5 := by omega
    have hpos : settings.writeForcePngFilter > -1 := by omega
    refine ⟨uchar settings.writeForcePngFilter, ?_, ?_, ?_⟩
    · rw [← hcast, hbyte hle]
      exact hle
    · rw [if_neg hforce, if_pos hpos, bind_of_eq (encodePngLine_eq hx hrow hint hle), ← hcast, hbyte hle]
      rfl
    · rw [if_pos hforced, ← hcast, hbyte hle]
  · have hforce : ¬(if settings.writeForcePngFilter ≥ 5 then -1 else settings.writeForcePngFilter) > -1 := by
      split <;> omega
    obtain ⟨t, v, hs, ht, _⟩ := searchFilter_first hx hrow hint hcost
    refine ⟨uchar t, ?_, ?_, ?_⟩
    · rw [hbyte ht]
      exact ht
    · rw [if_neg hforce, bind_of_eq hs]
      dsimp only
      rw [bind_of_eq (encodePngLine_eq hx hrow hint ht), hbyte ht]
      rfl
    · rw [if_neg hforced, hbyte ht]
      exact ⟨v, hs⟩

example : filterLine {} [10, 20, 30, 10, 20, 30] 3 1 3 1 = some [2, 0, 0, 0] := by decide

end Choice

/-! ## The file -/

section File
variable {pixels : Bytes} {strideBytes x y n : Nat}

/-- The rows of a picture, without what stands between them. -/
def rowsOf (pixels : Bytes) (strideBytes x y n : Nat) : Bytes :=
  (List.range y).flatMap fun j => rowOf pixels strideBytes (x * n) j

theorem filterRows_lines (types : Nat → UInt8) (j k : Nat) :
    Png.filterRows n (priorOf pixels strideBytes (x * n) j)
        ((List.range' j k).map fun i => (types i, rowOf pixels strideBytes (x * n) i)) =
      ((List.range' j k).map fun i => types i :: lineOf pixels strideBytes x n i (types i).toNat).flatten := by
  induction k generalizing j with
  | zero => rfl
  | succ k ih =>
    have hprior : priorOf pixels strideBytes (x * n) (j + 1) = rowOf pixels strideBytes (x * n) j :=
      if_neg (Nat.succ_ne_zero j)
    have hrest := ih (j + 1)
    rw [hprior] at hrest
    rw [List.range'_succ, List.map_cons, List.map_cons, List.flatten_cons, Png.filterRows, hrest]
    rfl

/-- What the compressor gets is the picture as filtered rows, whatever the settings. -/
theorem filt_spec (settings : Settings) (hx : 0 < x) (hn : 0 < n) (hcost : x * n < 2 ^ 24)
    (hrows : ∀ j < y, strideBytes * j + x * n ≤ pixels.length ∧ IsInt (strideBytes * j)) :
    ∃ filt, (List.range y).mapM (filterLine settings pixels strideBytes x n) = some filt ∧
      filt.flatten.length = (x * n + 1) * y ∧
      Png.unfilter n (x * n) y [] filt.flatten = some (rowsOf pixels strideBytes x y n) := by
  have hline (j : Nat) : ∃ t : UInt8, j < y → t.toNat ≤ 4 ∧
      filterLine settings pixels strideBytes x n j = some (t :: lineOf pixels strideBytes x n j t.toNat) := by
    by_cases hj : j < y
    · obtain ⟨t, ht, hline, _⟩ := filterLine_spec settings hx (hrows j hj).1 (hrows j hj).2 hcost
      exact ⟨t, fun _ => ⟨ht, hline⟩⟩
    · exact ⟨0, fun h => absurd h hj⟩
  choose types htypes using hline
  have hfilt := @mapM_some _ _ (filterLine settings pixels strideBytes x n)
    (fun j => types j :: lineOf pixels strideBytes x n j (types j).toNat) (List.range y)
    fun j hj => (htypes j (List.mem_range.1 hj)).2
  have hlines := @filterRows_lines pixels strideBytes x n types 0 y
  rw [← List.range_eq_range'] at hlines
  refine ⟨_, hfilt, ?_, ?_⟩
  · rw [List.length_flatten, List.map_map, List.map_congr_left (g := fun _ => x * n + 1), List.map_const',
      List.sum_replicate_nat, List.length_range, Nat.mul_comm]
    intro j hj
    exact congrArg (· + 1) (lineOf_length (hrows j (List.mem_range.1 hj)).1 _)
  · have hunfilter := @Png.unfilter_filterRows n (x * n) hn
      ((List.range y).map fun i => (types i, rowOf pixels strideBytes (x * n) i)) (by
        intro row hrow
        obtain ⟨j, hj, rfl⟩ := List.mem_map.1 hrow
        have hroom := (hrows j (List.mem_range.1 hj)).1
        refine ⟨(htypes j (List.mem_range.1 hj)).1, ?_⟩
        simp only [rowOf, List.length_take, List.length_drop]
        omega) []
    rw [List.length_map, List.length_range, List.flatMap_map] at hunfilter
    rw [← hlines]
    exact hunfilter

theorem wp32_eq (v : Nat) : wp32 v = bytes 4 v := by
  have h8 : v >>> 8 = v / 256 := Nat.shiftRight_eq_div_pow v 8
  have h16 : v >>> 16 = v / 256 / 256 := by rw [Nat.div_div_eq_div_mul, Nat.shiftRight_eq_div_pow]
  have h24 : v >>> 24 = v / 256 / 256 / 256 := by
    rw [Nat.div_div_eq_div_mul, Nat.div_div_eq_div_mul, Nat.shiftRight_eq_div_pow]
  simp only [wp32, bytes, uchar_natCast, h24, h16, h8]
  rfl

/-- A chunk is finished by its checksum. -/
theorem wpcrc_chunk (front : Bytes) {tag data : Bytes} (h : tag.length = 4) :
    wpcrc (front ++ wp32 data.length ++ tag ++ data) data.length = some (front ++ Png.chunk tag data) := by
  have hlen : (front ++ wp32 data.length ++ tag ++ data).length - data.length - 4 = (front ++ wp32 data.length).length := by
    simp only [List.length_append, h]
    omega
  unfold wpcrc
  rw [if_pos (by simp only [List.length_append, h]; omega), hlen, List.append_assoc (front ++ _), List.drop_left, crc32_eq,
    wp32_eq, wp32_eq]
  simp only [Png.chunk, List.append_assoc]

theorem writeChunks_eq {zlib : Bytes} {c : Int} (hc : [-1, 0, 4, 2, 6][n]? = some c) (hz : zlib.length + 57 < 2 ^ 31) :
    writeChunks x y n zlib = some (Png.file x y (uchar c) zlib) := by
  have hsig : ([137, 80, 78, 71, 13, 10, 26, 10] : Bytes) = Png.signature := rfl
  have hihdr : lit "IHDR" = Png.ihdr := by decide
  have hidat : lit "IDAT" = Png.idat := by decide
  have hiend : lit "IEND" = Png.iend := by decide
  have hheader := @wpcrc_chunk Png.signature Png.ihdr (bytes 4 x ++ bytes 4 y ++ [8, uchar c, 0, 0, 0]) rfl
  have hlen : (bytes 4 x ++ bytes 4 y ++ [8, uchar c, 0, 0, 0]).length = 13 := by simp
  rw [hlen, ← List.append_assoc, ← List.append_assoc, ← wp32_eq x, ← wp32_eq y] at hheader
  have hdata (front : Bytes) := @wpcrc_chunk front Png.idat zlib rfl
  have hend (front : Bytes) := @wpcrc_chunk front Png.iend [] rfl
  have hint : IsInt ((8 + 12 + 13 + 12 + zlib.length + 12 : Nat) : Int) := by constructor <;> omega
  have hfile : Png.signature ++ Png.chunk Png.ihdr (bytes 4 x ++ bytes 4 y ++ [8, uchar c, 0, 0, 0]) ++
      Png.chunk Png.idat zlib ++ Png.chunk Png.iend [] = Png.file x y (uchar c) zlib := rfl
  have htotal : (Png.file x y (uchar c) zlib).length = 8 + 12 + 13 + 12 + zlib.length + 12 := by
    rw [Png.file_length]
    omega
  simp only [List.length_nil, List.append_nil] at hend
  unfold writeChunks
  rw [hsig, hihdr, hidat, hiend]
  dsimp only
  rw [if_neg (not_not.2 hint), hc, Option.bind_eq_bind, Option.bind_some, hheader, Option.bind_eq_bind, Option.bind_some,
    hdata, Option.bind_eq_bind, Option.bind_some, hend, Option.bind_some, wp32_eq x, wp32_eq y, hfile,
    if_neg (not_not.2 htotal)]
  rfl

/-- The colour types of the writer are those of the format. -/
theorem colour_spec (hn : 0 < n) (hn' : n ≤ 4) :
    ∃ c : Int, [-1, 0, 4, 2, 6][n]? = some c ∧ Png.channelsOf (uchar c) = some n := by
  match n, hn, hn' with
  | 1, _, _ => exact ⟨0, rfl, by decide⟩
  | 2, _, _ => exact ⟨4, rfl, by decide⟩
  | 3, _, _ => exact ⟨2, rfl, by decide⟩
  | 4, _, _ => exact ⟨6, rfl, by decide⟩

/-- What holds of the sizes of a picture that is small enough. -/
theorem size_spec (hx : 0 < x) (hy : 0 < y) (hn : 0 < n) (hsize : (x * n + 1) * y ≤ 2 ^ 28) :
    IsInt ((x : Int) * n + 1) ∧ IsInt (((x : Int) * n + 1) * y) ∧ x < 2 ^ 32 ∧ y < 2 ^ 32 ∧
      storedSize ((x * n + 1) * y) < 2 ^ 30 := by
  have hfit : x * n + 1 ≤ (x * n + 1) * y := Nat.le_mul_of_pos_right _ hy
  have hyle : y ≤ (x * n + 1) * y := Nat.le_mul_of_pos_left y (Nat.succ_pos _)
  have hxle : x ≤ x * n := Nat.le_mul_of_pos_right x hn
  have hcast : ((x : Int) * n + 1) * y = ((x * n + 1) * y : Nat) := by push_cast; ring
  have hcast' : ((x : Int) * n + 1) = (x * n + 1 : Nat) := by push_cast; ring
  rw [hcast, hcast']
  refine ⟨⟨?_, ?_⟩, ⟨?_, ?_⟩, by omega, by omega, ?_⟩
  · omega
  · omega
  · omega
  · omega
  · unfold storedSize
    omega

theorem stbiZlibCompress_refused {malloc : Request → Bool} (hm : malloc .hashTable = false) (data : Bytes) (quality : Int) :
    stbiZlibCompress malloc data quality = some none := by
  unfold stbiZlibCompress
  rw [if_pos (by simp [hm])]
  rfl

section Sizes
variable {malloc : Request → Bool} {settings : Settings} {stride : Nat} (hx : 0 < x) (hy : 0 < y) (hn : 0 < n)
  (hcost : x * n < 2 ^ 24) (hsize : (x * n + 1) * y ≤ 2 ^ 28)
  (hstride : (if strideBytes = 0 then x * n else strideBytes) = stride)
  (hrows : ∀ j < y, stride * j + x * n ≤ pixels.length ∧ IsInt (stride * j))
include hx hy hn hcost hsize hstride hrows

theorem stbiWritePngToMem_written (hm : ∀ r, malloc r = true) (hn' : n ≤ 4) :
    ∃ png, stbiWritePngToMem settings malloc pixels strideBytes x y n = some (some png) ∧
      Png.decode png = some ⟨x, y, n, rowsOf pixels stride x y n⟩ ∧
      png.length ≤ storedSize ((x * n + 1) * y) + 63 := by
  obtain ⟨hline, hall, hx32, hy32, hstored⟩ := size_spec hx hy hn hsize
  have hfits : ¬(¬IsInt ((x : Int) * n + 1) ∨ ¬IsInt (((x : Int) * n + 1) * y)) := by
    rintro (h | h)
    · exact h hline
    · exact h hall
  have hgrant (r : Request) : ¬¬malloc r = true := not_not.2 (hm r)
  obtain ⟨filt, hfilt, hlen, hunfilter⟩ := filt_spec settings hx hn hcost hrows
  obtain ⟨zlib, hz, hzlen, -, hdecompress⟩ := @stbiZlibCompress_spec malloc (hm _) filt.flatten (hlen ▸ hsize)
    settings.writePngCompressionLevel
  obtain ⟨c, hc, hchannels⟩ := colour_spec hn hn'
  have hne : filt.flatten ≠ [] := by
    have hpos : 0 < (x * n + 1) * y := Nat.mul_pos (Nat.succ_pos _) hy
    intro h
    rw [h, List.length_nil] at hlen
    omega
  rw [hlen] at hzlen
  have hwrite := @writeChunks_eq x y n zlib c hc (by omega)
  refine ⟨Png.file x y (uchar c) zlib, ?_, ?_, ?_⟩
  · rw [stbiWritePngToMem]
    dsimp only
    rw [hstride, if_neg hfits, if_neg (hgrant .filt), if_neg (hgrant .lineBuffer), hfilt, Option.bind_eq_bind,
      Option.bind_some, hz, Option.bind_eq_bind, Option.bind_some]
    dsimp only
    rw [if_neg (hgrant .out), hwrite]
    rfl
  · exact Png.decode_file hx hx32 hy hy32 hchannels (by omega) (hdecompress hne) hunfilter
  · rw [Png.file_length]
    omega

/-- Whichever request is refused, nothing is written, and nothing outside the buffers is read before. -/
theorem stbiWritePngToMem_refused {r : Request} (hr : malloc r = false) :
    stbiWritePngToMem settings malloc pixels strideBytes x y n = some none := by
  obtain ⟨hline, hall, _⟩ := size_spec hx hy hn hsize
  have hfits : ¬(¬IsInt ((x : Int) * n + 1) ∨ ¬IsInt (((x : Int) * n + 1) * y)) := by
    rintro (h | h)
    · exact h hline
    · exact h hall
  obtain ⟨filt, hfilt, hlen, _⟩ := filt_spec settings hx hn hcost hrows
  rw [stbiWritePngToMem]
  dsimp only
  rw [hstride, if_neg hfits, hfilt, Option.bind_eq_bind, Option.bind_some]
  split
  · rfl
  split
  · rfl
  by_cases hm : malloc .hashTable = true
  · obtain ⟨zlib, hz, _⟩ := @stbiZlibCompress_spec malloc hm filt.flatten (hlen ▸ hsize)
      settings.writePngCompressionLevel
    rw [hz, Option.bind_eq_bind, Option.bind_some]
    dsimp only
    cases r <;> simp_all
  · rw [stbiZlibCompress_refused (Bool.eq_false_iff.2 hm)]
    rfl

end Sizes

/-- Rows without gaps are the whole picture. -/
theorem rowsOf_tight (h : pixels.length = x * n * y) : rowsOf pixels (x * n) x y n = pixels := by
  have htake : ∀ k, rowsOf pixels (x * n) x k n = pixels.take (x * n * k) := by
    intro k
    induction k with
    | zero => simp [rowsOf]
    | succ k ih =>
      unfold rowsOf rowOf at ih ⊢
      rw [List.range_succ, List.flatMap_append, ih, List.flatMap_singleton, Nat.mul_succ, List.take_add]
  rw [htake, ← h, List.take_length]

end File

end Stb

end RemoteScreenCapture
