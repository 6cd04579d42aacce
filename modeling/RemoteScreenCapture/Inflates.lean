import RemoteScreenCapture.Compress
/-!
# What the compressor writes

Whatever its hash table holds and however it was filled, the stream inflates to
the data: the invariant of the loops is that the bits written so far are codes
of the data read so far. No read or write is outside its buffer.
-/
open Lib Lib.BigEndian Lib.Bits Lib.Checksum Lib.Deflate

namespace RemoteScreenCapture

namespace Stb

/-! ## Stretchy buffers -/

/-- There is room for one more item, or no buffer yet. -/
def Sb.Ok (a : Sb) : Prop := a.items.length < a.m ∨ a = Sb.null

/-- A buffer takes one more item where there is room, and always if it has less than a gigabyte. -/
theorem Sb.push_room {a : Sb} (v : UInt8) (h : a.items.length + 1 < a.m) : a.push v = some ⟨a.items ++ [v], a.m⟩ := by
  have hg : ¬(a.m = 0 ∨ a.items.length + 1 ≥ a.m) := by omega
  unfold Sb.push Sb.needgrow
  simp only [hg, decide_false, Bool.false_eq_true, if_false, Option.bind_eq_bind, Option.bind_some]
  rw [if_pos (by omega)]

theorem Sb.Ok.push {a : Sb} (h : a.Ok) (v : UInt8) (hn : a.items.length + 1 < 2 ^ 30) :
    ∃ a', a.push v = some a' ∧ a'.items = a.items ++ [v] ∧ a'.Ok := by
  by_cases hroom : a.items.length + 1 < a.m
  · refine ⟨_, Sb.push_room v hroom, rfl, .inl ?_⟩
    simpa using hroom
  · have hm : ∃ m, (if a.m ≠ 0 then 2 * a.m + 1 else 1 + 1) = m ∧ IsInt m ∧ a.items.length + 1 < m := by
      rcases h with hlt | rfl
      · have hne : a.m ≠ 0 := by omega
        refine ⟨2 * a.m + 1, if_pos hne, ?_, by omega⟩
        constructor <;> omega
      · exact ⟨2, rfl, by decide, by decide⟩
    obtain ⟨m, hm, hint, hlt⟩ := hm
    have hgrow : a.growf 1 = some { a with m := m } := by
      unfold Sb.growf
      rw [hm]
      simp [hint]
    refine ⟨⟨a.items ++ [v], m⟩, ?_, rfl, .inl ?_⟩
    · have hg : a.m = 0 ∨ a.items.length + 1 ≥ a.m := by omega
      unfold Sb.push Sb.needgrow
      simp only [hg, decide_true, if_true, hgrow, Option.bind_eq_bind, Option.bind_some]
      rw [if_pos (by omega)]
    · simpa using hlt

/-! ## Bits -/

theorem uchar_natCast (n : Nat) : uchar n = .ofNat n := by
  unfold uchar
  apply UInt8.toNat_inj.1
  have hmod : ((n : Int) % 256).toNat = n % 256 := by omega
  rw [hmod]
  simp

/-- What has been written: whole bytes, and less than one more. -/
structure Writer.Ok (w : Writer) (bs : List Bool) : Prop where
  bits : ofBytes w.out.items ++ low w.bitcount w.bitbuf = bs
  count : w.bitcount < 8
  buf : w.bitbuf < 2 ^ w.bitcount
  out : w.out.Ok

theorem Writer.Ok.length {w : Writer} {bs : List Bool} (h : w.Ok bs) :
    bs.length = 8 * w.out.items.length + w.bitcount := by
  rw [← h.bits]
  simp

theorem zlibFlushf_spec {data : Sb} (hd : data.Ok) {bitbuffer bitcount : Nat} (hb : bitbuffer < 2 ^ bitcount)
    (hn : 8 * data.items.length + bitcount < 2 ^ 32) :
    ∃ w, zlibFlushf data bitbuffer bitcount = some w ∧ w.Ok (ofBytes data.items ++ low bitcount bitbuffer) := by
  induction bitcount using Nat.strong_induction_on generalizing data bitbuffer with
  | _ bitcount ih =>
    by_cases h8 : bitcount < 8
    · refine ⟨⟨data, bitbuffer, bitcount⟩, ?_, rfl, h8, hb, hd⟩
      unfold zlibFlushf
      split
      · omega
      · rfl
    · obtain ⟨n, rfl⟩ : ∃ n, bitcount = n + 8 := ⟨bitcount - 8, by omega⟩
      obtain ⟨data', hpush, hitems, hd'⟩ := hd.push (uchar bitbuffer) (by omega)
      have hb' : bitbuffer >>> 8 < 2 ^ n := by
        rw [Nat.shiftRight_eq_div_pow]
        rw [pow_add] at hb
        exact Nat.div_lt_of_lt_mul (by omega)
      have hlen : data'.items.length = data.items.length + 1 := by rw [hitems]; simp
      obtain ⟨w, hw, hok⟩ := ih n (by omega) hd' hb' (by omega)
      refine ⟨w, by rw [zlibFlushf, hpush]; exact hw, ?_⟩
      have hbyte : low 8 (uchar bitbuffer).toNat = low 8 bitbuffer := by
        rw [uchar_natCast, UInt8.toNat_ofNat', low_mod]
      rwa [hitems, ofBytes_append, ofBytes_cons, ofBytes_nil, List.append_nil, hbyte, Nat.shiftRight_eq_div_pow,
        List.append_assoc, ← low_add, Nat.add_comm 8 n] at hok

/-- Adding the low bits of a number, of at most 13 bits. -/
theorem Writer.Ok.zlibAdd {w : Writer} {bs : List Bool} (h : w.Ok bs) {code codebits : Nat} (hc : code < 2 ^ codebits)
    (h13 : codebits ≤ 13) (hn : bs.length + codebits < 2 ^ 32) :
    ∃ w', w.zlibAdd code codebits = some w' ∧ w'.Ok (bs ++ low codebits code) := by
  have hcount := h.count
  have hshift : code <<< w.bitcount < 2 ^ (w.bitcount + codebits) := by
    rw [Nat.shiftLeft_eq, pow_add, Nat.mul_comm]
    exact (Nat.mul_lt_mul_left (Nat.two_pow_pos _)).2 hc
  have hsmall : (2 : Nat) ^ (w.bitcount + codebits) ≤ 2 ^ 32 := Nat.pow_le_pow_right (by decide) (by omega)
  have hsum : w.bitbuf ||| (code <<< w.bitcount) % 2 ^ 32 = code <<< w.bitcount + w.bitbuf := by
    rw [Nat.mod_eq_of_lt (by omega), Nat.or_comm, Nat.shiftLeft_add_eq_or_of_lt h.buf]
  have hb : code <<< w.bitcount + w.bitbuf < 2 ^ (w.bitcount + codebits) := by
    have hbuf := h.buf
    have hstep : (code + 1) * 2 ^ w.bitcount ≤ 2 ^ codebits * 2 ^ w.bitcount := Nat.mul_le_mul_right _ hc
    rw [Nat.shiftLeft_eq, Nat.add_comm w.bitcount, pow_add]
    rw [Nat.succ_mul] at hstep
    omega
  have hlow : low (w.bitcount + codebits) (code <<< w.bitcount + w.bitbuf) = low w.bitcount w.bitbuf ++ low codebits code := by
    have hmod : (code <<< w.bitcount + w.bitbuf) % 2 ^ w.bitcount = w.bitbuf := by
      rw [Nat.shiftLeft_eq, Nat.mul_add_mod_self_right, Nat.mod_eq_of_lt h.buf]
    have hdiv : (code <<< w.bitcount + w.bitbuf) / 2 ^ w.bitcount = code := by
      rw [Nat.shiftLeft_eq, Nat.mul_comm, Nat.mul_add_div (Nat.two_pow_pos _), Nat.div_eq_of_lt h.buf, Nat.add_zero]
    rw [low_add, hdiv, ← low_mod, hmod]
  obtain ⟨w', hw', hok⟩ := zlibFlushf_spec h.out hb (by rw [h.length] at hn; omega)
  refine ⟨w', ?_, ?_⟩
  · rw [Writer.zlibAdd, hsum]
    exact hw'
  · rwa [hlow, ← List.append_assoc, h.bits] at hok

/-! ## Codes -/

theorem low_bitrevLoop (res code n k : Nat) : low (n + k) (bitrevLoop res code n) = high n code ++ low k res := by
  induction n generalizing res code k with
  | zero => rw [Nat.zero_add]; rfl
  | succ n ih =>
    have hbit : (res <<< 1) ||| (code &&& 1) = 2 * res + (code.testBit 0).toNat := by
      rw [testBit_zero_toNat, Nat.and_one_is_mod, ← Nat.shiftLeft_add_eq_or_of_lt (by omega), Nat.shiftLeft_eq]
      omega
    have hlow : low (k + 1) (2 * res + (code.testBit 0).toNat) = code.testBit 0 :: low k res := by
      rw [low]
      cases code.testBit 0 <;> simp [Nat.testBit_zero]; congr 1; omega
    rw [bitrevLoop, hbit, Nat.succ_add, Nat.add_comm n k, ← Nat.succ_add, Nat.add_comm _ n, ih, hlow,
      Nat.shiftRight_eq_div_pow, high_succ, List.append_assoc]
    rfl

theorem bitrevLoop_lt {res k : Nat} (h : res < 2 ^ k) (code n : Nat) : bitrevLoop res code n < 2 ^ (k + n) := by
  induction n generalizing res code k with
  | zero => exact h
  | succ n ih =>
    have hbit : (res <<< 1) ||| (code &&& 1) < 2 ^ (k + 1) := by
      rw [Nat.and_one_is_mod, ← Nat.shiftLeft_add_eq_or_of_lt (by omega), Nat.shiftLeft_eq, pow_succ]
      omega
    rw [bitrevLoop, Nat.add_comm n 1, ← Nat.add_assoc]
    exact ih hbit _

/-- The bits of a code come in the opposite order. -/
theorem Writer.Ok.zlibHuffa {w : Writer} {bs : List Bool} (h : w.Ok bs) (code : Nat) {n : Nat} (h13 : n ≤ 13)
    (hn : bs.length + n < 2 ^ 32) : ∃ w', w.zlibHuffa code n = some w' ∧ w'.Ok (bs ++ high n code) := by
  have hlt : zlibBitrev code n < 2 ^ n := by
    have := bitrevLoop_lt (show 0 < 2 ^ 0 by decide) code n
    rwa [Nat.zero_add] at this
  have hlow : low n (zlibBitrev code n) = high n code := by
    have := low_bitrevLoop 0 code n 0
    rwa [Nat.add_zero, low, List.append_nil] at this
  obtain ⟨w', hw', hok⟩ := h.zlibAdd hlt h13 hn
  exact ⟨w', hw', hlow ▸ hok⟩

section Codes
variable {w : Writer} {bs : List Bool}

theorem Writer.Ok.zlibHuff (h : w.Ok bs) (n : Nat) (hn : bs.length + 9 < 2 ^ 32) :
    ∃ w', w.zlibHuff n = some w' ∧ w'.Ok (bs ++ fixedCode n) := by
  unfold Writer.zlibHuff Writer.zlibHuff1 Writer.zlibHuff2 Writer.zlibHuff3 Writer.zlibHuff4 fixedCode
  simp only [← Nat.lt_succ_iff]
  split_ifs with h₁ h₂ h₃
  · exact h.zlibHuffa _ (by decide) (by omega)
  · rw [Nat.add_sub_assoc (by omega)]
    exact h.zlibHuffa _ (by decide) (by omega)
  · rw [Nat.zero_add]
    exact h.zlibHuffa _ (by decide) (by omega)
  · rw [Nat.add_sub_assoc (by omega)]
    exact h.zlibHuffa _ (by decide) (by omega)

theorem Writer.Ok.zlibHuffb (h : w.Ok bs) (b : UInt8) (hn : bs.length + 9 < 2 ^ 32) :
    ∃ w', w.zlibHuffb b.toNat = some w' ∧ w'.Ok (bs ++ fixedCode b.toNat) := by
  have hb : b.toNat ≤ 255 := Nat.le_of_lt_succ b.toNat_lt
  have heq : w.zlibHuffb b.toNat = w.zlibHuff b.toNat := by
    unfold Writer.zlibHuffb Writer.zlibHuff
    rw [if_pos hb]
  rw [heq]
  exact h.zlibHuff _ hn

/-! ## Matches -/

/-- The search in a table finds the code whose range a value is in. -/
theorem codeIndex_spec {v first last : Nat} {table : List Nat} (h : first ≤ v) (hlast : v < last) :
    ∃ j base next, codeIndex v (first :: table ++ [last]) = some j ∧ j ≤ table.length ∧
      (first :: table ++ [last])[j]? = some base ∧ (first :: table ++ [last])[j + 1]? = some next ∧ base ≤ v ∧ v < next := by
  induction table generalizing first with
  | nil =>
    have hv : ¬(v : Int) > last - 1 := by omega
    exact ⟨0, first, last, by simp [codeIndex, hv], le_rfl, rfl, rfl, h, hlast⟩
  | cons next table ih =>
    simp only [List.cons_append, codeIndex]
    split
    · obtain ⟨j, base, next', hj, hle, hbase, hnext, hrange⟩ := @ih next (by omega)
      simp only [List.cons_append] at hj hbase hnext
      refine ⟨j + 1, base, next', by rw [hj]; rfl, by simpa using hle, ?_, ?_, hrange⟩
      · simpa using hbase
      · simpa using hnext
    · exact ⟨0, first, next, rfl, by simp, rfl, rfl, h, by omega⟩

/-- The tables have the ranges of the length and distance codes. -/
theorem length_tables : ∀ j < 29, lengthc[j]? = some (lengthBase j) ∧ lengtheb[j]? = some (lengthExtra j) ∧
    ∃ next, lengthc[j + 1]? = some next ∧ next ≤ lengthBase j + 2 ^ lengthExtra j := by
  decide

theorem distance_tables : ∀ j < 30, distc[j]? = some (distanceBase j) ∧ disteb[j]? = some (distanceExtra j) ∧
    ∃ next, distc[j + 1]? = some next ∧ next ≤ distanceBase j + 2 ^ distanceExtra j := by
  decide

theorem codeIndex_lengthc {best : Nat} (h3 : 3 ≤ best) (h258 : best ≤ 258) :
    ∃ j < 29, codeIndex best lengthc = some j ∧ lengthBase j ≤ best ∧ best - lengthBase j < 2 ^ lengthExtra j := by
  obtain ⟨j, base, next, hj, hle, hbase, hnext, hge, hlt⟩ :=
    @codeIndex_spec best 3 259 (lengthc.tail.dropLast) h3 (by omega)
  obtain ⟨hbase', -, next', hnext', hwide⟩ := length_tables j (Nat.lt_succ_of_le hle)
  have hb : lengthBase j = base := Option.some.inj (hbase'.symm.trans hbase)
  have hn : next' = next := Option.some.inj (hnext'.symm.trans hnext)
  exact ⟨j, Nat.lt_succ_of_le hle, hj, by omega, by omega⟩

theorem codeIndex_distc {d : Nat} (h1 : 1 ≤ d) (hmax : d ≤ 32767) :
    ∃ j < 30, codeIndex d distc = some j ∧ distanceBase j ≤ d ∧ d - distanceBase j < 2 ^ distanceExtra j := by
  obtain ⟨j, base, next, hj, hle, hbase, hnext, hge, hlt⟩ :=
    @codeIndex_spec d 1 32768 (distc.tail.dropLast) h1 (by omega)
  obtain ⟨hbase', -, next', hnext', hwide⟩ := distance_tables j (Nat.lt_succ_of_le hle)
  have hb : distanceBase j = base := Option.some.inj (hbase'.symm.trans hbase)
  have hn : next' = next := Option.some.inj (hnext'.symm.trans hnext)
  exact ⟨j, Nat.lt_succ_of_le hle, hj, by omega, by omega⟩

/-- The offset of a value in the range of its code. -/
theorem Writer.Ok.zlibExtra (h : w.Ok bs) {base eb : List Nat} {v j first n : Nat} (hb : base[j]? = some first)
    (he : eb[j]? = some n) (hv : v - first < 2 ^ n) (h13 : n ≤ 13) (hn : bs.length + 13 < 2 ^ 32) :
    ∃ w', w.zlibExtra base eb v j = some w' ∧ w'.Ok (bs ++ low n (v - first)) := by
  unfold Writer.zlibExtra
  simp only [hb, he, Option.bind_eq_bind, Option.bind_some]
  split
  · exact h.zlibAdd hv h13 (by omega)
  · rename_i hzero
    have hn0 : n = 0 := not_not.1 hzero
    exact ⟨w, rfl, by rw [hn0, low, List.append_nil]; exact h⟩

/-- A match is written as a copy. -/
theorem Writer.Ok.zlibMatch (h : w.Ok bs) {best d : Nat} (h3 : 3 ≤ best) (h258 : best ≤ 258) (h1 : 1 ≤ d)
    (hmax : d ≤ 32767) (hn : bs.length + 40 < 2 ^ 32) :
    ∃ w' cs, w.zlibMatch best d = some w' ∧ Codes (.copy best d) cs ∧ w'.Ok (bs ++ cs) := by
  obtain ⟨j, hj29, hj, hjle, hjlt⟩ := codeIndex_lengthc h3 h258
  obtain ⟨k, hk30, hk, hkle, hklt⟩ := codeIndex_distc h1 hmax
  obtain ⟨hlbase, hlextra, -⟩ := length_tables j hj29
  obtain ⟨hdbase, hdextra, -⟩ := distance_tables k hk30
  have hl5 : lengthExtra j ≤ 5 := by
    unfold lengthExtra
    split_ifs <;> omega
  have hd13 : distanceExtra k ≤ 13 := by
    unfold distanceExtra
    split_ifs <;> omega
  have hcode := fixedCode_length_le (j + 257)
  obtain ⟨w₁, hw₁, hok₁⟩ := h.zlibHuff (j + 257) (by omega)
  obtain ⟨w₂, hw₂, hok₂⟩ := hok₁.zlibExtra hlbase hlextra hjlt (by omega)
    (by simp only [List.length_append]; omega)
  obtain ⟨w₃, hw₃, hok₃⟩ := hok₂.zlibHuffa k (by decide : 5 ≤ 13)
    (by simp only [List.length_append, low_length]; omega)
  obtain ⟨w₄, hw₄, hok₄⟩ := hok₃.zlibExtra hdbase hdextra hklt hd13
    (by simp only [List.length_append, low_length, high_length]; omega)
  have hcopy : Codes (.copy best d) (copyBits j (best - lengthBase j) k (d - distanceBase k)) := by
    have hcodes := Codes.copy hj29 hjlt hk30 hklt
    rwa [Nat.add_sub_of_le hjle, Nat.add_sub_of_le hkle] at hcodes
  refine ⟨w₄, _, ?_, hcopy, ?_⟩
  · unfold Writer.zlibMatch
    have hassert : ¬¬(d ≤ 32767 ∧ best ≤ 258) := not_not.2 ⟨hmax, h258⟩
    rw [if_neg hassert]
    simp only [hj, hw₁, hw₂, hk, Option.bind_eq_bind, Option.bind_some]
    rw [show w₂.zlibAdd (zlibBitrev k 5) 5 = some w₃ from hw₃]
    exact hw₄
  · simpa [copyBits, Nat.add_comm 257 j] using hok₄

end Codes

/-! ## The search -/

section Search
variable {data : Bytes}

theorem zhash_some {i : Nat} (h : i + 2 < data.length) : ∃ hash, zhash data i = some hash := by
  unfold zhash
  rw [List.getElem?_eq_getElem (by omega : i < data.length), List.getElem?_eq_getElem (by omega : i + 1 < data.length),
    List.getElem?_eq_getElem h]
  exact ⟨_, rfl⟩

/-- The count is of bytes that are the same, and ends within the data. -/
theorem zlibCountm_spec {a b limit : Nat} (hab : a ≤ b) (hb : b + limit ≤ data.length) :
    ∃ d, zlibCountm data a b limit = some d ∧ d ≤ limit ∧ d ≤ 258 ∧ ∀ k < d, data[a + k]? = data[b + k]? := by
  have hloop : ∀ n i, i ≤ limit → i + n = 258 → (∀ k < i, data[a + k]? = data[b + k]?) →
      ∃ d, countmLoop data a b limit n i = some d ∧ d ≤ limit ∧ d ≤ 258 ∧ ∀ k < d, data[a + k]? = data[b + k]? := by
    intro n
    induction n with
    | zero => exact fun i hi h258 hsame => ⟨i, rfl, hi, by omega, hsame⟩
    | succ n ih =>
      intro i hi h258 hsame
      rw [countmLoop]
      split
      · rename_i hlt
        have ha : data[a + i]? = some data[a + i] := List.getElem?_eq_getElem (by omega)
        have hb : data[b + i]? = some data[b + i] := List.getElem?_eq_getElem (by omega)
        rw [ha, hb]
        simp only [Option.bind_eq_bind, Option.bind_some]
        split
        · exact ⟨i, rfl, hi, by omega, hsame⟩
        · rename_i heq
          refine ih (i + 1) hlt (by omega) fun k hk => ?_
          rcases Nat.lt_succ_iff_lt_or_eq.1 hk with hk | rfl
          · exact hsame k hk
          · rw [ha, hb, not_not.1 heq]
      · exact ⟨i, rfl, hi, by omega, hsame⟩
  exact hloop 258 0 (Nat.zero_le _) rfl (by simp)

/-- `best` bytes at `loc` stand at `i` as well, and `loc` is in the window behind `i`. -/
structure MatchAt (data : Bytes) (i best loc : Nat) : Prop where
  before : loc < i
  window : i < loc + 32768
  least : 3 ≤ best
  most : best ≤ 258
  inside : i + best ≤ data.length
  same : ∀ k < best, data[loc + k]? = data[i + k]?

theorem findMatch_spec {i : Nat} (hi : i ≤ data.length) {hlist : List Nat} (hl : ∀ loc ∈ hlist, loc < i) {best : Nat}
    {bestloc : Option Nat} (h3 : 3 ≤ best) (hm : ∀ loc ∈ bestloc, MatchAt data i best loc) :
    ∃ best' bestloc', findMatch data i hlist best bestloc = some (best', bestloc') ∧
      ∀ loc ∈ bestloc', MatchAt data i best' loc := by
  induction hlist generalizing best bestloc with
  | nil => exact ⟨best, bestloc, rfl, hm⟩
  | cons loc hlist ih =>
    have hloc := hl loc (by simp)
    have hrest : ∀ loc ∈ hlist, loc < i := fun l h => hl l (by simp [h])
    rw [findMatch]
    split
    · rename_i hwin
      obtain ⟨d, hd, hlimit, h258, hsame⟩ := zlibCountm_spec hloc.le (show i + (data.length - i) ≤ data.length by omega)
      rw [hd]
      simp only [Option.bind_eq_bind, Option.bind_some]
      split
      · refine ih hrest (by omega) fun l hl => ?_
        cases hl
        exact ⟨hloc, hwin, by omega, h258, by omega, hsame⟩
      · exact ih hrest h3 hm
    · exact ih hrest h3 hm

theorem betterNext_some {i best : Nat} (hi : i < data.length) {hlist : List Nat} (hl : ∀ loc ∈ hlist, loc ≤ i) :
    ∃ better, betterNext data i best hlist = some better := by
  induction hlist with
  | nil => exact ⟨false, rfl⟩
  | cons loc hlist ih =>
    have hloc := hl loc (by simp)
    have hrest := ih fun l h => hl l (by simp [h])
    obtain ⟨e, he, -⟩ :=
      zlibCountm_spec (show loc ≤ i + 1 by omega) (show i + 1 + (data.length - i - 1) ≤ data.length by omega)
    rw [betterNext, he]
    simp only [Option.bind_eq_bind, Option.bind_some]
    split_ifs
    · exact ⟨true, rfl⟩
    · exact hrest
    · exact hrest

/-- A list of the table after a push has places of the lists before it, and the one that was pushed. -/
theorem mem_hlist_push {table : HashTable} {h i quality h' loc : Nat} (hl : loc ∈ (table.push h i quality).hlist h') :
    loc ∈ table.hlist h' ∨ loc = i := by
  unfold HashTable.push HashTable.hlist at hl
  simp only [List.lookup_cons] at hl
  unfold HashTable.hlist
  split at hl
  · rename_i heq
    rw [beq_iff_eq.1 heq]
    rw [Option.getD_some, List.mem_append, List.mem_singleton] at hl
    rcases hl with hl | rfl
    · left
      split at hl
      · exact List.mem_of_mem_drop hl
      · exact hl
    · exact .inr rfl
  · exact .inl hl

end Search

/-! ## The loops -/

/-- The bits before the first code. -/
def streamStart : List Bool := ofBytes [0x78, 0x5e] ++ low 1 1 ++ low 2 1

/-- The bits written so far are codes of the data before `i`, and the table has places before `i`. -/
structure Deflater.Ok (data : Bytes) (s : Deflater) : Prop where
  at_le : s.i ≤ data.length
  places : ∀ h, ∀ loc ∈ s.table.hlist h, loc < s.i
  written : ∃ bs, s.w.Ok (streamStart ++ bs) ∧ Written [] bs (data.take s.i)

/-- The codes of a number of bytes have room in a buffer of less than a gigabyte. -/
theorem written_short {bs : List Bool} {out : Bytes} (h : Written [] bs out) (hn : out.length ≤ 2 ^ 28) :
    (streamStart ++ bs).length + 40 < 2 ^ 32 := by
  have hle := h.length_le
  have hstart : streamStart.length = 19 := by decide
  rw [List.length_append, hstart]
  simp only [List.length_nil] at hle
  omega

section Loops
variable {data : Bytes}

/-- One pass writes the code of a literal or of a match. -/
theorem compressPass_spec {s : Deflater} (h : s.Ok data) (quality : Nat) (hi : s.i + 3 < data.length)
    (hn : data.length ≤ 2 ^ 28) : ∃ s', compressPass data quality s = some s' ∧ s'.Ok data ∧ s.i < s'.i := by
  obtain ⟨w, table, i⟩ := s
  obtain ⟨hle, hplaces, bs, hok, hwritten⟩ := h
  dsimp only at hle hplaces hok hwritten hi
  have hshort := written_short hwritten (by rw [List.length_take]; omega)
  obtain ⟨hash, hhash⟩ := @zhash_some data i (by omega)
  obtain ⟨hash', hhash'⟩ := @zhash_some data (i + 1) (by omega)
  obtain ⟨best, bestloc, hfind, hmatch⟩ := @findMatch_spec data i hle (table.hlist (hash &&& (ZHASH - 1)).toNat)
    (hplaces _) 3 none le_rfl (by simp)
  have hplaces' : ∀ h, ∀ loc ∈ (table.push (hash &&& (ZHASH - 1)).toNat i quality).hlist h, loc ≤ i := by
    intro h loc hl
    rcases mem_hlist_push hl with hl | rfl
    · exact (hplaces h loc hl).le
    · exact le_rfl
  unfold compressPass
  simp only [hhash, hfind, Option.bind_eq_bind, Option.bind_some]
  generalize table.push (hash &&& (ZHASH - 1)).toNat i quality = table' at hplaces' ⊢
  obtain ⟨better, hbetter⟩ := @betterNext_some data i best (by omega)
    (table'.hlist (hash' &&& (ZHASH - 1)).toNat) (hplaces' _)
  -- Whether there was no match or a better one is near, the byte is written as a literal.
  have hliteral : ∃ s', (data[i]?.bind fun b => (w.zlibHuffb b.toNat).bind fun w => pure ⟨w, table', i + 1⟩) = some s' ∧
      Deflater.Ok data s' ∧ i < s'.i := by
    have hget : data[i]? = some data[i] := List.getElem?_eq_getElem (by omega)
    obtain ⟨w', hw', hok'⟩ := hok.zlibHuffb data[i] (by omega)
    refine ⟨⟨w', table', i + 1⟩, ?_, ⟨by dsimp only; omega, fun h loc hl => Nat.lt_succ_of_le (hplaces' h loc hl), ?_⟩,
      Nat.lt_succ_self i⟩
    · rw [hget, Option.bind_some, hw']
      rfl
    · refine ⟨bs ++ fixedCode data[i].toNat, by rwa [← List.append_assoc], ?_⟩
      have hlit := hwritten.literal data[i]
      rwa [List.take_append_getElem] at hlit
  cases bestloc with
  | none => exact hliteral
  | some loc =>
    simp only [hhash', hbetter, Option.bind_some, pure]
    cases better with
    | true => exact hliteral
    | false =>
      obtain ⟨hbefore, hwindow, hleast, hmost, hinside, hsame⟩ := hmatch loc rfl
      obtain ⟨w', cs, hw', hcopy, hok'⟩ := hok.zlibMatch hleast hmost (show 1 ≤ i - loc by omega) (by omega) hshort
      have hback : i - (i - loc) = loc := by omega
      refine ⟨⟨w', table', i + best⟩, ?_, ⟨hinside, ?_, ?_⟩, by dsimp only; omega⟩
      · rw [if_neg (by decide)]
        simp only [hw', Option.bind_some]
      · intro h l hl
        have hl := hplaces' h l hl
        dsimp only
        omega
      · refine ⟨bs ++ cs, by rwa [← List.append_assoc], ?_⟩
        exact hwritten.copy hcopy (by omega) (by omega) hinside (by rwa [hback])

theorem compressLoop_spec {s : Deflater} (h : s.Ok data) (quality : Nat) (hn : data.length ≤ 2 ^ 28) {n : Nat}
    (hfuel : data.length < s.i + n) : ∃ s', compressLoop data quality n s = some s' ∧ s'.Ok data := by
  induction n generalizing s with
  | zero =>
    have := h.at_le
    omega
  | succ n ih =>
    rw [compressLoop]
    split
    · rename_i hi
      obtain ⟨s', hs', hok, hlt⟩ := compressPass_spec h quality hi hn
      rw [hs']
      exact ih hok (by omega)
    · exact ⟨s, rfl, h⟩

theorem writeFinal_spec {w : Writer} {bs : List Bool} {out rest : Bytes} (hok : w.Ok (streamStart ++ bs))
    (hwritten : Written [] bs out) (hn : (out ++ rest).length ≤ 2 ^ 28) :
    ∃ w' bs', writeFinal w rest = some w' ∧ w'.Ok (streamStart ++ bs') ∧ Written [] bs' (out ++ rest) := by
  induction rest generalizing w bs out with
  | nil => exact ⟨w, bs, rfl, hok, by rwa [List.append_nil]⟩
  | cons b rest ih =>
    have hshort := written_short hwritten (by rw [List.length_append] at hn; omega)
    obtain ⟨w₁, hw₁, hok₁⟩ := hok.zlibHuffb b (by omega)
    rw [List.append_assoc] at hok₁
    obtain ⟨w₂, bs₂, hw₂, hok₂, hwritten₂⟩ := ih hok₁ (hwritten.literal b) (by simpa using hn)
    refine ⟨w₂, bs₂, ?_, hok₂, by simpa using hwritten₂⟩
    unfold writeFinal at hw₂ ⊢
    rw [List.foldlM_cons, hw₁]
    exact hw₂

/-- Zero bits fill up the last byte. -/
theorem padLoop_spec {w : Writer} {bs : List Bool} (hok : w.Ok bs) {n m : Nat} (hm : m < 8) (hmn : m < n)
    (h8 : (bs.length + m) % 8 = 0) (hn : bs.length + m < 2 ^ 32) :
    ∃ w', padLoop n w = some w' ∧ w'.Ok (bs ++ List.replicate m false) ∧ w'.bitcount = 0 := by
  induction n generalizing w bs m with
  | zero => omega
  | succ n ih =>
    have hlen := hok.length
    have hcount := hok.count
    rw [padLoop]
    split
    · rename_i hne
      obtain ⟨m, rfl⟩ : ∃ k, m = k + 1 := ⟨m - 1, by omega⟩
      obtain ⟨w₁, hw₁, hok₁⟩ := hok.zlibAdd (show 0 < 2 ^ 1 by decide) (by decide) (by omega)
      have hzero : low 1 0 = [false] := by decide
      rw [hzero] at hok₁
      have hlen₁ : (bs ++ [false]).length = bs.length + 1 := by simp
      obtain ⟨w₂, hw₂, hok₂, hcount₂⟩ := ih hok₁ (m := m) (by omega) (by omega) (by rw [hlen₁]; omega)
        (by rw [hlen₁]; omega)
      refine ⟨w₂, by rw [hw₁]; exact hw₂, ?_, hcount₂⟩
      rwa [List.append_assoc, List.singleton_append, ← List.replicate_succ] at hok₂
    · rename_i hzero
      have hw0 : w.bitcount = 0 := not_not.1 hzero
      obtain rfl : m = 0 := by omega
      exact ⟨w, rfl, by simpa using hok, hw0⟩

/-! ## Stored data -/

theorem uchar_not (n : Nat) : uchar (~~~(n : Int)) = ~~~.ofNat n := by
  have hsize : UInt8.size = 256 := rfl
  have hnot : ~~~(n : Int) = -(n + 1 : Int) := Int.negSucc_eq n
  unfold uchar
  apply UInt8.toNat_inj.1
  rw [UInt8.toNat_not, UInt8.toNat_ofNat', UInt8.toNat_ofNat', hsize, hnot]
  omega

theorem uchar_not_shift (n : Nat) : uchar (~~~(n : Int) >>> (8 : Nat)) = ~~~.ofNat (n >>> 8) := uchar_not (n >>> 8)

/-- A block is stored where there is room for it. -/
theorem storeBlock_spec {j blocklen : Nat} (hle : j + blocklen ≤ data.length) {out : Sb}
    (hroom : out.items.length + (5 + blocklen) < out.m) :
    storeBlock data j blocklen out =
      some ⟨out.items ++ storedBlock (data.length - j = blocklen) ((data.drop j).take blocklen), out.m⟩ := by
  have hlen : ((data.drop j).take blocklen).length = blocklen := by
    rw [List.length_take, List.length_drop]
    omega
  have hpush (items : Bytes) (v : UInt8) (h : items.length ≤ out.items.length + 4) :
      (⟨items, out.m⟩ : Sb).push v = some ⟨items ++ [v], out.m⟩ := Sb.push_room v (by dsimp only; omega)
  unfold storeBlock
  rw [show out = ⟨out.items, out.m⟩ from rfl]
  rw [hpush _ _ (by omega)]
  simp only [Option.bind_eq_bind, Option.bind_some]
  rw [hpush _ _ (by simp)]
  simp only [Option.bind_some]
  rw [hpush _ _ (by simp)]
  simp only [Option.bind_some]
  rw [hpush _ _ (by simp)]
  simp only [Option.bind_some]
  rw [hpush _ _ (by simp)]
  simp only [Option.bind_some]
  rw [Sb.memcpy, if_pos (by simp only [List.length_append, List.length_singleton, hlen]; omega), uchar_not,
    uchar_not_shift, uchar_natCast, uchar_natCast, storedBlock, hlen, Nat.shiftRight_eq_div_pow]
  simp

/-- The bytes that `rest` bytes of data take, stored. -/
def storedSize (rest : Nat) : Nat := rest + (rest + 32766) / 32767 * 5

/-- All data is stored in blocks, where there is room for them. -/
theorem storeLoop_spec {j : Nat} (hj : j ≤ data.length) {out : Sb}
    (hroom : out.items.length + storedSize (data.length - j) < out.m) {n : Nat} (hn : data.length - j < n) :
    ∃ chunks, storeLoop data n j out = some ⟨out.items ++ storedBlocks chunks, out.m⟩ ∧
      (storedBlocks chunks).length = storedSize (data.length - j) ∧
        chunks.flatten = data.drop j ∧ (∀ chunk ∈ chunks, chunk.length < 2 ^ 16) ∧ (j < data.length → chunks ≠ []) := by
  induction n generalizing j out with
  | zero => omega
  | succ n ih =>
    rw [storeLoop]
    split
    · rename_i hlt
      obtain ⟨blocklen, hb⟩ : ∃ blocklen, blocklen = if data.length - j > 32767 then 32767 else data.length - j := ⟨_, rfl⟩
      have hpos : 0 < blocklen ∧ blocklen ≤ 32767 ∧ j + blocklen ≤ data.length := by
        rw [hb]
        split <;> omega
      obtain ⟨hpos, hmax, hle⟩ := hpos
      have hsplit : storedSize (data.length - j) = 5 + blocklen + storedSize (data.length - (j + blocklen)) := by
        unfold storedSize
        split at hb <;> omega
      have hlen : ((data.drop j).take blocklen).length = blocklen := by
        rw [List.length_take, List.length_drop]
        omega
      have hblock (last : Bool) : (storedBlock last ((data.drop j).take blocklen)).length = 5 + blocklen := by
        rw [storedBlock, List.length_append, hlen]
        rfl
      have hfront : (data.drop j).take blocklen ++ data.drop (j + blocklen) = data.drop j := by
        rw [← List.drop_drop, List.take_append_drop]
      simp only [← hb]
      rw [storeBlock_spec hle (by omega)]
      obtain ⟨chunks, hchunks, hsize, hflat, hsmall, hne⟩ := @ih (j + blocklen) hle
        ⟨out.items ++ storedBlock (data.length - j = blocklen) ((data.drop j).take blocklen), out.m⟩
        (by simp only [List.length_append, hblock]; omega) (by omega)
      -- The flag of the block says whether there are more.
      have hcons : storedBlock (data.length - j = blocklen) ((data.drop j).take blocklen) ++ storedBlocks chunks =
          storedBlocks ((data.drop j).take blocklen :: chunks) := by
        by_cases hlast : data.length - j = blocklen
        · have hnil : chunks = [] := by
            have hzero : storedSize (data.length - (j + blocklen)) = 0 := by
              rw [show data.length - (j + blocklen) = 0 by omega]
              rfl
            cases chunks with
            | nil => rfl
            | cons chunk chunks =>
              have hpos : 0 < (storedBlocks (chunk :: chunks)).length := by
                cases chunks <;> simp [storedBlocks, storedBlock]
              omega
          subst hnil
          simp [storedBlocks, hlast]
        · obtain ⟨chunk, chunks, rfl⟩ := List.exists_cons_of_ne_nil (hne (by omega))
          simp [storedBlocks, hlast]
      refine ⟨(data.drop j).take blocklen :: chunks, ?_, ?_, ?_, ?_, by simp⟩
      · rw [← hcons, ← List.append_assoc]
        exact hchunks
      · rw [← hcons, List.length_append, hblock, hsize, hsplit]
      · rw [List.flatten_cons, hflat, hfront]
      · intro chunk hc
        rcases List.mem_cons.1 hc with rfl | hc
        · rw [hlen]
          omega
        · exact hsmall chunk hc
    · rename_i hge
      have hzero : data.length - j = 0 := by omega
      refine ⟨[], by simp [storedBlocks], by rw [hzero]; rfl, ?_, by simp, fun h => absurd h hge⟩
      rw [List.drop_eq_nil_of_le (by omega)]
      rfl

/-! ## The checksum -/

/-- Sums that fit in 32 bits. -/
theorem adlerBlock_toNat {s : UInt32 × UInt32} {block : Bytes}
    (h₁ : (adlerSums (s.1.toNat, s.2.toNat) block).1 < 2 ^ 32)
    (h₂ : (adlerSums (s.1.toNat, s.2.toNat) block).2 < 2 ^ 32) :
    ((adlerBlock s block).1.toNat, (adlerBlock s block).2.toNat) = adlerSums (s.1.toNat, s.2.toNat) block := by
  induction block generalizing s with
  | nil => rfl
  | cons b block ih =>
    have hle := le_adlerSums (s.1.toNat + b.toNat, s.2.toNat + (s.1.toNat + b.toNat)) block
    change (adlerSums (s.1.toNat + b.toNat, s.2.toNat + (s.1.toNat + b.toNat)) block).1 < 2 ^ 32 at h₁
    change (adlerSums (s.1.toNat + b.toNat, s.2.toNat + (s.1.toNat + b.toNat)) block).2 < 2 ^ 32 at h₂
    have hs₁ : (s.1 + b.toUInt32).toNat = s.1.toNat + b.toNat := by
      rw [UInt32.toNat_add, UInt8.toNat_toUInt32, Nat.mod_eq_of_lt (by dsimp only at hle; omega)]
    have hs₂ : (s.2 + (s.1 + b.toUInt32)).toNat = s.2.toNat + (s.1.toNat + b.toNat) := by
      rw [UInt32.toNat_add, hs₁, Nat.mod_eq_of_lt (by dsimp only at hle; omega)]
    have ih := @ih (s.1 + b.toUInt32, s.2 + (s.1 + b.toUInt32))
    simp only [hs₁, hs₂] at ih
    exact ih h₁ h₂

/-- Sums of at most 5552 bytes never leave 32 bits, and are reduced to those of
the definition. -/
theorem adlerBlock_spec {s : UInt32 × UInt32} {block : Bytes} (h₁ : s.1.toNat < 65521) (h₂ : s.2.toNat < 65521)
    (hb : block.length ≤ 5552) :
    (((adlerBlock s block).1 % 65521).toNat, ((adlerBlock s block).2 % 65521).toNat) =
      block.foldl adlerStep (s.1.toNat, s.2.toNat) := by
  obtain ⟨hle₁, hle₂⟩ := adlerSums_le (s.1.toNat, s.2.toNat) block
  have hsquare : block.length * (block.length + 1) ≤ 5552 * 5553 := Nat.mul_le_mul hb (by omega)
  have hproduct : 2 * block.length * s.1.toNat ≤ 2 * 5552 * 65520 := Nat.mul_le_mul (by omega) (by omega)
  have hsums := @adlerBlock_toNat s block (by dsimp only at hle₁; omega) (by dsimp only at hle₂; omega)
  have hmod := adler_sums (s.1.toNat, s.2.toNat) block
  rw [← hsums, Nat.mod_eq_of_lt h₁, Nat.mod_eq_of_lt h₂] at hmod
  rw [← hmod, UInt32.toNat_mod, UInt32.toNat_mod]
  rfl

theorem adlerLoop_spec {j blocklen : Nat} {s : UInt32 × UInt32} (h₁ : s.1.toNat < 65521) (h₂ : s.2.toNat < 65521)
    (hb : blocklen ≤ 5552) (hj : j < data.length → j + blocklen ≤ data.length)
    (hmod : (data.length - j) % 5552 = blocklen % 5552) {n : Nat}
    (hn : data.length - j + (if blocklen = 0 then 1 else 0) < n) :
    ∃ s', adlerLoop data n j blocklen s = some s' ∧
      (s'.1.toNat, s'.2.toNat) = (data.drop j).foldl adlerStep (s.1.toNat, s.2.toNat) := by
  induction n generalizing j blocklen s with
  | zero => omega
  | succ n ih =>
    rw [adlerLoop]
    split
    · rename_i hlt
      have hle := hj hlt
      rw [if_neg (by omega)]
      have hlen : ((data.drop j).take blocklen).length ≤ 5552 := by
        rw [List.length_take]
        omega
      have hblock := adlerBlock_spec h₁ h₂ hlen
      generalize adlerBlock s ((data.drop j).take blocklen) = sums at hblock ⊢
      have hlt₁ : (sums.1 % 65521).toNat < 65521 := by
        rw [UInt32.toNat_mod]
        exact Nat.mod_lt _ (by decide)
      have hlt₂ : (sums.2 % 65521).toNat < 65521 := by
        rw [UInt32.toNat_mod]
        exact Nat.mod_lt _ (by decide)
      obtain ⟨s', hs', hfold⟩ := @ih (j + blocklen) 5552 (sums.1 % 65521, sums.2 % 65521) hlt₁ hlt₂ le_rfl (by omega)
        (by omega) (by rw [if_neg (by decide)]; split at hn <;> omega)
      refine ⟨s', hs', ?_⟩
      rw [hfold]
      dsimp only
      rw [hblock, ← List.foldl_append, ← List.drop_drop, List.take_append_drop]
    · rw [List.drop_eq_nil_of_le (by omega)]
      exact ⟨s, rfl, rfl⟩

/-! ## The stream -/

/-- The stream in the fixed codes, up to its last byte. -/
theorem codes_spec (hn : data.length ≤ 2 ^ 28) (quality : Nat) :
    ∃ s w₁ w₂ w₃ stream, compressLoop data quality (data.length + 1) ⟨⟨⟨[0x78, 0x5e], 5⟩, 3, 3⟩, [], 0⟩ = some s ∧
      writeFinal s.w (data.drop s.i) = some w₁ ∧ w₁.zlibHuff 256 = some w₂ ∧ padLoop 9 w₂ = some w₃ ∧
        w₃.out.items = 0x78 :: 0x5e :: stream ∧ w₃.out.Ok ∧ 2 ≤ stream.length ∧
          ∀ rest, inflate (stream ++ rest) = some (data, rest) := by
  have hstart : Deflater.Ok data ⟨⟨⟨[0x78, 0x5e], 5⟩, 3, 3⟩, [], 0⟩ := by
    refine ⟨Nat.zero_le _, by simp [HashTable.hlist], [], ⟨by decide, by decide, by decide, .inl (by decide)⟩, .nil⟩
  obtain ⟨s, hs, hle, -, bs, hok, hwritten⟩ := @compressLoop_spec data _ hstart quality hn (data.length + 1) (by simp)
  obtain ⟨w₁, bs₁, hw₁, hok₁, hwritten₁⟩ :=
    @writeFinal_spec s.w bs (data.take s.i) (data.drop s.i) hok hwritten (by rwa [List.take_append_drop])
  rw [List.take_append_drop] at hwritten₁
  have hshort := written_short hwritten₁ hn
  obtain ⟨w₂, hw₂, hok₂⟩ := hok₁.zlibHuff 256 (by omega)
  have hend : (fixedCode 256).length = 7 := by decide
  have hlen : (streamStart ++ bs₁ ++ fixedCode 256).length = (streamStart ++ bs₁).length + 7 := by
    rw [List.length_append, hend]
  obtain ⟨m, hm⟩ : ∃ m, m = (8 - (streamStart ++ bs₁ ++ fixedCode 256).length % 8) % 8 := ⟨_, rfl⟩
  obtain ⟨w₃, hw₃, hok₃, hcount⟩ := @padLoop_spec w₂ _ hok₂ 9 m (by omega) (by omega) (by omega) (by omega)
  have hbits := hok₃.bits
  rw [hcount, low, List.append_nil] at hbits
  have hcut : streamStart ++ bs₁ ++ fixedCode 256 ++ List.replicate m false =
      ofBytes [0x78, 0x5e] ++ (low 1 1 ++ low 2 1 ++ bs₁ ++ fixedCode 256 ++ List.replicate m false) := by
    simp only [streamStart, List.append_assoc]
  rw [hcut] at hbits
  obtain ⟨stream, hitems, hstream⟩ := ofBytes_split hbits
  refine ⟨s, w₁, w₂, w₃, stream, hs, hw₁, hw₂, hw₃, hitems, hok₃.out, ?_, fun rest => ?_⟩
  · have hlen := congrArg List.length hstream
    simp only [ofBytes_length, List.length_append, low_length, hend] at hlen
    omega
  · apply @inflate_fixed data bs₁ (stream ++ rest) rest (List.replicate m false) hwritten₁
    · rw [List.length_replicate]
      omega
    · rw [ofBytes_append, hstream]

/-- The checksum behind the stream. -/
theorem checksum_spec {out : Sb} (hout : out.Ok) (hn : out.items.length ≤ 2 ^ 29) :
    ∃ s out₁ out₂ out₃ out₄, adlerLoop data (data.length + 2) 0 (data.length % 5552) (1, 0) = some s ∧
      out.push (uchar (s.2 >>> 8).toNat) = some out₁ ∧ out₁.push (uchar s.2.toNat) = some out₂ ∧
        out₂.push (uchar (s.1 >>> 8).toNat) = some out₃ ∧ out₃.push (uchar s.1.toNat) = some out₄ ∧
          out₄.items = out.items ++ bytes 4 (adler32 data) := by
  have hmod : data.length % 5552 ≤ data.length := Nat.mod_le _ _
  obtain ⟨s, hs, hsums⟩ := @adlerLoop_spec data 0 (data.length % 5552) (1, 0) (by decide) (by decide)
    (Nat.mod_lt _ (by decide)).le (by omega) (by omega) (data.length + 2) (by split <;> omega)
  have hlt : ∀ (t : Nat × Nat) (l : Bytes), t.1 < 65521 → t.2 < 65521 →
      (l.foldl adlerStep t).1 < 65521 ∧ (l.foldl adlerStep t).2 < 65521 := by
    intro t l
    induction l generalizing t with
    | nil => exact fun h₁ h₂ => ⟨h₁, h₂⟩
    | cons b l ih => exact fun _ _ => ih _ (Nat.mod_lt _ (by decide)) (Nat.mod_lt _ (by decide))
  have hsmall := hlt (1, 0) data (by decide) (by decide)
  rw [List.drop_zero] at hsums
  have hadler : adler32 data = s.2.toNat * 65536 + s.1.toNat := by
    unfold adler32
    rw [show ((1, 0) : Nat × Nat) = ((1 : UInt32).toNat, (0 : UInt32).toNat) from rfl, ← hsums]
  have hs₁ : s.1.toNat < 65521 := by
    have := hsmall.1
    rw [show ((1, 0) : Nat × Nat) = ((1 : UInt32).toNat, (0 : UInt32).toNat) from rfl, ← hsums] at this
    exact this
  have hs₂ : s.2.toNat < 65521 := by
    have := hsmall.2
    rw [show ((1, 0) : Nat × Nat) = ((1 : UInt32).toNat, (0 : UInt32).toNat) from rfl, ← hsums] at this
    exact this
  obtain ⟨out₁, h₁, hi₁, ho₁⟩ := hout.push (uchar (s.2 >>> 8).toNat) (by omega)
  obtain ⟨out₂, h₂, hi₂, ho₂⟩ := ho₁.push (uchar s.2.toNat) (by rw [hi₁, List.length_append, List.length_singleton]; omega)
  obtain ⟨out₃, h₃, hi₃, ho₃⟩ := ho₂.push (uchar (s.1 >>> 8).toNat)
    (by simp only [hi₂, hi₁, List.length_append, List.length_singleton]; omega)
  obtain ⟨out₄, h₄, hi₄, ho₄⟩ := ho₃.push (uchar s.1.toNat)
    (by simp only [hi₃, hi₂, hi₁, List.length_append, List.length_singleton]; omega)
  refine ⟨s, out₁, out₂, out₃, out₄, hs, h₁, h₂, h₃, h₄, ?_⟩
  have hbytes : bytes 4 (adler32 data) =
      [uchar (s.2 >>> 8).toNat, uchar s.2.toNat, uchar (s.1 >>> 8).toNat, uchar s.1.toNat] := by
    have hshift (x : UInt32) : (x >>> 8).toNat = x.toNat / 256 := by
      rw [UInt32.toNat_shiftRight, Nat.shiftRight_eq_div_pow]
      rfl
    have hbyte {a b : Nat} (h : a % 256 = b % 256) : UInt8.ofNat a = UInt8.ofNat b := by
      apply UInt8.toNat_inj.1
      rw [UInt8.toNat_ofNat', UInt8.toNat_ofNat']
      exact h
    simp only [uchar_natCast, hshift, hadler, bytes, List.nil_append, List.cons_append]
    congr 1
    · exact hbyte (by omega)
    · congr 1
      · exact hbyte (by omega)
      · congr 1
        · exact hbyte (by omega)
        · congr 1
          exact hbyte (by omega)
  rw [hi₄, hi₃, hi₂, hi₁, hbytes]
  simp

/-- The smaller of the two forms. -/
theorem smaller_spec {out : Sb} {stream : Bytes} (hitems : out.items = 0x78 :: 0x5e :: stream) (hout : out.Ok)
    (hlen : 2 ≤ stream.length) (hinflate : ∀ rest, inflate (stream ++ rest) = some (data, rest)) :
    ∃ out' stream', (if out.items.length > data.length + 2 + ((data.length + 32766) / 32767) * 5 then
        storeLoop data (data.length + 1) 0 { out with items := out.items.take 2 } else some out) = some out' ∧
      out'.items = 0x78 :: 0x5e :: stream' ∧ out'.Ok ∧ out'.items.length ≤ storedSize data.length + 2 ∧
        (data = [] → stream' = []) ∧ (data ≠ [] → ∀ rest, inflate (stream' ++ rest) = some (data, rest)) := by
  split
  · rename_i hworse
    have hroom : out.items.length < out.m := by
      rcases hout with h | rfl
      · exact h
      · cases hitems
    have htake : out.items.take 2 = [0x78, 0x5e] := by rw [hitems]; rfl
    obtain ⟨chunks, hstore, hsize, hflat, hsmall, hne⟩ :=
      @storeLoop_spec data 0 (Nat.zero_le _) ⟨[0x78, 0x5e], out.m⟩
        (by rw [Nat.sub_zero, storedSize]; simp only [List.length_cons, List.length_nil]; omega)
        (data.length + 1) (by omega)
    rw [Nat.sub_zero] at hsize
    rw [htake]
    refine ⟨_, storedBlocks chunks, hstore, rfl, .inl ?_, ?_, ?_, fun hd rest => ?_⟩
    · simp only [List.length_append, List.length_cons, List.length_nil, hsize, storedSize]
      omega
    · simp only [List.length_append, List.length_cons, List.length_nil, hsize]
      omega
    · rintro rfl
      exact List.length_eq_zero_iff.1 hsize
    · rw [inflate_stored (hne (List.length_pos_iff.2 hd)) hsmall, hflat, List.drop_zero]
  · rename_i hbetter
    refine ⟨out, stream, rfl, hitems, hout, ?_, ?_, fun _ => hinflate⟩
    · rw [storedSize]
      omega
    · rintro rfl
      rw [hitems] at hbetter
      simp only [List.length_cons, List.length_nil] at hbetter
      omega

end Loops

theorem bind_of_eq {α β : Type} {x : Option α} {a : α} {f : α → Option β} (h : x = some a) : (x >>= f) = f a := by
  rw [h]
  rfl

/-- One run of the compressor, with the stream it returns. -/
theorem stbiZlibCompress_spec {malloc : Request → Bool} (hm : malloc .hashTable = true) {data : Bytes}
    (hn : data.length ≤ 2 ^ 28) (quality : Int) :
    ∃ out, stbiZlibCompress malloc data quality = some (some out) ∧ out.length ≤ storedSize data.length + 6 ∧
      (data = [] → Zlib.decompress out = none) ∧ (data ≠ [] → Zlib.decompress out = some data) := by
  obtain ⟨s, w₁, w₂, w₃, stream, hs, hw₁, hw₂, hw₃, hitems, hok, hlen, hinflate⟩ :=
    codes_spec hn (if quality < 5 then 5 else quality.toNat)
  obtain ⟨out, stream', hout, hitems', hok', hle, hempty, hdata⟩ := smaller_spec hitems hok hlen hinflate
  obtain ⟨sums, out₁, out₂, out₃, out₄, hsums, h₁, h₂, h₃, h₄, hchecked⟩ :=
    @checksum_spec data out hok' (by rw [storedSize] at hle; omega)
  refine ⟨out₄.items, ?_, ?_, ?_⟩
  · have hpush₁ : Sb.null.push 0x78 = some ⟨[0x78], 2⟩ := by decide
    have hpush₂ : Sb.push ⟨[0x78], 2⟩ 0x5e = some ⟨[0x78, 0x5e], 5⟩ := by decide
    have hadd₁ : Writer.zlibAdd ⟨⟨[0x78, 0x5e], 5⟩, 0, 0⟩ 1 1 = some ⟨⟨[0x78, 0x5e], 5⟩, 1, 1⟩ := by decide
    have hadd₂ : Writer.zlibAdd ⟨⟨[0x78, 0x5e], 5⟩, 1, 1⟩ 1 2 = some ⟨⟨[0x78, 0x5e], 5⟩, 3, 3⟩ := by decide
    rw [stbiZlibCompress, if_neg (not_not.2 hm)]
    dsimp only
    rw [bind_of_eq hpush₁, bind_of_eq hpush₂, bind_of_eq hadd₁, bind_of_eq hadd₂, bind_of_eq hs, bind_of_eq hw₁,
      bind_of_eq hw₂, bind_of_eq hw₃]
    split at hout
    · rename_i hworse
      rw [if_pos hworse, bind_of_eq hout, bind_of_eq hsums, bind_of_eq h₁, bind_of_eq h₂, bind_of_eq h₃, bind_of_eq h₄]
      rfl
    · rename_i hbetter
      rw [if_neg hbetter, bind_of_eq hout, bind_of_eq hsums, bind_of_eq h₁, bind_of_eq h₂, bind_of_eq h₃, bind_of_eq h₄]
      rfl
  · rw [hchecked, List.length_append, bytes_length]
    omega
  · have hheader : Zlib.HeaderOk 0x78 0x5e := by decide
    rw [hchecked, hitems']
    constructor
    · rintro rfl
      rw [hempty rfl]
      decide
    · intro hd
      exact Zlib.decompress_of_inflate hheader (hdata hd _)

end Stb

end RemoteScreenCapture
