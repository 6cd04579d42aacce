import RemoteScreenCapture.Lib.Bits
/-!
# Deflate

What a stream of compressed data means: blocks of stored bytes, and blocks of
literals and copies in the fixed codes. Blocks that bring codes of their own
are not read. A writer is right if `inflate` gives back its data; the rules
for that say what the next token adds to the bytes so far (`Written.literal`,
`Written.copy`) and when a stream is complete (`inflate_fixed`, `inflate_stored`).
-/
open Lib.Bits

namespace Lib.Deflate

/-! ## Numbers and symbols -/

/-- The next `n` bits, as a number and low bit first. -/
def takeNumber (n : Nat) (bs : List Bool) : Option (Nat × List Bool) :=
  if n ≤ bs.length then some (number (bs.take n), bs.drop n) else none

/-- The next `n` bits, as a number and high bit first. -/
def takeCode (n : Nat) (bs : List Bool) : Option (Nat × List Bool) :=
  if n ≤ bs.length then some (number (bs.take n).reverse, bs.drop n) else none

/-- The fixed code of a literal or length symbol. -/
def fixedCode (symbol : Nat) : List Bool :=
  if symbol < 144 then high 8 (0x30 + symbol)
  else if symbol < 256 then high 9 (0x190 + (symbol - 144))
  else if symbol < 280 then high 7 (symbol - 256)
  else high 8 (0xC0 + (symbol - 280))

/-- The next symbol in the fixed codes, which have 7, 8 or 9 bits. -/
def takeSymbol (bs : List Bool) : Option (Nat × List Bool) := do
  let (code, rest) ← takeCode 7 bs
  if code < 24 then return (256 + code, rest)
  let (code, rest) ← takeCode 8 bs
  if code < 192 then return (code - 0x30, rest)
  if code < 200 then return (280 + (code - 0xC0), rest)
  let (code, rest) ← takeCode 9 bs
  return (144 + (code - 0x190), rest)

section Numbers
variable {n v : Nat} {rest : List Bool}

theorem takeNumber_low (h : v < 2 ^ n) : takeNumber n (low n v ++ rest) = some (v, rest) := by
  have hn : n ≤ (low n v ++ rest).length := by simp
  rw [takeNumber, if_pos hn, List.take_left' (low_length n v), List.drop_left' (low_length n v), number_low h]

theorem takeCode_high (h : v < 2 ^ n) : takeCode n (high n v ++ rest) = some (v, rest) := by
  have hn : n ≤ (high n v ++ rest).length := by simp
  rw [takeCode, if_pos hn, List.take_left' (high_length n v), List.drop_left' (high_length n v), high,
    List.reverse_reverse, number_low h]

/-- The start of a code, read on its own. -/
theorem takeCode_high_succ (h : v < 2 ^ (n + 1)) :
    takeCode n (high (n + 1) v ++ rest) = some (v / 2, v.testBit 0 :: rest) := by
  have hv : v / 2 < 2 ^ n := by
    rw [pow_succ] at h
    omega
  rw [high_succ, List.append_assoc]
  exact takeCode_high hv

theorem takeCode_high_succ_succ (h : v < 2 ^ (n + 2)) :
    takeCode n (high (n + 2) v ++ rest) = some (v / 4, (v / 2).testBit 0 :: v.testBit 0 :: rest) := by
  have hv : v / 2 < 2 ^ (n + 1) := by
    rw [pow_succ] at h
    omega
  rw [high_succ, List.append_assoc, takeCode_high_succ hv, Nat.div_div_eq_div_mul]
  rfl

theorem takeSymbol_fixedCode {symbol : Nat} (h : symbol < 288) (rest : List Bool) :
    takeSymbol (fixedCode symbol ++ rest) = some (symbol, rest) := by
  unfold fixedCode takeSymbol
  split_ifs with h₁ h₂ h₃
  · have h8 : 0x30 + symbol < 2 ^ 8 := by omega
    have hstart := @takeCode_high_succ 7 _ rest h8
    have hall := @takeCode_high 8 _ rest h8
    rw [hstart, hall]
    simp [show ¬(0x30 + symbol) / 2 < 24 by omega, show 0x30 + symbol < 192 by omega]
  · have h9 : 0x190 + (symbol - 144) < 2 ^ 9 := by omega
    have h7 := @takeCode_high_succ_succ 7 _ rest h9
    have h8 := @takeCode_high_succ 8 _ rest h9
    have hall := @takeCode_high 9 _ rest h9
    rw [h7, h8, hall]
    simp [show ¬(0x190 + (symbol - 144)) / 4 < 24 by omega, show ¬(0x190 + (symbol - 144)) / 2 < 192 by omega,
      show ¬(0x190 + (symbol - 144)) / 2 < 200 by omega]
    omega
  · have h7 : symbol - 256 < 2 ^ 7 := by omega
    have hall := @takeCode_high 7 _ rest h7
    rw [hall]
    simp [show symbol - 256 < 24 by omega]
    omega
  · have h8 : 0xC0 + (symbol - 280) < 2 ^ 8 := by omega
    have hstart := @takeCode_high_succ 7 _ rest h8
    have hall := @takeCode_high 8 _ rest h8
    rw [hstart, hall]
    simp [show ¬(0xC0 + (symbol - 280)) / 2 < 24 by omega, show 0xC0 + (symbol - 280) < 200 by omega]
    omega

end Numbers

/-! ## Tokens -/

/-- What a symbol and the bits behind it stand for. -/
inductive Token where
  | literal (b : UInt8)
  | copy (length distance : Nat)
  deriving DecidableEq, Repr

/-- The number of bits behind the length symbol `257 + code`. -/
def lengthExtra (code : Nat) : Nat := if code < 8 ∨ code = 28 then 0 else (code - 4) / 4

/-- The least length of the length symbol `257 + code`. -/
def lengthBase (code : Nat) : Nat :=
  if code < 8 then 3 + code else if code = 28 then 258 else 3 + (4 + code % 4) * 2 ^ lengthExtra code

def distanceExtra (code : Nat) : Nat := if code < 4 then 0 else (code - 2) / 2

def distanceBase (code : Nat) : Nat := if code < 4 then 1 + code else 1 + (2 + code % 2) * 2 ^ distanceExtra code

/-- The bits of a copy, by the codes and the offsets of its length and its distance. -/
def copyBits (lengthCode lengthOffset distanceCode distanceOffset : Nat) : List Bool :=
  fixedCode (257 + lengthCode) ++ low (lengthExtra lengthCode) lengthOffset ++ high 5 distanceCode ++
    low (distanceExtra distanceCode) distanceOffset

/-- The next token, or none at the end of the block. -/
def takeToken (bs : List Bool) : Option (Option Token × List Bool) := do
  let (symbol, bs) ← takeSymbol bs
  if symbol < 256 then return (some (.literal (.ofNat symbol)), bs)
  if symbol = 256 then return (none, bs)
  let lengthCode := symbol - 257
  if lengthCode ≥ 29 then failure
  let (lengthOffset, bs) ← takeNumber (lengthExtra lengthCode) bs
  let (distanceCode, bs) ← takeCode 5 bs
  if distanceCode ≥ 30 then failure
  let (distanceOffset, bs) ← takeNumber (distanceExtra distanceCode) bs
  return (some (.copy (lengthBase lengthCode + lengthOffset) (distanceBase distanceCode + distanceOffset)), bs)

/-- The bits of a token. -/
inductive Codes : Token → List Bool → Prop
  | literal (b : UInt8) : Codes (.literal b) (fixedCode b.toNat)
  | copy {lc lo dc do' : Nat} : lc < 29 → lo < 2 ^ lengthExtra lc → dc < 30 → do' < 2 ^ distanceExtra dc →
      Codes (.copy (lengthBase lc + lo) (distanceBase dc + do')) (copyBits lc lo dc do')

theorem takeToken_end (rest : List Bool) : takeToken (fixedCode 256 ++ rest) = some (none, rest) := by
  simp [takeToken, takeSymbol_fixedCode]

theorem Codes.takeToken {t : Token} {bs : List Bool} (h : Codes t bs) (rest : List Bool) :
    takeToken (bs ++ rest) = some (some t, rest) := by
  cases h with
  | literal b =>
    have hb := b.toNat_lt
    have hs : b.toNat < 288 := by omega
    have hlit : b.toNat < 256 := by omega
    simp [Deflate.takeToken, takeSymbol_fixedCode hs, hlit]
  | @copy lc lo dc do' hlc hlo hdc hdo =>
    have hs : 257 + lc < 288 := by omega
    have h₁ : ¬257 + lc < 256 := by omega
    have h₂ : ¬257 + lc = 256 := by omega
    have h₃ : ¬29 ≤ lc := by omega
    have h₄ : ¬30 ≤ dc := by omega
    have h₅ : dc < 2 ^ 5 := by omega
    simp [Deflate.takeToken, copyBits, takeSymbol_fixedCode hs, h₁, h₂, h₃, h₄, takeNumber_low hlo, takeNumber_low hdo,
      takeCode_high h₅]

/-- Copies `n` bytes, each from `distance` bytes back. -/
def copyBack (distance : Nat) : Nat → List UInt8 → List UInt8
  | 0, out => out
  | n + 1, out => copyBack distance n (out ++ [out.getD (out.length - distance) 0])

/-- The bytes so far, with those of the token behind them. -/
def Token.apply (out : List UInt8) : Token → Option (List UInt8)
  | .literal b => some (out ++ [b])
  | .copy length distance => if 0 < distance ∧ distance ≤ out.length then some (copyBack distance length out) else none

/-- A copy of bytes that stand further back in the data. -/
theorem copyBack_take {data : List UInt8} {i distance n : Nat} (hd : 0 < distance) (hle : distance ≤ i)
    (hn : i + n ≤ data.length) (h : ∀ k < n, data[i - distance + k]? = data[i + k]?) :
    copyBack distance n (data.take i) = data.take (i + n) := by
  induction n generalizing i with
  | zero => rfl
  | succ n ih =>
    have hlen : (data.take i).length = i := List.length_take_of_le (by omega)
    have h0 := h 0 (by omega)
    rw [Nat.add_zero, Nat.add_zero, List.getElem?_eq_getElem (by omega : i < data.length)] at h0
    have hnext : data.take i ++ [(data.take i).getD ((data.take i).length - distance) 0] = data.take (i + 1) := by
      rw [hlen, List.getD_eq_getElem?_getD, List.getElem?_take_of_lt (by omega), h0, Option.getD_some,
        List.take_append_getElem]
    rw [copyBack, hnext, ih (by omega) (by omega), Nat.add_assoc, Nat.add_comm 1 n]
    intro k hk
    have hk' := h (k + 1) (by omega)
    rwa [show i - distance + (k + 1) = i + 1 - distance + k by omega, show i + (k + 1) = i + 1 + k by omega] at hk'

/-- The number of bytes of a token. -/
def Token.size : Token → Nat
  | .literal _ => 1
  | .copy length _ => length

theorem fixedCode_length_le (symbol : Nat) : (fixedCode symbol).length ≤ 9 := by
  unfold fixedCode
  split_ifs <;> simp

theorem lengthBase_ge (code : Nat) : 3 ≤ lengthBase code := by
  unfold lengthBase
  split_ifs <;> omega

/-- The bits of a token are at most those of its bytes as literals. -/
theorem Codes.length_le {t : Token} {bs : List Bool} (h : Codes t bs) : bs.length ≤ 9 * t.size := by
  cases h with
  | literal b => simpa [Token.size] using fixedCode_length_le b.toNat
  | @copy lc lo dc do' hlc hlo hdc hdo =>
    have hcode : (fixedCode (257 + lc)).length ≤ 8 := by
      rw [fixedCode, if_neg (by omega), if_neg (by omega)]
      split_ifs <;> simp
    have hlength : lengthExtra lc ≤ 5 := by
      unfold lengthExtra
      split_ifs <;> omega
    have hdistance : distanceExtra dc ≤ 13 := by
      unfold distanceExtra
      split_ifs <;> omega
    have htotal : (copyBits lc lo dc do').length =
        (fixedCode (257 + lc)).length + lengthExtra lc + 5 + distanceExtra dc := by
      simp [copyBits, Nat.add_assoc]
    rw [htotal, Token.size]
    have hbase := lengthBase_ge lc
    -- The least length has a code of seven bits and no offset.
    rcases Nat.eq_zero_or_pos lc with rfl | hpos
    · have hshort : (fixedCode (257 + 0)).length = 7 := by simp [fixedCode]
      have hnone : lengthExtra 0 = 0 := rfl
      omega
    · have hbase' : 4 ≤ lengthBase lc := by
        unfold lengthBase
        split_ifs
        · omega
        · omega
        · have hpow : 0 < 2 ^ lengthExtra lc := Nat.two_pow_pos _
          have hmul := Nat.le_mul_of_pos_right (4 + lc % 4) hpow
          omega
      omega

theorem Codes.length_pos {t : Token} {bs : List Bool} (h : Codes t bs) : 0 < bs.length := by
  have hpos : ∀ symbol, 0 < (fixedCode symbol).length := by
    intro symbol
    unfold fixedCode
    split_ifs <;> simp
  cases h with
  | literal b => exact hpos _
  | @copy lc =>
    have := hpos (257 + lc)
    simp only [copyBits, List.length_append]
    omega

theorem copyBack_length (distance n : Nat) (out : List UInt8) : (copyBack distance n out).length = out.length + n := by
  induction n generalizing out with
  | zero => rfl
  | succ n ih =>
    rw [copyBack, ih, List.length_append, List.length_singleton]
    omega

theorem Token.apply_length {t : Token} {out out' : List UInt8} (h : t.apply out = some out') :
    out'.length = out.length + t.size := by
  cases t with
  | literal b =>
    cases h
    simp [Token.size]
  | copy length distance =>
    rw [Token.apply] at h
    split at h <;> cases h
    exact copyBack_length _ _ _

/-! ## Blocks -/

/-- The bytes of a block in the fixed codes, behind those so far. -/
def takeFixed : Nat → List UInt8 → List Bool → Option (List UInt8 × List Bool)
  | 0, _, _ => none
  | n + 1, out, bs => do
    match ← takeToken bs with
    | (none, bs) => return (out, bs)
    | (some t, bs) => takeFixed n (← t.apply out) bs

/-- The bytes of a stored block, which begin with the next byte. -/
def takeStored (out : List UInt8) (bs : List Bool) : Option (List UInt8 × List Bool) := do
  let bs := bs.drop (bs.length % 8)
  let (length, bs) ← takeNumber 16 bs
  let (complement, bs) ← takeNumber 16 bs
  if length + complement ≠ 0xFFFF ∨ bs.length < 8 * length then failure
  return (out ++ toBytes (bs.take (8 * length)), bs.drop (8 * length))

def takeBlocks : Nat → List UInt8 → List Bool → Option (List UInt8 × List Bool)
  | 0, _, _ => none
  | n + 1, out, bs => do
    let (last, bs) ← takeNumber 1 bs
    let (type, bs) ← takeNumber 2 bs
    let (out, bs) ←
      if type = 0 then takeStored out bs
      else if type = 1 then takeFixed (bs.length + 1) out bs
      else failure
    if last = 1 then return (out, bs) else takeBlocks n out bs

/-- The data of a stream, and the bytes behind it. -/
def inflate (bytes : List UInt8) : Option (List UInt8 × List UInt8) := do
  let (out, bs) ← takeBlocks (8 * bytes.length) [] (ofBytes bytes)
  return (out, toBytes (bs.drop (bs.length % 8)))

/-- The bits are those of tokens that lead from the bytes `start` to the bytes `out`. -/
inductive Written (start : List UInt8) : List Bool → List UInt8 → Prop
  | nil : Written start [] start
  | snoc {bs cs : List Bool} {t : Token} {out out' : List UInt8} : Written start bs out → Codes t cs →
      t.apply out = some out' → Written start (bs ++ cs) out'

section Written
variable {start out : List UInt8} {bs : List Bool}

theorem Written.literal (h : Written start bs out) (b : UInt8) :
    Written start (bs ++ fixedCode b.toNat) (out ++ [b]) := h.snoc (.literal b) rfl

/-- Data that is written as a copy of what stands further back. -/
theorem Written.copy {data : List UInt8} {i n distance : Nat} {cs : List Bool} (h : Written start bs (data.take i))
    (hc : Codes (.copy n distance) cs) (hd : 0 < distance) (hle : distance ≤ i) (hn : i + n ≤ data.length)
    (hsame : ∀ k < n, data[i - distance + k]? = data[i + k]?) : Written start (bs ++ cs) (data.take (i + n)) := by
  have hlen : (data.take i).length = i := List.length_take_of_le (by omega)
  refine h.snoc hc ?_
  rw [Token.apply, hlen, if_pos ⟨hd, hle⟩, copyBack_take hd hle hn hsame]

theorem Written.length_le (h : Written start bs out) : bs.length + 9 * start.length ≤ 9 * out.length := by
  induction h with
  | nil => simp
  | snoc hw hc ha ih =>
    have hbits := hc.length_le
    rw [List.length_append, Token.apply_length ha]
    omega

/-- Reading what was written, and going on behind it. -/
theorem Written.takeFixed (h : Written start bs out) :
    ∃ n ≤ bs.length, ∀ k rest, takeFixed (n + k) start (bs ++ rest) = takeFixed k out rest := by
  induction h with
  | nil => exact ⟨0, le_rfl, fun k rest => by rw [Nat.zero_add, List.nil_append]⟩
  | @snoc bs cs t out out' hw hc ha ih =>
    obtain ⟨n, hn, ih⟩ := ih
    have hpos := hc.length_pos
    refine ⟨n + 1, by rw [List.length_append]; omega, fun k rest => ?_⟩
    rw [List.append_assoc, Nat.add_assoc, Nat.add_comm 1 k, ih, Deflate.takeFixed, hc.takeToken]
    simp [ha]

theorem Written.takeFixed_end (h : Written start bs out) (rest : List Bool) {n : Nat} (hn : bs.length < n) :
    Deflate.takeFixed n start (bs ++ (fixedCode 256 ++ rest)) = some (out, rest) := by
  obtain ⟨m, hm, htake⟩ := h.takeFixed
  obtain ⟨k, rfl⟩ : ∃ k, n = m + (k + 1) := ⟨n - m - 1, by omega⟩
  rw [htake, Deflate.takeFixed, takeToken_end]
  rfl

/-- A stream of one block, padded to whole bytes. -/
theorem inflate_fixed {bytes rest : List UInt8} {pad : List Bool} (h : Written [] bs out) (hp : pad.length < 8)
    (hb : ofBytes bytes = low 1 1 ++ low 2 1 ++ bs ++ fixedCode 256 ++ pad ++ ofBytes rest) :
    inflate bytes = some (out, rest) := by
  have hlen : 0 < 8 * bytes.length := by
    rw [← ofBytes_length, hb]
    simp
  obtain ⟨n, hn⟩ : ∃ n, 8 * bytes.length = n + 1 := ⟨8 * bytes.length - 1, by omega⟩
  have hmod : (pad ++ ofBytes rest).length % 8 = pad.length := by
    rw [List.length_append, ofBytes_length]
    omega
  have hlast (more : List Bool) := @takeNumber_low 1 1 more (by decide)
  have htype (more : List Bool) := @takeNumber_low 2 1 more (by decide)
  have hdrop : (pad ++ ofBytes rest).drop pad.length = ofBytes rest := List.drop_left' rfl
  unfold inflate
  rw [hn, hb, takeBlocks]
  simp only [List.append_assoc, hlast, htype, Option.bind_eq_bind, Option.bind_some, one_ne_zero, if_false, if_true]
  rw [h.takeFixed_end _ (by simp only [List.length_append]; omega)]
  simp only [Option.bind_some, pure, hmod, hdrop, toBytes_ofBytes]

end Written

/-! ## Stored blocks -/

def storedBlock (last : Bool) (chunk : List UInt8) : List UInt8 :=
  [if last then 1 else 0, .ofNat chunk.length, .ofNat (chunk.length / 256), ~~~.ofNat chunk.length,
    ~~~.ofNat (chunk.length / 256)] ++ chunk

def storedBlocks : List (List UInt8) → List UInt8
  | [] => []
  | [chunk] => storedBlock true chunk
  | chunk :: chunks => storedBlock false chunk ++ storedBlocks chunks

theorem takeNumber_two (lo hi : UInt8) (l : List UInt8) :
    takeNumber 16 (ofBytes (lo :: hi :: l)) = some (lo.toNat + 256 * hi.toNat, ofBytes l) := by
  have hlo := lo.toNat_lt
  have hhi := hi.toNat_lt
  have hcut : ofBytes (lo :: hi :: l) = (low 8 lo.toNat ++ low 8 hi.toNat) ++ ofBytes l := by simp
  have hlen : (low 8 lo.toNat ++ low 8 hi.toNat).length = 16 := by simp
  rw [takeNumber, if_pos (by simp; omega), hcut, List.take_left' hlen, List.drop_left' hlen, number_append,
    number_low hlo, number_low hhi, low_length]
  rfl

theorem takeStored_storedBlock {chunk : List UInt8} (h : chunk.length < 2 ^ 16) (out rest : List UInt8) (last : Bool) :
    takeStored out ((ofBytes (storedBlock last chunk ++ rest)).drop 3) = some (out ++ chunk, ofBytes rest) := by
  have hmod : ((ofBytes (storedBlock last chunk ++ rest)).drop 3).length % 8 = 5 := by
    rw [List.length_drop, ofBytes_length]
    simp only [storedBlock, List.length_append, List.length_cons]
    omega
  have hbytes : (ofBytes (storedBlock last chunk ++ rest)).drop (3 + 5) =
      ofBytes (.ofNat chunk.length :: .ofNat (chunk.length / 256) :: ~~~.ofNat chunk.length ::
        ~~~.ofNat (chunk.length / 256) :: (chunk ++ rest)) := by
    rw [storedBlock, List.cons_append, List.cons_append, ofBytes_cons]
    exact List.drop_left' (low_length 8 _)
  have hlength : (UInt8.ofNat chunk.length).toNat + 256 * (UInt8.ofNat (chunk.length / 256)).toNat = chunk.length := by
    simp only [UInt8.toNat_ofNat']
    omega
  have hcomplement : chunk.length +
      ((~~~UInt8.ofNat chunk.length).toNat + 256 * (~~~UInt8.ofNat (chunk.length / 256)).toNat) = 0xFFFF := by
    have hsize : UInt8.size = 256 := rfl
    simp only [UInt8.toNat_not, UInt8.toNat_ofNat', hsize]
    omega
  have htake : (ofBytes (chunk ++ rest)).take (8 * chunk.length) = ofBytes chunk := by
    rw [ofBytes_append, List.take_left' (ofBytes_length chunk)]
  have hdrop : (ofBytes (chunk ++ rest)).drop (8 * chunk.length) = ofBytes rest := by
    rw [ofBytes_append, List.drop_left' (ofBytes_length chunk)]
  have hroom : ¬(ofBytes (chunk ++ rest)).length < 8 * chunk.length := by
    rw [ofBytes_length, List.length_append]
    omega
  unfold takeStored
  rw [hmod, List.drop_drop, hbytes]
  simp only [takeNumber_two, Option.bind_eq_bind, Option.bind_some, hlength, hcomplement, hroom, htake, hdrop,
    toBytes_ofBytes]
  simp

/-- One stored block, and the blocks behind it. -/
theorem takeBlocks_stored {chunk : List UInt8} (h : chunk.length < 2 ^ 16) (n : Nat) (out rest : List UInt8)
    (last : Bool) :
    takeBlocks (n + 1) out (ofBytes (storedBlock last chunk ++ rest)) =
      if last then some (out ++ chunk, ofBytes rest) else takeBlocks n (out ++ chunk) (ofBytes rest) := by
  have hstored := takeStored_storedBlock h out rest last
  have hbits : ofBytes (storedBlock last chunk ++ rest) =
      low 1 last.toNat ++ (low 2 0 ++ (ofBytes (storedBlock last chunk ++ rest)).drop 3) := by
    cases last <;> rfl
  have hlast (more : List Bool) := @takeNumber_low 1 last.toNat more (by cases last <;> decide)
  have htype (more : List Bool) := @takeNumber_low 2 0 more (by decide)
  rw [hbits, takeBlocks]
  simp only [hlast, htype, Option.bind_eq_bind, Option.bind_some, if_true, hstored]
  cases last <;> rfl

theorem inflate_stored {chunks : List (List UInt8)} (hne : chunks ≠ []) (h : ∀ chunk ∈ chunks, chunk.length < 2 ^ 16)
    (rest : List UInt8) : inflate (storedBlocks chunks ++ rest) = some (chunks.flatten, rest) := by
  have hblocks : ∀ n out, chunks.length ≤ n →
      takeBlocks n out (ofBytes (storedBlocks chunks ++ rest)) = some (out ++ chunks.flatten, ofBytes rest) := by
    induction chunks with
    | nil => exact absurd rfl hne
    | cons chunk chunks ih =>
      intro n out hn
      obtain ⟨m, rfl⟩ : ∃ m, n = m + 1 := ⟨n - 1, by rw [List.length_cons] at hn; omega⟩
      have hchunk := h chunk (by simp)
      cases chunks with
      | nil =>
        rw [storedBlocks, takeBlocks_stored hchunk]
        simp
      | cons next more =>
        have hn' : (next :: more).length ≤ m := by simpa using hn
        rw [storedBlocks, List.append_assoc, takeBlocks_stored hchunk]
        · simp only [Bool.false_eq_true, if_false]
          rw [ih (by simp) (fun c hc => h c (by simp [hc])) m _ hn']
          simp
        · simp
  have hcount : chunks.length ≤ 8 * (storedBlocks chunks ++ rest).length := by
    have hle : ∀ cs : List (List UInt8), cs.length ≤ (storedBlocks cs).length := by
      intro cs
      induction cs with
      | nil => exact le_rfl
      | cons c cs ih =>
        cases cs with
        | nil => simp [storedBlocks, storedBlock]
        | cons d cs =>
          simp only [storedBlocks, storedBlock, List.length_append, List.length_cons] at ih ⊢
          omega
    have := hle chunks
    rw [List.length_append]
    omega
  unfold inflate
  rw [hblocks _ [] hcount]
  simp

end Lib.Deflate
