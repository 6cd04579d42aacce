import RemoteScreenCapture.Common
import RemoteScreenCapture.Lib.Zlib
/-!
# The compressor

`stbi_zlib_compress` of `stb_image_write.h`. A function fails (`none`) where
the source reads or writes outside a buffer, leaves the range of `int` or fails
an assertion. Calls of `realloc` get their memory, and the quality is small
enough that lists of twice as many pointers do.
-/
open Lib Lib.Bits Lib.Deflate

namespace RemoteScreenCapture

namespace Stb

/-- The calls of `malloc`. -/
inductive Request where
  | filt
  | lineBuffer
  | hashTable
  | out
  deriving DecidableEq, Repr

/-- `STBIW_UCHAR(x)` -/
def uchar (x : Int) : UInt8 := .ofNat (x % 256).toNat

/-! ## Stretchy buffers -/

/-- A buffer of `unsigned char`s with its `stbiw__sbm`, which is 0 for the null pointer. -/
structure Sb where
  items : Bytes
  m : Nat
  deriving DecidableEq, Repr

namespace Sb

def null : Sb := ⟨[], 0⟩

def growf (a : Sb) (increment : Nat) : Option Sb := do
  let m := if a.m ≠ 0 then 2 * a.m + increment else increment + 1
  if IsInt m then some { a with m := m } else none

def needgrow (a : Sb) (n : Nat) : Bool := a.m = 0 ∨ a.items.length + n ≥ a.m

def push (a : Sb) (v : UInt8) : Option Sb := do
  let a ← if a.needgrow 1 then a.growf 1 else some a
  if a.items.length < a.m then some { a with items := a.items ++ [v] } else none

/-- `memcpy(a+stbiw__sbn(a), src, ..)` and `stbiw__sbn(a) += ..` -/
def memcpy (a : Sb) (src : Bytes) : Option Sb :=
  if a.items.length + src.length ≤ a.m then some { a with items := a.items ++ src } else none

end Sb

/-! ## Bits and codes -/

/-- The locals `out`, `bitbuf` and `bitcount`. -/
structure Writer where
  out : Sb
  bitbuf : Nat
  bitcount : Nat
  deriving DecidableEq, Repr

def zlibFlushf (data : Sb) (bitbuffer : Nat) : Nat → Option Writer
  | bitcount + 8 => do zlibFlushf (← data.push (uchar bitbuffer)) (bitbuffer >>> 8) bitcount
  | bitcount => some ⟨data, bitbuffer, bitcount⟩

/-- The loop of `stbiw__zlib_bitrev`. -/
def bitrevLoop (res code : Nat) : Nat → Nat
  | 0 => res
  | codebits + 1 => bitrevLoop ((res <<< 1) ||| (code &&& 1)) (code >>> 1) codebits

def zlibBitrev (code codebits : Nat) : Nat := bitrevLoop 0 code codebits

namespace Writer

def zlibAdd (w : Writer) (code codebits : Nat) : Option Writer :=
  zlibFlushf w.out (w.bitbuf ||| (code <<< w.bitcount) % 2 ^ 32) (w.bitcount + codebits)

def zlibHuffa (w : Writer) (b c : Nat) : Option Writer := w.zlibAdd (zlibBitrev b c) c

def zlibHuff1 (w : Writer) (n : Nat) : Option Writer := w.zlibHuffa (0x30 + n) 8

def zlibHuff2 (w : Writer) (n : Nat) : Option Writer := w.zlibHuffa (0x190 + n - 144) 9

def zlibHuff3 (w : Writer) (n : Nat) : Option Writer := w.zlibHuffa (0 + n - 256) 7

def zlibHuff4 (w : Writer) (n : Nat) : Option Writer := w.zlibHuffa (0xc0 + n - 280) 8

def zlibHuff (w : Writer) (n : Nat) : Option Writer :=
  if n ≤ 143 then w.zlibHuff1 n else if n ≤ 255 then w.zlibHuff2 n else if n ≤ 279 then w.zlibHuff3 n else w.zlibHuff4 n

def zlibHuffb (w : Writer) (n : Nat) : Option Writer := if n ≤ 143 then w.zlibHuff1 n else w.zlibHuff2 n

end Writer

/-! ## Matches -/

/-- The loop of `stbiw__zlib_countm` at `i`, with so many passes left up to 258. -/
def countmLoop (data : Bytes) (a b limit : Nat) : Nat → Nat → Option Nat
  | 0, i => some i
  | n + 1, i =>
    if i < limit then do
      let x ← data[a + i]?
      let y ← data[b + i]?
      if x ≠ y then return i
      countmLoop data a b limit n (i + 1)
    else some i

/-- `stbiw__zlib_countm(data+a, data+b, limit)` -/
def zlibCountm (data : Bytes) (a b limit : Nat) : Option Nat := countmLoop data a b limit 258 0

/-- `stbiw__zhash(data+i)` -/
def zhash (data : Bytes) (i : Nat) : Option UInt32 := do
  let hash := (← data[i]?).toUInt32 + ((← data[i + 1]?).toUInt32 <<< 8) + ((← data[i + 2]?).toUInt32 <<< 16)
  let hash := hash ^^^ (hash <<< 3)
  let hash := hash + (hash >>> 5)
  let hash := hash ^^^ (hash <<< 4)
  let hash := hash + (hash >>> 17)
  let hash := hash ^^^ (hash <<< 25)
  let hash := hash + (hash >>> 6)
  return hash

/-- `stbiw__ZHASH` -/
def ZHASH : UInt32 := 16384

/-- `hash_table`: lists of places in the data, with their hash. The first list
of a hash counts, and one that was never pushed to is empty. -/
abbrev HashTable := List (Nat × List Nat)

/-- `hash_table[h]` -/
def HashTable.hlist (table : HashTable) (h : Nat) : List Nat := (table.lookup h).getD []

/-- The loop over `hlist`: `best` and `bestloc` behind it. -/
def findMatch (data : Bytes) (i : Nat) : List Nat → Nat → Option Nat → Option (Nat × Option Nat)
  | [], best, bestloc => some (best, bestloc)
  | loc :: hlist, best, bestloc => do
    -- if entry lies within window
    if loc + 32768 > i then
      let d ← zlibCountm data loc i (data.length - i)
      if d ≥ best then findMatch data i hlist d (some loc) else findMatch data i hlist best bestloc
    else findMatch data i hlist best bestloc

/-- The second loop over a list: whether a match at the next byte is better. -/
def betterNext (data : Bytes) (i best : Nat) : List Nat → Option Bool
  | [] => some false
  | loc :: hlist => do
    if loc + 32767 > i then
      let e ← zlibCountm data loc (i + 1) (data.length - i - 1)
      if e > best then return true
    betterNext data i best hlist

/-- `stbiw__sbpush(hash_table[h],data+i)`, and what precedes it. -/
def HashTable.push (table : HashTable) (h i quality : Nat) : HashTable :=
  -- when hash table entry is too long, delete half the entries
  let hlist := table.hlist h
  let hlist := if hlist.length = 2 * quality then hlist.drop quality else hlist
  (h, hlist ++ [i]) :: table

def lengthc : List Nat :=
  [3, 4, 5, 6, 7, 8, 9, 10, 11, 13, 15, 17, 19, 23, 27, 31, 35, 43, 51, 59, 67, 83, 99, 115, 131, 163, 195, 227, 258, 259]

def lengtheb : List Nat :=
  [0, 0, 0, 0, 0, 0, 0, 0, 1, 1, 1, 1, 2, 2, 2, 2, 3, 3, 3, 3, 4, 4, 4, 4, 5, 5, 5, 5, 0]

def distc : List Nat :=
  [1, 2, 3, 4, 5, 7, 9, 13, 17, 25, 33, 49, 65, 97, 129, 193, 257, 385, 513, 769, 1025, 1537, 2049, 3073, 4097, 6145,
    8193, 12289, 16385, 24577, 32768]

def disteb : List Nat :=
  [0, 0, 0, 0, 1, 1, 2, 2, 3, 3, 4, 4, 5, 5, 6, 6, 7, 7, 8, 8, 9, 9, 10, 10, 11, 11, 12, 12, 13, 13]

/-- `for (j=0; v > table[j+1]-1; ++j);` -/
def codeIndex (v : Nat) : List Nat → Option Nat
  | _ :: next :: table => if (v : Int) > next - 1 then (codeIndex v (next :: table)).map (· + 1) else some 0
  | _ => none

/-- `if (eb[j]) stbiw__zlib_add(v - base[j], eb[j]);` -/
def Writer.zlibExtra (w : Writer) (base eb : List Nat) (v j : Nat) : Option Writer := do
  let bits ← eb[j]?
  if bits ≠ 0 then w.zlibAdd (v - (← base[j]?)) bits else some w

/-- A match of `best` bytes, `d` bytes back. -/
def Writer.zlibMatch (w : Writer) (best d : Nat) : Option Writer := do
  if ¬(d ≤ 32767 ∧ best ≤ 258) then failure
  let j ← codeIndex best lengthc
  let w ← w.zlibHuff (j + 257)
  let w ← w.zlibExtra lengthc lengtheb best j
  let j ← codeIndex d distc
  let w ← w.zlibAdd (zlibBitrev j 5) 5
  w.zlibExtra distc disteb d j

/-! ## The loops -/

/-- The locals of the loop over the data. -/
structure Deflater where
  w : Writer
  table : HashTable
  i : Nat

/-- A pass of `while (i < data_len-3)`. -/
def compressPass (data : Bytes) (quality : Nat) (s : Deflater) : Option Deflater := do
  -- hash next 3 bytes of data to be compressed
  let h := ((← zhash data s.i) &&& (ZHASH - 1)).toNat
  let (best, bestloc) ← findMatch data s.i (s.table.hlist h) 3 none
  let table := s.table.push h s.i quality
  let bestloc ← match bestloc with
    | none => pure none
    | some loc => do
      -- "lazy matching" - check match at *next* byte, and if it's better, do cur byte as literal
      let h := ((← zhash data (s.i + 1)) &&& (ZHASH - 1)).toNat
      let better ← betterNext data s.i best (table.hlist h)
      pure (if better then none else some loc)
  match bestloc with
  | some loc =>
    let w ← s.w.zlibMatch best (s.i - loc)
    return ⟨w, table, s.i + best⟩
  | none =>
    let w ← s.w.zlibHuffb (← data[s.i]?).toNat
    return ⟨w, table, s.i + 1⟩

/-- The loop, with a bound on its passes. -/
def compressLoop (data : Bytes) (quality : Nat) : Nat → Deflater → Option Deflater
  | 0, _ => none
  | n + 1, s => if s.i + 3 < data.length then do compressLoop data quality n (← compressPass data quality s) else some s

/-- `for (;i < data_len; ++i) stbiw__zlib_huffb(data[i]);` -/
def writeFinal (w : Writer) (rest : Bytes) : Option Writer := rest.foldlM (fun w b => w.zlibHuffb b.toNat) w

/-- `while (bitcount) stbiw__zlib_add(0,1);`, with a bound on its passes. -/
def padLoop : Nat → Writer → Option Writer
  | 0, _ => none
  | n + 1, w => if w.bitcount ≠ 0 then do padLoop n (← w.zlibAdd 0 1) else some w

/-- The body of the loop that stores the data uncompressed, behind `blocklen`. -/
def storeBlock (data : Bytes) (j blocklen : Nat) (out : Sb) : Option Sb := do
  -- BFINAL = ?, BTYPE = 0 -- no compression
  let out ← out.push (if data.length - j = blocklen then 1 else 0)
  -- LEN
  let out ← out.push (uchar blocklen)
  let out ← out.push (uchar (blocklen >>> 8 : Nat))
  -- NLEN
  let out ← out.push (uchar (~~~(blocklen : Int)))
  let out ← out.push (uchar (~~~(blocklen : Int) >>> (8 : Nat)))
  out.memcpy ((data.drop j).take blocklen)

/-- The loop, with a bound on its passes. -/
def storeLoop (data : Bytes) : Nat → Nat → Sb → Option Sb
  | 0, _, _ => none
  | n + 1, j, out =>
    if j < data.length then do
      let blocklen := if data.length - j > 32767 then 32767 else data.length - j
      storeLoop data n (j + blocklen) (← storeBlock data j blocklen out)
    else some out

/-- The sums `s1` and `s2` behind some bytes, in 32 bits. -/
def adlerBlock (s : UInt32 × UInt32) (block : Bytes) : UInt32 × UInt32 :=
  block.foldl (fun s b => (s.1 + b.toUInt32, s.2 + (s.1 + b.toUInt32))) s

/-- The loop of the checksum, with a bound on its passes. -/
def adlerLoop (data : Bytes) : Nat → Nat → Nat → UInt32 × UInt32 → Option (UInt32 × UInt32)
  | 0, _, _, _ => none
  | n + 1, j, blocklen, s =>
    if j < data.length then do
      if j + blocklen > data.length then failure
      let (s1, s2) := adlerBlock s ((data.drop j).take blocklen)
      adlerLoop data n (j + blocklen) 5552 (s1 % 65521, s2 % 65521)
    else some s

/-- `stbi_zlib_compress`: the stream, or nothing where `malloc` gives no memory. -/
def stbiZlibCompress (malloc : Request → Bool) (data : Bytes) (quality : Int) : Option (Option Bytes) := do
  if ¬malloc .hashTable then return none
  let quality := if quality < 5 then 5 else quality.toNat
  -- DEFLATE 32K window
  let out ← Sb.null.push 0x78
  -- FLEVEL = 1
  let out ← out.push 0x5e
  let w : Writer := ⟨out, 0, 0⟩
  -- BFINAL = 1
  let w ← w.zlibAdd 1 1
  -- BTYPE = 1 -- fixed huffman
  let w ← w.zlibAdd 1 2
  let s ← compressLoop data quality (data.length + 1) ⟨w, [], 0⟩
  -- write out final bytes
  let w ← writeFinal s.w (data.drop s.i)
  -- end of block
  let w ← w.zlibHuff 256
  -- pad with 0 bits to byte boundary
  let w ← padLoop 9 w
  let out := w.out
  -- store uncompressed instead if compression was worse
  let out ←
    if out.items.length > data.length + 2 + ((data.length + 32766) / 32767) * 5 then
      -- truncate to DEFLATE 32K window and FLEVEL = 1
      storeLoop data (data.length + 1) 0 { out with items := out.items.take 2 }
    else some out
  let (s1, s2) ← adlerLoop data (data.length + 2) 0 (data.length % 5552) (1, 0)
  let out ← out.push (uchar (s2 >>> 8).toNat)
  let out ← out.push (uchar s2.toNat)
  let out ← out.push (uchar (s1 >>> 8).toNat)
  let out ← out.push (uchar s1.toNat)
  return some out.items

end Stb

end RemoteScreenCapture
