import RemoteScreenCapture.Lib.BigEndian
import RemoteScreenCapture.Lib.Checksum
import RemoteScreenCapture.Lib.Deflate
/-!
# Zlib streams

Compressed data behind a header of two bytes, with a checksum behind it.
-/
open Lib.BigEndian Lib.Checksum Lib.Deflate

namespace Lib.Zlib

/-- The method is deflate, the window has at most 32K, there is no dictionary,
and the check bits are right. -/
def HeaderOk (cmf flg : UInt8) : Prop :=
  cmf.toNat % 16 = 8 ∧ cmf.toNat / 16 ≤ 7 ∧ flg.toNat.testBit 5 = false ∧ (256 * cmf.toNat + flg.toNat) % 31 = 0

instance (cmf flg : UInt8) : Decidable (HeaderOk cmf flg) := inferInstanceAs (Decidable (_ ∧ _))

/-- The data of a stream, if it has come whole. -/
def decompress : List UInt8 → Option (List UInt8)
  | cmf :: flg :: stream => do
    if ¬HeaderOk cmf flg then failure
    let (out, check) ← inflate stream
    if check = bytes 4 (adler32 out) then return out else failure
  | _ => none

theorem decompress_of_inflate {cmf flg : UInt8} {stream out : List UInt8} (h : HeaderOk cmf flg)
    (hs : inflate stream = some (out, bytes 4 (adler32 out))) : decompress (cmf :: flg :: stream) = some out := by
  rw [decompress, if_neg (not_not.2 h), hs, Option.bind_eq_bind, Option.bind_some]
  exact if_pos rfl

end Lib.Zlib
