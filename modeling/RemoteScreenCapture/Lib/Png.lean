import RemoteScreenCapture.Lib.Zlib
/-!
# PNG files

What a file with eight bits per channel means: chunks with their checksums, and
rows of bytes that are differences to a prediction. `decode` takes a file apart
into its picture. A writer is right if `decode` gives back its picture; the
rules for that take a file with one data chunk (`decode_file`) and any choice
of filters (`unfilter_filterRows`).
-/
open Lib.BigEndian Lib.Checksum

namespace Lib.Png

/-! ## Filters -/

/-- The one of its three neighbours that is nearest to their linear continuation. -/
def paethPredictor (a b c : UInt8) : UInt8 :=
  let p : Int := a.toNat + b.toNat - c.toNat
  let pa := (p - a.toNat).natAbs
  let pb := (p - b.toNat).natAbs
  let pc := (p - c.toNat).natAbs
  if pa ≤ pb ∧ pa ≤ pc then a else if pb ≤ pc then b else c

/-- The prediction for a byte, from the bytes to its left, above it, and above and left. -/
def predict (type : Nat) (a b c : UInt8) : UInt8 :=
  match type with
  | 0 => 0
  | 1 => a
  | 2 => b
  | 3 => .ofNat ((a.toNat + b.toNat) / 2)
  | _ => paethPredictor a b c

/-- The byte of the pixel to the left of the byte `i`, where pixels have `n` bytes. -/
def left (n : Nat) (line : List UInt8) (i : Nat) : UInt8 := if i < n then 0 else line.getD (i - n) 0

/-- The byte `i` of a line, as a difference. -/
def filterByte (type n : Nat) (prior line : List UInt8) (i : Nat) : UInt8 :=
  line.getD i 0 - predict type (left n line i) (prior.getD i 0) (left n prior i)

def filterLine (type n : Nat) (prior line : List UInt8) : List UInt8 :=
  (List.range line.length).map (filterByte type n prior line)

def unfilterLine (type n : Nat) (prior line : List UInt8) : List UInt8 :=
  line.foldl (fun out x =>
    out ++ [x + predict type (left n out out.length) (prior.getD out.length 0) (left n prior out.length)]) []

/-- A line is got back from its differences. -/
theorem unfilterLine_filterLine {n : Nat} (hn : 0 < n) (type : Nat) (prior line : List UInt8) :
    unfilterLine type n prior (filterLine type n prior line) = line := by
  have htake : ∀ k ≤ line.length,
      unfilterLine type n prior ((List.range k).map (filterByte type n prior line)) = line.take k := by
    intro k hk
    induction k with
    | zero => rfl
    | succ k ih =>
      have hlen : (line.take k).length = k := List.length_take_of_le (by omega)
      have hleft : left n (line.take k) k = left n line k := by
        unfold left
        split
        · rfl
        · rw [List.getD_eq_getElem?_getD, List.getD_eq_getElem?_getD, List.getElem?_take_of_lt (by omega)]
      have hbyte : line.getD k 0 = (line)[k] := List.getD_eq_getElem _ _ (by omega)
      unfold unfilterLine at ih ⊢
      rw [List.range_succ, List.map_append, List.foldl_append, ih (by omega)]
      simp only [List.map_cons, List.map_nil, List.foldl_cons, List.foldl_nil, hlen, hleft, filterByte, hbyte,
        UInt8.sub_add_cancel]
      exact List.take_append_getElem (by omega)
  rw [filterLine, htake _ le_rfl, List.take_length]

/-- The rows of a picture, each behind the type of its filter. -/
def unfilter (n rowLength : Nat) : Nat → List UInt8 → List UInt8 → Option (List UInt8)
  | 0, _, data => if data = [] then some [] else none
  | rows + 1, prior, data => do
    let type ← data.head?
    if type.toNat > 4 ∨ data.tail.length < rowLength then failure
    let line := unfilterLine type.toNat n prior (data.tail.take rowLength)
    return line ++ (← unfilter n rowLength rows line (data.tail.drop rowLength))

/-- Rows, each with the type of its filter, as differences. -/
def filterRows (n : Nat) : List UInt8 → List (UInt8 × List UInt8) → List UInt8
  | _, [] => []
  | prior, (type, row) :: rows => type :: (filterLine type.toNat n prior row ++ filterRows n row rows)

theorem unfilter_filterRows {n rowLength : Nat} (hn : 0 < n) {rows : List (UInt8 × List UInt8)}
    (h : ∀ row ∈ rows, row.1.toNat ≤ 4 ∧ row.2.length = rowLength) (prior : List UInt8) :
    unfilter n rowLength rows.length prior (filterRows n prior rows) = some (rows.flatMap Prod.snd) := by
  induction rows generalizing prior with
  | nil => rfl
  | cons row rows ih =>
    obtain ⟨type, row⟩ := row
    obtain ⟨htype, hlen⟩ := h (type, row) (by simp)
    dsimp only at htype hlen
    have hfilter : (filterLine type.toNat n prior row).length = rowLength := by simp [filterLine, hlen]
    have hok : ¬(type.toNat > 4 ∨ (filterLine type.toNat n prior row ++ filterRows n row rows).length < rowLength) := by
      rintro (hgt | hlt)
      · exact absurd htype (Nat.not_le.2 hgt)
      · rw [List.length_append, hfilter] at hlt
        omega
    rw [List.length_cons, unfilter, filterRows]
    simp only [List.head?_cons, List.tail_cons, Option.bind_eq_bind, Option.bind_some, if_neg hok, List.take_left' hfilter,
      List.drop_left' hfilter, unfilterLine_filterLine hn, ih (fun r hr => h r (by simp [hr])) row]
    rfl

/-! ## Files -/

def signature : List UInt8 := [137, 80, 78, 71, 13, 10, 26, 10]

def ihdr : List UInt8 := [73, 72, 68, 82]

def idat : List UInt8 := [73, 68, 65, 84]

def iend : List UInt8 := [73, 69, 78, 68]

/-- A chunk: its length, its tag and data, and their checksum. -/
def chunk (tag data : List UInt8) : List UInt8 :=
  bytes 4 data.length ++ (tag ++ data) ++ bytes 4 (crc32 (tag ++ data)).toNat

/-- The tag and the data of the next chunk, if its checksum is right. -/
def takeChunk (file : List UInt8) : Option ((List UInt8 × List UInt8) × List UInt8) := do
  let length := value (file.take 4)
  if length ≥ 2 ^ 31 ∨ file.length < 12 + length then failure
  let body := (file.drop 4).take (4 + length)
  let rest := file.drop (4 + (4 + length))
  if value (rest.take 4) ≠ (crc32 body).toNat then failure
  return ((body.take 4, body.drop 4), rest.drop 4)

theorem takeChunk_chunk {tag data : List UInt8} (ht : tag.length = 4) (hd : data.length < 2 ^ 31) (rest : List UInt8) :
    takeChunk (chunk tag data ++ rest) = some ((tag, data), rest) := by
  have hbody : (tag ++ data).length = 4 + data.length := by rw [List.length_append, ht]
  have hlength : value ((chunk tag data ++ rest).take 4) = data.length := by
    rw [chunk, List.append_assoc, List.append_assoc, List.take_left' (bytes_length 4 _), value_bytes]
    exact lt_trans hd (by decide)
  have hroom : ¬(data.length ≥ 2 ^ 31 ∨ (chunk tag data ++ rest).length < 12 + data.length) := by
    simp only [chunk, List.length_append, bytes_length, ht]
    omega
  have htake : ((chunk tag data ++ rest).drop 4).take (4 + data.length) = tag ++ data := by
    rw [chunk, List.append_assoc, List.append_assoc, List.drop_left' (bytes_length 4 _), List.take_left' hbody]
  have hdrop : (chunk tag data ++ rest).drop (4 + (4 + data.length)) = bytes 4 (crc32 (tag ++ data)).toNat ++ rest := by
    rw [← List.drop_drop, chunk, List.append_assoc, List.append_assoc, List.drop_left' (bytes_length 4 _),
      List.drop_left' hbody]
  have hcrc : value (bytes 4 (crc32 (tag ++ data)).toNat) = (crc32 (tag ++ data)).toNat :=
    value_bytes (crc32 (tag ++ data)).isLt
  unfold takeChunk
  simp only [hlength, hroom, htake, hdrop, List.take_left' (bytes_length 4 _), List.drop_left' (bytes_length 4 _), hcrc,
    List.take_left' ht, List.drop_left' ht]
  simp

/-- The data chunks up to the end of the file, put together. -/
def takeData : Nat → List UInt8 → Option (List UInt8)
  | 0, _ => none
  | n + 1, file => do
    let ((tag, data), rest) ← takeChunk file
    if tag = idat then return data ++ (← takeData n rest)
    if tag = iend ∧ data = [] ∧ rest = [] then return []
    failure

/-- The channels of a colour type. -/
def channelsOf (colour : UInt8) : Option Nat :=
  if colour = 0 then some 1 else if colour = 2 then some 3 else if colour = 4 then some 2
  else if colour = 6 then some 4 else none

/-- A picture: its pixels are stored row by row, with one byte for each channel. -/
structure Picture where
  width : Nat
  height : Nat
  channels : Nat
  pixels : List UInt8
  deriving DecidableEq, Repr

def decode (file : List UInt8) : Option Picture := do
  if file.take 8 ≠ signature then failure
  let ((tag, header), file) ← takeChunk (file.drop 8)
  let width := value (header.take 4)
  let height := value ((header.drop 4).take 4)
  let colour := header.getD 9 0
  if tag ≠ ihdr ∨ header.drop 8 ≠ [8, colour, 0, 0, 0] ∨ width = 0 ∨ height = 0 then failure
  let channels ← channelsOf colour
  let stream ← takeData file.length file
  let data ← Zlib.decompress stream
  return ⟨width, height, channels, ← unfilter channels (width * channels) height [] data⟩

/-- A file with one data chunk. -/
def file (width height : Nat) (colour : UInt8) (stream : List UInt8) : List UInt8 :=
  signature ++ chunk ihdr (bytes 4 width ++ bytes 4 height ++ [8, colour, 0, 0, 0]) ++ chunk idat stream ++ chunk iend []

theorem chunk_length {tag data : List UInt8} (h : tag.length = 4) : (chunk tag data).length = 12 + data.length := by
  simp only [chunk, List.length_append, bytes_length, h]
  omega

theorem file_length (width height : Nat) (colour : UInt8) (stream : List UInt8) :
    (file width height colour stream).length = 57 + stream.length := by
  have hi : ihdr.length = 4 := rfl
  have hd : idat.length = 4 := rfl
  have he : iend.length = 4 := rfl
  have hs : signature.length = 8 := rfl
  simp only [file, List.length_append, chunk_length hi, chunk_length hd, chunk_length he, hs, bytes_length,
    List.length_cons, List.length_nil]
  omega

theorem decode_file {width height channels : Nat} {colour : UInt8} {stream data pixels : List UInt8} (hw : 0 < width)
    (hw' : width < 2 ^ 32) (hh : 0 < height) (hh' : height < 2 ^ 32) (hc : channelsOf colour = some channels)
    (hs : stream.length < 2 ^ 31) (hz : Zlib.decompress stream = some data)
    (hu : unfilter channels (width * channels) height [] data = some pixels) :
    decode (file width height colour stream) = some ⟨width, height, channels, pixels⟩ := by
  have hsig (rest : List UInt8) : (signature ++ rest).take 8 = signature := List.take_left' rfl
  have hsig' (rest : List UInt8) : (signature ++ rest).drop 8 = rest := List.drop_left' rfl
  have hihdr (d rest : List UInt8) (h : d.length < 2 ^ 31) := @takeChunk_chunk ihdr d rfl h rest
  have hheader : (bytes 4 width ++ bytes 4 height ++ [8, colour, 0, 0, 0]).length = 13 := by simp
  have hwidth : value ((bytes 4 width ++ bytes 4 height ++ [8, colour, 0, 0, 0]).take 4) = width := by
    rw [List.append_assoc, List.take_left' (bytes_length 4 _), value_bytes hw']
  have hheight : value (((bytes 4 width ++ bytes 4 height ++ [8, colour, 0, 0, 0]).drop 4).take 4) = height := by
    rw [List.append_assoc, List.drop_left' (bytes_length 4 _), List.take_left' (bytes_length 4 _), value_bytes hh']
  have hset : (bytes 4 width ++ bytes 4 height ++ [8, colour, 0, 0, 0]).drop 8 = [8, colour, 0, 0, 0] :=
    List.drop_left' (by simp)
  have hcolour : (bytes 4 width ++ bytes 4 height ++ [8, colour, 0, 0, 0]).getD 9 0 = colour := by
    rw [List.getD_eq_getElem?_getD, List.getElem?_append_right (by simp)]
    simp
  have hdata : takeData (chunk idat stream ++ chunk iend []).length (chunk idat stream ++ chunk iend []) = some stream := by
    have hi : idat.length = 4 := rfl
    have hend := @takeChunk_chunk iend [] rfl (by decide) []
    rw [List.append_nil] at hend
    have hlast (n : Nat) : takeData (n + 1) (chunk iend []) = some [] := by
      rw [takeData, hend]
      rfl
    obtain ⟨n, hn⟩ : ∃ n, (chunk idat stream ++ chunk iend []).length = n + 2 :=
      ⟨(chunk idat stream ++ chunk iend []).length - 2, by rw [List.length_append, chunk_length hi]; omega⟩
    rw [hn, takeData, @takeChunk_chunk idat stream rfl hs]
    simp [hlast]
  unfold decode file
  simp only [List.append_assoc signature, hsig, hsig']
  rw [List.append_assoc (chunk ihdr _), hihdr _ _ (by rw [hheader]; decide)]
  simp only [Option.bind_eq_bind, Option.bind_some, hwidth, hheight, hset, hcolour, hc, hdata, hz, hu]
  simp [Nat.pos_iff_ne_zero.1 hw, Nat.pos_iff_ne_zero.1 hh]

end Lib.Png
