import RemoteScreenCapture.Common
/-!
# The screen grabber

`screen_grabber.cc`: an image of the X server becomes a vector of RGB pixels.
The four layouts, any stride and any padding give the same vector for the same
picture, as long as the products fit in an `int`. Nothing sees to that.
-/
open Lib Lib.BigEndian

namespace RemoteScreenCapture

namespace ScreenGrabber

/-- What leaves `GrabAsPNG` instead of a value. -/
inductive GrabExn where
  | grabberError (info : String)
  /-- A vector of more than `max_size()` bytes. -/
  | lengthError
  /-- An `int` expression whose value is none. -/
  | overflow
  /-- A read or write outside its buffer. -/
  | outOfBounds
  /-- A read of a variable that was not set. -/
  | uninitialised
  deriving DecidableEq, Repr

inductive ByteOrder where
  | lsbFirst
  | msbFirst
  deriving DecidableEq, Repr

/-- An `XImage` in `ZPixmap` format, as far as `ConvertToRGB` reads it. -/
structure XImage where
  data : Bytes
  bytesPerLine : Int
  bitsPerPixel : Int
  byteOrder : ByteOrder
  isInt : IsInt bytesPerLine
  deriving DecidableEq, Repr

/-- The vector `pixels` while it is filled, and (ghost) the places assigned so far. -/
structure Pixels where
  bytes : Bytes
  assigned : List Nat
  deriving DecidableEq, Repr

abbrev GrabProc := Proc Pixels GrabExn

/-- The value of an `int` expression. -/
def int (n : Int) : GrabProc Int := if IsInt n then return n else throw .overflow

/-- `std::vector<uint8_t> pixels(size)` -/
def pixelsVector (size : Int) : GrabProc Unit :=
  -- As a `size_t`, a negative size is more than `max_size()`.
  if size < 0 then throw .lengthError else set (⟨List.replicate size.toNat 0, []⟩ : Pixels)

/-- `pixels[idx] = value` -/
def assign (idx : Nat) (value : UInt8) : GrabProc Unit := do
  let pixels ← get
  if idx < pixels.bytes.length then
    set (⟨pixels.bytes.set idx value, pixels.assigned ++ [idx]⟩ : Pixels)
  else
    throw .outOfBounds

/-- `row[i]`, where `row` is `offset` bytes behind the start of the data. -/
def XImage.read (img : XImage) (offset i : Int) : GrabProc UInt8 :=
  if 0 ≤ offset + i ∧ offset + i < img.data.length then
    return img.data.getD (offset + i).toNat 0
  else
    throw .outOfBounds

structure RGB where
  red : UInt8
  green : UInt8
  blue : UInt8
  deriving DecidableEq, Repr

/-- The three colours of the pixel `x` of a row. -/
def readPixel (img : XImage) (row x : Int) : GrabProc RGB := do
  let bpp := img.bitsPerPixel
  let isLsbFirst := img.byteOrder = .lsbFirst
  if bpp = 24 then
    if isLsbFirst then
      -- 24 bpp LSBFirst: BGR
      let blue ← img.read row (← int ((← int (x * 3)) + 0))
      let green ← img.read row (← int ((← int (x * 3)) + 1))
      let red ← img.read row (← int ((← int (x * 3)) + 2))
      return ⟨red, green, blue⟩
    else
      -- 24 bpp MSBFirst: RGB
      let red ← img.read row (← int ((← int (x * 3)) + 0))
      let green ← img.read row (← int ((← int (x * 3)) + 1))
      let blue ← img.read row (← int ((← int (x * 3)) + 2))
      return ⟨red, green, blue⟩
  else if bpp = 32 then
    if isLsbFirst then
      -- 32 bpp LSBFirst: BGRA
      let blue ← img.read row (← int ((← int (x * 4)) + 0))
      let green ← img.read row (← int ((← int (x * 4)) + 1))
      let red ← img.read row (← int ((← int (x * 4)) + 2))
      return ⟨red, green, blue⟩
    else
      -- 32 bpp MSBFirst: ARGB
      let red ← img.read row (← int ((← int (x * 4)) + 1))
      let green ← img.read row (← int ((← int (x * 4)) + 2))
      let blue ← img.read row (← int ((← int (x * 4)) + 3))
      return ⟨red, green, blue⟩
  else
    throw .uninitialised

/-- `static_cast<size_t>` of an `int`. -/
def sizeT (n : Int) : Nat := (n % 2 ^ 64).toNat

def channels : Int := 3

/-- The body of the loop over `x`. -/
def convertPixel (img : XImage) (width y row x : Int) : GrabProc Unit := do
  let colours ← readPixel img row x
  let idx := sizeT (← int ((← int ((← int (y * width)) + x)) * channels))
  assign (idx + 0) colours.red
  assign (idx + 1) colours.green
  assign (idx + 2) colours.blue

/-- The body of the loop over `y`. -/
def convertRow (img : XImage) (width y : Int) : GrabProc Unit := do
  let row ← int (y * img.bytesPerLine)
  Proc.forUpTo width.toNat fun x => convertPixel img width y row x

def convertToRGB (img : XImage) (width height : Int) : GrabProc Bytes := do
  pixelsVector (← int ((← int (width * height)) * channels))
  let bpp := img.bitsPerPixel
  if bpp ≠ 24 ∧ bpp ≠ 32 then
    throw (.grabberError ("Unsupported bits_per_pixel: " ++ toString bpp))
  Proc.forUpTo height.toNat fun y => convertRow img width y
  return (← get).bytes

/-- What the X server gives. -/
structure Screen where
  openDisplay : Bool
  /-- The width and the height of the root window. -/
  windowAttributes : Option (Int × Int)
  getImage : Int → Int → Option XImage

/-- `stbi_write_png_to_func`: all that it writes, for a width, a height, the
number of components, the pixels and their stride. -/
abbrev StbiWritePng := Int → Int → Int → Bytes → Int → Bytes

def encodePNG (stbi : StbiWritePng) (pixels : Bytes) (width height : Int) : GrabProc Bytes := do
  return stbi width height 3 pixels (← int (width * 3))

/-- `GrabAsPNG`: the PNG, its width and its height. -/
def grabAsPNG (stbi : StbiWritePng) (screen : Screen) : GrabProc (Bytes × Int × Int) := do
  if ¬screen.openDisplay then
    throw (.grabberError "XOpenDisplay() failed. Check DISPLAY.")
  match screen.windowAttributes with
  | none => throw (.grabberError "XGetWindowAttributes() failed.")
  | some (width, height) =>
    if width ≤ 0 ∨ height ≤ 0 then
      throw (.grabberError "Invalid screen size.")
    match screen.getImage width height with
    | none => throw (.grabberError "XGetImage() failed.")
    | some img =>
      let pixels ← convertToRGB img width height
      let outPng ← encodePNG stbi pixels width height
      return (outPng, width, height)

/-! ## Row by row -/

section Grid
variable {width height x y : Nat}

/-- The place of `(x, y)` in a grid that is stored row by row. -/
theorem place_lt (hx : x < width) (hy : y < height) : y * width + x < height * width :=
  calc y * width + x < (y + 1) * width := by rw [Nat.succ_mul]; omega
    _ ≤ height * width := Nat.mul_le_mul_right _ hy

theorem place_mod (hx : x < width) : (y * width + x) % width = x := Nat.mul_add_mod_of_lt hx

theorem place_div (hx : x < width) : (y * width + x) / width = y := by
  rw [Nat.mul_comm, Nat.mul_add_div (by omega), Nat.div_eq_of_lt hx, Nat.add_zero]

end Grid

/-! ## What an image shows -/

/-- A colour of a pixel under its mask. -/
def RGB.ofPixel (pixel : Nat) : RGB :=
  ⟨.ofNat ((pixel &&& 0xFF0000) >>> 16), .ofNat ((pixel &&& 0x00FF00) >>> 8), .ofNat (pixel &&& 0x0000FF)⟩

def RGB.bytes (c : RGB) : Bytes := [c.red, c.green, c.blue]

namespace XImage

/-- The formats that `ConvertToRGB` reads. -/
def Supported (img : XImage) : Prop := img.bitsPerPixel = 24 ∨ img.bitsPerPixel = 32

instance (img : XImage) : Decidable img.Supported := inferInstanceAs (Decidable (_ ∨ _))

/-- The image has `height` rows with room for `width` pixels. -/
structure Spans (img : XImage) (width height : Int) : Prop where
  stride : width * img.bitsPerPixel / 8 ≤ img.bytesPerLine
  data : img.data.length = height * img.bytesPerLine

/-- The rows are of a supported format. -/
structure Covers (img : XImage) (width height : Int) : Prop extends Spans img width height where
  bpp : img.Supported

variable (img : XImage)

def bytesPerPixel : Nat := (img.bitsPerPixel / 8).toNat

/-- The byte `k` of the pixel `(x, y)`. -/
def byteAt (x y k : Nat) : UInt8 := img.data.getD (y * img.bytesPerLine.toNat + x * img.bytesPerPixel + k) 0

/-- `XGetPixel(img, x, y)` -/
def getPixel (x y : Nat) : Nat :=
  let stored := (List.range img.bytesPerPixel).map (img.byteAt x y)
  match img.byteOrder with
  | .lsbFirst => value stored.reverse
  | .msbFirst => value stored

/-- The colours of the first `n` pixels of a picture of this width, row by row. -/
def shown (width n : Nat) : Bytes :=
  (List.range n).flatMap fun i => (RGB.ofPixel (img.getPixel (i % width) (i / width))).bytes

end XImage

theorem mask_shift (pixel k : Nat) : (pixel &&& (0xFF <<< k)) >>> k = pixel >>> k % 256 := by
  rw [Nat.shiftRight_and_distrib, Nat.shiftLeft_shiftRight]
  exact Nat.and_two_pow_sub_one_eq_mod _ 8

/-- The masks cut the low three bytes out of a pixel. -/
theorem RGB.ofPixel_eq (pixel : Nat) :
    RGB.ofPixel pixel = ⟨.ofNat (pixel / 65536), .ofNat (pixel / 256), .ofNat pixel⟩ := by
  have hred := mask_shift pixel 16
  have hgreen := mask_shift pixel 8
  have hblue := mask_shift pixel 0
  simp only [Nat.shiftRight_eq_div_pow] at hred hgreen hblue
  unfold RGB.ofPixel
  congr 1 <;> apply UInt8.toNat_inj.1
  all_goals simp_all [Nat.shiftRight_eq_div_pow]

/-- The last three bytes of a pixel in big-endian order are its colours. -/
theorem RGB.ofPixel_value (front : Bytes) (c : RGB) : RGB.ofPixel (value (front ++ c.bytes)) = c := by
  have hsplit : front ++ c.bytes = ((front ++ [c.red]) ++ [c.green]) ++ [c.blue] := by simp [RGB.bytes]
  have hred := c.red.toNat_lt
  have hgreen := c.green.toNat_lt
  have hblue := c.blue.toNat_lt
  rw [hsplit, RGB.ofPixel_eq]
  simp only [value_append_singleton]
  cases c
  congr 1 <;> apply UInt8.toNat_inj.1 <;> rw [UInt8.toNat_ofNat'] <;> dsimp only at * <;> omega

/-! ## One pixel -/

section Steps
variable {α : Type} {pixels : Pixels} {n : Int}

theorem int_of (h : IsInt n) (f : Int → GrabProc α) : (int n >>= f) pixels = f n pixels := by
  unfold int
  rw [if_pos h]
  rfl

theorem int_overflow (h : ¬IsInt n) (f : Int → GrabProc α) : (int n >>= f) pixels = .throws .overflow pixels := by
  unfold int
  rw [if_neg h]
  rfl

/-- An assignment to the first place that is not yet assigned. -/
theorem assign_next (front rest : Bytes) (v value : UInt8) {idx : Nat} (hi : idx = front.length) :
    assign idx value ⟨front ++ v :: rest, List.range idx⟩ =
      .returns () ⟨(front ++ [value]) ++ rest, List.range (idx + 1)⟩ := by
  unfold assign
  rw [Proc.bind_returns (Proc.get_apply _), Proc.ite_apply, if_pos (by simp [hi])]
  simp [hi, List.range_succ]

end Steps

namespace XImage

variable {img : XImage} {width height x y : Nat}

theorem Covers.bytesPerPixel (h : img.Covers width height) :
    img.bitsPerPixel = 8 * img.bytesPerPixel ∧ (img.bytesPerPixel = 3 ∨ img.bytesPerPixel = 4) := by
  unfold XImage.bytesPerPixel
  rcases h.bpp with hb | hb <;> rw [hb] <;> decide

/-- The stride has room for a row of pixels, and the data for all rows. -/
theorem Covers.stride_toNat (h : img.Covers width height) :
    (img.bytesPerLine.toNat : Int) = img.bytesPerLine ∧ width * img.bytesPerPixel ≤ img.bytesPerLine.toNat ∧
      img.data.length = height * img.bytesPerLine.toNat := by
  obtain ⟨hbits, -⟩ := h.bytesPerPixel
  have hstride := h.stride
  rw [hbits, show (width : Int) * (8 * img.bytesPerPixel) = 8 * ((width * img.bytesPerPixel : Nat) : Int) by
    push_cast; ring, Int.mul_ediv_cancel_left _ (by decide)] at hstride
  have hnat : (img.bytesPerLine.toNat : Int) = img.bytesPerLine := Int.toNat_of_nonneg (by omega)
  refine ⟨hnat, by omega, ?_⟩
  have hdata := h.data
  rw [← hnat] at hdata
  exact_mod_cast hdata

theorem read_of {α : Type} {pixels : Pixels} {offset i : Int} {n : Nat} (hn : offset + i = n) (h : n < img.data.length)
    (f : UInt8 → GrabProc α) : (img.read offset i >>= f) pixels = f (img.data.getD n 0) pixels := by
  unfold read
  rw [hn, if_pos ⟨Int.natCast_nonneg n, by exact_mod_cast h⟩]
  rfl

/-- The byte `k` of a pixel of the picture lies in the data. -/
theorem Covers.inside (h : img.Covers width height) (hx : x < width) (hy : y < height) {k : Nat}
    (hk : k < img.bytesPerPixel) :
    x * img.bytesPerPixel + k < img.bytesPerLine.toNat ∧
      y * img.bytesPerLine.toNat + (x * img.bytesPerPixel + k) < img.data.length := by
  obtain ⟨-, hstride, hdata⟩ := h.stride_toNat
  have hrow : x * img.bytesPerPixel + k < img.bytesPerLine.toNat := lt_of_lt_of_le (place_lt hk hx) hstride
  refine ⟨hrow, ?_⟩
  rw [hdata]
  exact place_lt hrow hy

/-- `row[x * m + k]`, in a format of `m` bytes per pixel. -/
theorem Covers.read_byte {α : Type} (h : img.Covers width height) (hx : x < width) (hy : y < height) {m : Nat}
    (hm : img.bytesPerPixel = m) {k : Nat} (hk : k < m) (f : UInt8 → GrabProc α) (pixels : Pixels) :
    (do
      let i ← int ((← int ((x : Int) * (m : Int))) + (k : Int))
      f (← img.read (y * img.bytesPerLine) i)) pixels = f (img.byteAt x y k) pixels := by
  subst hm
  obtain ⟨hnat, -⟩ := h.stride_toNat
  obtain ⟨hrow, hin⟩ := h.inside hx hy hk
  have hlt := img.isInt.2
  have hcol : IsInt ((x : Int) * img.bytesPerPixel) := by
    constructor <;> omega
  have hi : IsInt ((x : Int) * img.bytesPerPixel + k) := by
    constructor <;> omega
  have hat : y * img.bytesPerLine + ((x : Int) * img.bytesPerPixel + k) =
      ((y * img.bytesPerLine.toNat + (x * img.bytesPerPixel + k) : Nat) : Int) := by
    push_cast
    rw [hnat]
  rw [int_of hcol, int_of hi, read_of hat hin, byteAt, Nat.add_assoc]

end XImage

section Conversion
variable {img : XImage} {width height x y : Nat}

/-- Three bytes of a pixel, read one after the other. -/
theorem read_three (h : img.Covers width height) (hx : x < width) (hy : y < height) {m : Nat}
    (hm : img.bytesPerPixel = m) {k₁ k₂ k₃ : Nat} (h₁ : k₁ < m) (h₂ : k₂ < m) (h₃ : k₃ < m)
    (f : UInt8 → UInt8 → UInt8 → RGB) (pixels : Pixels) :
    (do
      let a ← img.read (y * img.bytesPerLine) (← int ((← int ((x : Int) * (m : Int))) + (k₁ : Int)))
      let b ← img.read (y * img.bytesPerLine) (← int ((← int ((x : Int) * (m : Int))) + (k₂ : Int)))
      let c ← img.read (y * img.bytesPerLine) (← int ((← int ((x : Int) * (m : Int))) + (k₃ : Int)))
      return f a b c) pixels = .returns (f (img.byteAt x y k₁) (img.byteAt x y k₂) (img.byteAt x y k₃)) pixels := by
  have byte {k : Nat} (hk : k < m) := @XImage.Covers.read_byte img width height x y RGB h hx hy m hm k hk
  rw [byte h₁, byte h₂, byte h₃]
  rfl

/-- What stands for a pixel ends or begins with its colours, by the byte order. -/
theorem ofPixel_lsbFirst (ho : img.byteOrder = .lsbFirst) {front : Bytes} {c : RGB}
    (hb : ((List.range img.bytesPerPixel).map (img.byteAt x y)).reverse = front ++ c.bytes) :
    RGB.ofPixel (img.getPixel x y) = c := by
  unfold XImage.getPixel
  rw [ho]
  dsimp only
  rw [hb, RGB.ofPixel_value]

theorem ofPixel_msbFirst (ho : img.byteOrder = .msbFirst) {front : Bytes} {c : RGB}
    (hb : (List.range img.bytesPerPixel).map (img.byteAt x y) = front ++ c.bytes) :
    RGB.ofPixel (img.getPixel x y) = c := by
  unfold XImage.getPixel
  rw [ho]
  dsimp only
  rw [hb, RGB.ofPixel_value]

/-- The colours that are read are those of the pixel. -/
theorem readPixel_spec (h : img.Covers width height) (hx : x < width) (hy : y < height) (pixels : Pixels) :
    readPixel img (y * img.bytesPerLine) x pixels = .returns (RGB.ofPixel (img.getPixel x y)) pixels := by
  unfold readPixel
  rcases h.bpp with hb | hb
  · have hm : img.bytesPerPixel = 3 := by rw [XImage.bytesPerPixel, hb]; rfl
    have hread := @read_three img width height x y h hx hy 3 hm
    cases ho : img.byteOrder with
    | lsbFirst =>
      have hc := @ofPixel_lsbFirst img x y ho [] ⟨img.byteAt x y 2, img.byteAt x y 1, img.byteAt x y 0⟩
        (by rw [hm]; rfl)
      rw [hc]
      simp only [hb, reduceIte]
      exact @hread 0 1 2 (by omega) (by omega) (by omega) (fun a b c => ⟨c, b, a⟩) pixels
    | msbFirst =>
      have hc := @ofPixel_msbFirst img x y ho [] ⟨img.byteAt x y 0, img.byteAt x y 1, img.byteAt x y 2⟩
        (by rw [hm]; rfl)
      rw [hc]
      simp only [hb, reduceIte, reduceCtorEq]
      exact @hread 0 1 2 (by omega) (by omega) (by omega) (fun a b c => ⟨a, b, c⟩) pixels
  · have hm : img.bytesPerPixel = 4 := by rw [XImage.bytesPerPixel, hb]; rfl
    have hread := @read_three img width height x y h hx hy 4 hm
    cases ho : img.byteOrder with
    | lsbFirst =>
      have hc := @ofPixel_lsbFirst img x y ho [img.byteAt x y 3] ⟨img.byteAt x y 2, img.byteAt x y 1, img.byteAt x y 0⟩
        (by rw [hm]; rfl)
      rw [hc]
      simp only [hb, reduceIte, Int.reduceEq]
      exact @hread 0 1 2 (by omega) (by omega) (by omega) (fun a b c => ⟨c, b, a⟩) pixels
    | msbFirst =>
      have hc := @ofPixel_msbFirst img x y ho [img.byteAt x y 0] ⟨img.byteAt x y 1, img.byteAt x y 2, img.byteAt x y 3⟩
        (by rw [hm]; rfl)
      rw [hc]
      simp only [hb, reduceIte, Int.reduceEq, reduceCtorEq]
      exact @hread 1 2 3 (by omega) (by omega) (by omega) (fun a b c => ⟨a, b, c⟩) pixels

/-! ## All pixels -/

theorem shown_succ (n : Nat) :
    img.shown width (n + 1) = img.shown width n ++ (RGB.ofPixel (img.getPixel (n % width) (n / width))).bytes := by
  simp [XImage.shown, List.range_succ]

@[simp] theorem shown_length (n : Nat) : (img.shown width n).length = 3 * n := by
  induction n with
  | zero => rfl
  | succ n ih =>
    rw [shown_succ, List.length_append, ih]
    rfl

/-- The vector when `n` of its `total` pixels are assigned. -/
def filled (img : XImage) (width total n : Nat) : Pixels :=
  ⟨img.shown width n ++ List.replicate (3 * (total - n)) 0, List.range (3 * n)⟩

/-- The three assignments of a pixel. -/
theorem assign_pixel {total n : Nat} (hn : n < total) {c : RGB}
    (hc : c = RGB.ofPixel (img.getPixel (n % width) (n / width))) :
    (do
      assign (3 * n + 0) c.red
      assign (3 * n + 1) c.green
      assign (3 * n + 2) c.blue) (filled img width total n) = .returns () (filled img width total (n + 1)) := by
  obtain ⟨m, rfl⟩ : ∃ m, total = n + 1 + m := ⟨total - (n + 1), by omega⟩
  have hrest : List.replicate (3 * (n + 1 + m - n)) (0 : UInt8) = 0 :: 0 :: 0 :: List.replicate (3 * m) 0 := by
    rw [show 3 * (n + 1 + m - n) = 3 * m + 1 + 1 + 1 by omega]
    simp only [List.replicate_succ]
  have hdone : n + 1 + m - (n + 1) = m := by omega
  unfold filled
  rw [hrest, Nat.add_zero, Proc.bind_returns (assign_next _ _ _ _ (by simp)),
    Proc.bind_returns (assign_next _ _ _ _ (by simp)), assign_next _ _ _ _ (by simp), shown_succ, ← hc, hdone]
  simp [RGB.bytes, Nat.mul_succ]

theorem sizeT_of {n : Int} {m : Nat} (h : IsInt n) (hm : n = m) : sizeT n = m := by
  have hlt := h.2
  unfold sizeT
  omega

/-- One pass over `x` assigns the next pixel. -/
theorem convertPixel_spec (h : img.Covers width height) (hsize : IsInt ((width : Int) * height * channels))
    (hx : x < width) (hy : y < height) :
    convertPixel img width y (y * img.bytesPerLine) x (filled img width (width * height) (y * width + x)) =
      .returns () (filled img width (width * height) (y * width + x + 1)) := by
  have hlt : y * width + x < width * height := by
    rw [Nat.mul_comm width]
    exact place_lt hx hy
  have hn : (y : Int) * width + x = ((y * width + x : Nat) : Int) := by push_cast; rfl
  have hle : (y * width : Nat) ≤ y * width + x := Nat.le_add_right _ _
  have hmax : ((width * height : Nat) : Int) * 3 < 2 ^ 31 := by
    push_cast
    exact hsize.2
  have hline : IsInt ((y : Int) * width) := by
    rw [← Nat.cast_mul]
    constructor <;> omega
  have hplace : IsInt ((y : Int) * width + x) := by
    rw [hn]
    constructor <;> omega
  have hidx : IsInt (((y : Int) * width + x) * channels) := by
    rw [hn]
    constructor <;> unfold channels <;> omega
  unfold convertPixel
  rw [Proc.bind_returns (readPixel_spec h hx hy _), int_of hline, int_of hplace, int_of hidx,
    sizeT_of hidx (show _ = ((3 * (y * width + x) : Nat) : Int) by rw [hn, channels]; omega)]
  exact assign_pixel hlt (by rw [place_mod hx, place_div hx])

/-- One pass over `y` assigns the next row. -/
theorem convertRow_spec (h : img.Covers width height) (hsize : IsInt ((width : Int) * height * channels))
    (hy : y < height) (hrow : IsInt (y * img.bytesPerLine)) :
    convertRow img width y (filled img width (width * height) (y * width)) =
      .returns () (filled img width (width * height) ((y + 1) * width)) := by
  unfold convertRow
  rw [int_of hrow, Int.toNat_natCast, Nat.succ_mul]
  exact Proc.forUpTo_returns fun x hx => convertPixel_spec h hsize hx hy

theorem convertRow_overflow (pixels : Pixels) (hrow : ¬IsInt (y * img.bytesPerLine)) :
    convertRow img width y pixels = .throws .overflow pixels := by
  unfold convertRow
  rw [int_overflow hrow]

theorem area_isInt (hsize : IsInt ((width : Int) * height * channels)) : IsInt ((width : Int) * height) := by
  obtain ⟨-, hmax⟩ := hsize
  rw [← Nat.cast_mul] at hmax ⊢
  unfold channels at hmax
  constructor <;> omega

/-- The vector before the loops. -/
theorem pixelsVector_spec (pixels : Pixels) :
    pixelsVector ((width : Int) * height * channels) pixels = .returns () (filled img width (width * height) 0) := by
  have hsize : (width : Int) * height * channels = ((3 * (width * height) : Nat) : Int) := by
    push_cast
    rw [Int.mul_comm, channels]
  unfold pixelsVector
  rw [hsize, if_neg (by omega), Int.toNat_natCast]
  simp [filled, XImage.shown]

/-- `ConvertToRGB`, on a supported format, up to its loops. -/
theorem convertToRGB_loops (h : img.Covers width height) (hsize : IsInt ((width : Int) * height * channels))
    (pixels : Pixels) :
    convertToRGB img width height pixels =
      (Proc.forUpTo height (fun y => convertRow img width y) >>= fun _ => do return (← get).bytes)
        (filled img width (width * height) 0) := by
  have hbpp : ¬(img.bitsPerPixel ≠ 24 ∧ img.bitsPerPixel ≠ 32) := by
    rintro ⟨h24, h32⟩
    exact h.bpp.elim h24 h32
  unfold convertToRGB
  rw [int_of (area_isInt hsize), int_of hsize, Proc.bind_returns (pixelsVector_spec pixels)]
  simp only [hbpp, if_false]
  rfl

/-- If the products fit, every place is assigned what the image shows. -/
theorem convertToRGB_returns (h : img.Covers width height) (hsize : IsInt ((width : Int) * height * channels))
    (hrows : ∀ y < height, IsInt (y * img.bytesPerLine)) (pixels : Pixels) :
    convertToRGB img width height pixels =
      .returns (img.shown width (width * height)) (filled img width (width * height) (width * height)) := by
  have hstates : Proc.forUpTo height (fun y => convertRow img width y) (filled img width (width * height) 0) =
      .returns () (filled img width (width * height) (height * width)) := by
    have hloop := @Proc.forUpTo_returns Pixels GrabExn height (fun y => convertRow img width y)
      (fun y => filled img width (width * height) (y * width))
      (fun y hy => convertRow_spec h hsize hy (hrows y hy))
    rwa [Nat.zero_mul] at hloop
  rw [convertToRGB_loops h hsize, Proc.bind_returns hstates, Nat.mul_comm height]
  simp [Proc.bind_apply, filled]

theorem convertToRGB_size (hsize : ¬IsInt ((width : Int) * height * channels)) (pixels : Pixels) :
    convertToRGB img width height pixels = .throws .overflow pixels := by
  unfold convertToRGB
  by_cases harea : IsInt ((width : Int) * height)
  · rw [int_of harea, int_overflow hsize]
  · rw [int_overflow harea]

/-- If one does not, the run comes to it. -/
theorem convertToRGB_overflow (h : img.Covers width height)
    (hno : ¬(IsInt ((width : Int) * height * channels) ∧ ∀ y < height, IsInt (y * img.bytesPerLine))) (pixels : Pixels) :
    ∃ pixels', convertToRGB img width height pixels = .throws .overflow pixels' := by
  by_cases hsize : IsInt ((width : Int) * height * channels)
  · -- The rows before the first whose offset is too large are converted.
    have hsome : ∃ y, y < height ∧ ¬IsInt (y * img.bytesPerLine) := by
      by_contra hall
      exact hno ⟨hsize, fun y hy => by_contra fun hbad => hall ⟨y, hy, hbad⟩⟩
    obtain ⟨hy, hbad⟩ := Nat.find_spec hsome
    have hbefore : ∀ y < Nat.find hsome, IsInt (y * img.bytesPerLine) := by
      intro y hlt
      by_contra hbad'
      exact Nat.find_min hsome hlt ⟨hlt.trans hy, hbad'⟩
    have hloop := @Proc.forUpTo_throws Pixels GrabExn height (fun y => convertRow img width y)
      (fun y => filled img width (width * height) (y * width)) _ .overflow _
      (fun y hlt => convertRow_spec h hsize (hlt.trans hy) (hbefore y hlt)) hy (convertRow_overflow _ hbad)
    rw [Nat.zero_mul] at hloop
    rw [convertToRGB_loops h hsize, Proc.bind_throws hloop]
    exact ⟨_, rfl⟩
  · exact ⟨_, convertToRGB_size hsize pixels⟩

def unsupported (img : XImage) : GrabExn := .grabberError ("Unsupported bits_per_pixel: " ++ toString img.bitsPerPixel)

/-- An image of another format is refused, before a row is read. -/
theorem convertToRGB_unsupported (hb : ¬img.Supported) (hsize : IsInt ((width : Int) * height * channels))
    (pixels : Pixels) :
    convertToRGB img width height pixels = .throws (unsupported img) (filled img width (width * height) 0) := by
  have hbpp : img.bitsPerPixel ≠ 24 ∧ img.bitsPerPixel ≠ 32 := not_or.1 hb
  unfold convertToRGB
  rw [int_of (area_isInt hsize), int_of hsize, Proc.bind_returns (pixelsVector_spec pixels)]
  simp only [if_pos hbpp]
  rfl

end Conversion

/-! ## The products -/

/-- The `int` products of `ConvertToRGB` have values, for every row and every pixel. -/
structure IntsFit (img : XImage) (width height : Int) : Prop where
  size : IsInt (width * height) ∧ IsInt (width * height * channels)
  row : ∀ y, 0 ≤ y → y < height → IsInt (y * img.bytesPerLine)
  index : ∀ x y, 0 ≤ x → x < width → 0 ≤ y → y < height →
    IsInt (y * width) ∧ IsInt (y * width + x) ∧ IsInt ((y * width + x) * channels)

/-- The `int` products of a capture have values. Rows and pixels are only reached in a supported format. -/
structure CaptureFits (img : XImage) (width height : Int) : Prop where
  size : IsInt (width * height) ∧ IsInt (width * height * channels)
  loops : img.Supported → IntsFit img width height ∧ IsInt (width * 3)

/-- The whole size and the last row are the largest products. -/
def Fits (img : XImage) (width height : Int) : Prop :=
  3 * width * height < 2 ^ 31 ∧ (img.Supported → (height - 1) * img.bytesPerLine < 2 ^ 31)

instance (img : XImage) (width height : Int) : Decidable (Fits img width height) :=
  inferInstanceAs (Decidable (_ ∧ (_ → _)))

section Products
variable {img : XImage} {width height : Int}

theorem isInt_of_le {m n : Int} (h0 : 0 ≤ m) (hle : m ≤ n) (hn : n < 2 ^ 31) : IsInt m := by
  constructor <;> omega

theorem CaptureFits.fits (h : CaptureFits img width height) (hh : 0 < height) : Fits img width height := by
  have hsize := h.size.2.2
  refine ⟨?_, fun hb => ((h.loops hb).1.row (height - 1) (by omega) (by omega)).2⟩
  rwa [Int.mul_assoc, Int.mul_comm]

theorem Fits.size (h : Fits img width height) (hw : 0 < width) (hh : 0 < height) :
    IsInt (width * height) ∧ IsInt (width * height * channels) := by
  have hsize := h.1
  have hmul : width * height * channels = 3 * width * height := by
    unfold channels
    ring
  have harea : 0 ≤ width * height := Int.mul_nonneg (by omega) (by omega)
  constructor
  · exact isInt_of_le harea (by rw [Int.mul_assoc]; omega) hsize
  · rw [hmul]
    exact isInt_of_le (by rw [Int.mul_assoc]; omega) le_rfl hsize

theorem Fits.intsFit (h : Fits img width height) (hb : img.Supported) (hw : 0 < width) (hh : 0 < height)
    (hl : 0 ≤ img.bytesPerLine) : IntsFit img width height := by
  have hsize := h.1
  have hrow := h.2 hb
  refine ⟨h.size hw hh, fun y hy0 hy => ?_, fun x y hx0 hx hy0 hy => ?_⟩
  · exact isInt_of_le (Int.mul_nonneg hy0 hl) (Int.mul_le_mul_of_nonneg_right (by omega) hl) hrow
  · have hline : 0 ≤ y * width := Int.mul_nonneg hy0 (by omega)
    have hplace : y * width + x < width * height :=
      calc y * width + x < (y + 1) * width := by rw [Int.add_mul]; omega
        _ ≤ height * width := Int.mul_le_mul_of_nonneg_right (by omega) (by omega)
        _ = width * height := Int.mul_comm _ _
    rw [Int.mul_assoc] at hsize
    unfold channels
    exact ⟨isInt_of_le hline (by omega) hsize, isInt_of_le (by omega) (by omega) hsize,
      isInt_of_le (by omega) (by omega) hsize⟩

theorem Fits.captureFits (h : Fits img width height) (hw : 0 < width) (hh : 0 < height)
    (hl : img.Supported → 0 ≤ img.bytesPerLine) : CaptureFits img width height := by
  refine ⟨h.size hw hh, fun hb => ⟨h.intsFit hb hw hh (hl hb), isInt_of_le (by omega) ?_ h.1⟩⟩
  calc width * 3 = 3 * width * 1 := by rw [Int.mul_one, Int.mul_comm]
    _ ≤ 3 * width * height := Int.mul_le_mul_of_nonneg_left hh (by omega)

end Products

/-! ## Pictures stored as images -/

/-- One of the four layouts: the byte order, and whether pixels have a fourth byte. -/
structure Layout where
  byteOrder : ByteOrder
  fourth : Bool
  deriving DecidableEq, Repr

def Layout.bytesPerPixel (l : Layout) : Nat := if l.fourth then 4 else 3

/-- The bytes of a pixel in memory. -/
def Layout.pixel (l : Layout) (c : RGB) (fourth : UInt8) : Bytes :=
  let msbFirst := if l.fourth then fourth :: c.bytes else c.bytes
  match l.byteOrder with
  | .lsbFirst => msbFirst.reverse
  | .msbFirst => msbFirst

/-- The pixel `n` of a picture of three bytes per pixel. -/
def colourAt (picture : Bytes) (n : Nat) : RGB :=
  ⟨picture.getD (3 * n) 0, picture.getD (3 * n + 1) 0, picture.getD (3 * n + 2) 0⟩

/-- A picture stored as an image. The padding and the fourth bytes are those of `fill`. -/
def Layout.store (l : Layout) {stride : Nat} (hs : IsInt stride) (width height : Nat) (picture : Bytes)
    (fill : Nat → UInt8) : XImage where
  data := (List.range (height * stride)).map fun i =>
    let x := i % stride / l.bytesPerPixel
    if x < width then
      (l.pixel (colourAt picture (i / stride * width + x)) (fill i)).getD (i % stride % l.bytesPerPixel) 0
    else
      fill i
  bytesPerLine := stride
  bitsPerPixel := 8 * (l.bytesPerPixel : Int)
  byteOrder := l.byteOrder
  isInt := hs

section Stored
variable {l : Layout} {stride width height : Nat} {hs : IsInt stride} {picture : Bytes} {fill : Nat → UInt8}

@[simp] theorem store_bytesPerPixel : (l.store hs width height picture fill).bytesPerPixel = l.bytesPerPixel := by
  have hdiv : (8 * (l.bytesPerPixel : Int)) / 8 = l.bytesPerPixel := Int.mul_ediv_cancel_left _ (by decide)
  rw [XImage.bytesPerPixel, Layout.store, hdiv, Int.toNat_natCast]

theorem store_covers (hstride : width * l.bytesPerPixel ≤ stride) :
    (l.store hs width height picture fill).Covers width height where
  bpp := by
    unfold Layout.store Layout.bytesPerPixel
    split
    · exact .inr rfl
    · exact .inl rfl
  stride := by
    show (width : Int) * (8 * l.bytesPerPixel) / 8 ≤ stride
    rw [Int.mul_left_comm, Int.mul_ediv_cancel_left _ (by decide)]
    exact_mod_cast hstride
  data := by simp [Layout.store]

theorem store_byteAt (hstride : width * l.bytesPerPixel ≤ stride) {x y k : Nat} (hx : x < width) (hy : y < height)
    (hk : k < l.bytesPerPixel) :
    (l.store hs width height picture fill).byteAt x y k =
      (l.pixel (colourAt picture (y * width + x)) (fill (y * stride + (x * l.bytesPerPixel + k)))).getD k 0 := by
  have hcol : x * l.bytesPerPixel + k < stride := lt_of_lt_of_le (place_lt hk hx) hstride
  have hlt : y * stride + (x * l.bytesPerPixel + k) < height * stride := place_lt hcol hy
  rw [XImage.byteAt, store_bytesPerPixel, Nat.add_assoc]
  simp [Layout.store, List.getD, hlt, place_mod hcol, place_div hcol, place_mod hk, place_div hk, hx]

/-- What stands for a pixel is that pixel, with something in the fourth byte. -/
theorem store_pixel (hstride : width * l.bytesPerPixel ≤ stride) {x y : Nat} (hx : x < width) (hy : y < height) :
    ∃ fourth, (List.range l.bytesPerPixel).map ((l.store hs width height picture fill).byteAt x y) =
      l.pixel (colourAt picture (y * width + x)) fourth := by
  have hbyte := fun k hk => @store_byteAt l stride width height hs picture fill hstride x y k hx hy hk
  obtain ⟨order, fourth⟩ := l
  cases fourth with
  | false =>
    have hb : (⟨order, false⟩ : Layout).bytesPerPixel = 3 := rfl
    rw [hb] at hbyte ⊢
    refine ⟨0, ?_⟩
    cases order <;> simp [List.range_succ, hbyte, Layout.pixel, RGB.bytes]
  | true =>
    have hb : (⟨order, true⟩ : Layout).bytesPerPixel = 4 := rfl
    rw [hb] at hbyte ⊢
    cases order with
    | lsbFirst => exact ⟨fill (y * stride + (x * 4 + 3)), by simp [List.range_succ, hbyte, Layout.pixel, RGB.bytes]⟩
    | msbFirst => exact ⟨fill (y * stride + (x * 4 + 0)), by simp [List.range_succ, hbyte, Layout.pixel, RGB.bytes]⟩

/-- What was stored as a pixel has its colours. -/
theorem store_getPixel (hstride : width * l.bytesPerPixel ≤ stride) {x y : Nat} (hx : x < width) (hy : y < height) :
    RGB.ofPixel ((l.store hs width height picture fill).getPixel x y) = colourAt picture (y * width + x) := by
  obtain ⟨fourth, hpixel⟩ := @store_pixel l stride width height hs picture fill hstride x y hx hy
  have horder : (l.store hs width height picture fill).byteOrder = l.byteOrder := rfl
  obtain ⟨front, hfront⟩ : ∃ front, (if l.fourth then fourth :: (colourAt picture (y * width + x)).bytes
      else (colourAt picture (y * width + x)).bytes) = front ++ (colourAt picture (y * width + x)).bytes := by
    split
    · exact ⟨[fourth], rfl⟩
    · exact ⟨[], rfl⟩
  unfold XImage.getPixel
  rw [store_bytesPerPixel, hpixel, horder, Layout.pixel, hfront]
  cases l.byteOrder with
  | lsbFirst => simp only [List.reverse_reverse, RGB.ofPixel_value]
  | msbFirst => simp only [RGB.ofPixel_value]

theorem colourAt_bytes {n : Nat} (h : 3 * n + 3 ≤ picture.length) :
    picture.take (3 * (n + 1)) = picture.take (3 * n) ++ (colourAt picture n).bytes := by
  have hget : ∀ i < picture.length, picture[i]?.toList = [picture.getD i 0] := by
    intro i hi
    simp [List.getD, hi]
  rw [Nat.mul_succ, List.take_add_one, List.take_add_one, List.take_add_one, hget _ (by omega), hget _ (by omega),
    hget _ (by omega)]
  simp [colourAt, RGB.bytes]

/-- The image of a picture shows the picture. -/
theorem store_shown (hstride : width * l.bytesPerPixel ≤ stride) {n : Nat} (hn : n ≤ width * height)
    (hp : picture.length = 3 * (width * height)) :
    (l.store hs width height picture fill).shown width n = picture.take (3 * n) := by
  induction n with
  | zero => simp [XImage.shown]
  | succ n ih =>
    have hpos : 0 < width := Nat.pos_of_mul_pos_right (by omega : 0 < width * height)
    have hx : n % width < width := Nat.mod_lt _ hpos
    have hy : n / width < height := Nat.div_lt_of_lt_mul (by omega)
    have hplace : n / width * width + n % width = n := Nat.div_add_mod' n width
    rw [shown_succ, ih (by omega), store_getPixel hstride hx hy, hplace, colourAt_bytes (by omega)]

end Stored

/-! ## Captures -/

section Captures
variable {img : XImage} {width height : Int}

theorem shown_at {width n total : Nat} (hn : n < total) :
    ((img.shown width total).drop (3 * n)).take 3 = (RGB.ofPixel (img.getPixel (n % width) (n / width))).bytes := by
  obtain ⟨m, rfl⟩ : ∃ m, total = n + 1 + m := ⟨total - (n + 1), by omega⟩
  obtain ⟨rest, hrest⟩ : ∃ rest, img.shown width (n + 1 + m) = img.shown width (n + 1) ++ rest := by
    unfold XImage.shown
    rw [List.range_add, List.flatMap_append]
    exact ⟨_, rfl⟩
  rw [hrest, shown_succ, List.append_assoc, List.drop_left' (shown_length n)]
  exact List.take_left' rfl

/-- The conversion of an image, in `int`s. -/
theorem convertToRGB_spec (hw : 0 < width) (hh : 0 < height) (hc : img.Covers width height)
    (hfit : IntsFit img width height) (pixels : Pixels) :
    ∃ done, convertToRGB img width height pixels = .returns done.bytes done ∧
      done.bytes = img.shown width.toNat (width.toNat * height.toNat) ∧
        done.assigned = List.range (3 * (width.toNat * height.toNat)) := by
  obtain ⟨w, rfl⟩ := Int.eq_ofNat_of_zero_le hw.le
  obtain ⟨h, rfl⟩ := Int.eq_ofNat_of_zero_le hh.le
  have hrows : ∀ y < h, IsInt (y * img.bytesPerLine) := fun y hy => hfit.row y (by omega) (by omega)
  have hdone : (filled img w (w * h) (w * h)).bytes = img.shown w (w * h) := by simp [filled]
  refine ⟨filled img w (w * h) (w * h), ?_, hdone, rfl⟩
  rw [hdone]
  exact convertToRGB_returns hc hfit.size.2 hrows pixels

/-- An image that covers the screen is converted within its bounds. Each byte
of the vector is assigned once, and those of a pixel are its colours. So every
picture comes back from every layout, stride, padding and fourth byte. -/
theorem conversion_correct (hw : 0 < width) (hh : 0 < height) :
    (∀ img : XImage, img.Covers width height → IntsFit img width height → ∀ pixels, ∃ done,
      convertToRGB img width height pixels = .returns done.bytes done ∧
        (done.bytes.length : Int) = 3 * width * height ∧ done.assigned = List.range done.bytes.length ∧
          ∀ x y : Nat, x < width → y < height →
            (done.bytes.drop (3 * (y * width.toNat + x))).take 3 = (RGB.ofPixel (img.getPixel x y)).bytes) ∧
    ∀ picture : Bytes, (picture.length : Int) = 3 * width * height →
      ∀ (l : Layout) (stride : Nat) (hs : IsInt stride) (fill : Nat → UInt8), width * l.bytesPerPixel ≤ stride →
        IntsFit (l.store hs width.toNat height.toNat picture fill) width height → ∀ pixels, ∃ done,
          convertToRGB (l.store hs width.toNat height.toNat picture fill) width height pixels =
            .returns picture done := by
  obtain ⟨w, rfl⟩ := Int.eq_ofNat_of_zero_le hw.le
  obtain ⟨h, rfl⟩ := Int.eq_ofNat_of_zero_le hh.le
  have hsize : (3 * w * h : Int) = ((3 * (w * h) : Nat) : Int) := by
    push_cast
    rw [Int.mul_assoc]
  constructor
  · intro img hc hfit pixels
    obtain ⟨done, hrun, hbytes, hassigned⟩ := convertToRGB_spec hw hh hc hfit pixels
    have hlen : done.bytes.length = 3 * (w * h) := by rw [hbytes, shown_length]; rfl
    refine ⟨done, hrun, by rw [hlen, hsize], by rw [hassigned, hlen]; rfl, fun x y hx hy => ?_⟩
    have hx : x < w := by omega
    have hlt : y * w + x < w * h := by
      rw [Nat.mul_comm w]
      exact place_lt hx (by omega)
    rw [hbytes]
    have hat := @shown_at img w (y * w + x) (w * h) hlt
    rwa [place_mod hx, place_div hx] at hat
  · intro picture hp l stride hs fill hstride hfit pixels
    rw [hsize] at hp
    have hstride' : w * l.bytesPerPixel ≤ stride := by exact_mod_cast hstride
    obtain ⟨done, hrun, hbytes, -⟩ := convertToRGB_spec hw hh (store_covers hstride') hfit pixels
    have hshown : done.bytes = picture := by
      rw [hbytes, Int.toNat_natCast, Int.toNat_natCast, store_shown hstride' le_rfl (by exact_mod_cast hp),
        List.take_of_length_le (by omega)]
    rw [hshown] at hrun
    exact ⟨done, hrun⟩

/-- Two rows of two pixels, blue first, with a fourth byte each and two bytes of padding behind each row. -/
theorem conversion_correct_two :
    ∃ done, convertToRGB ⟨[3, 2, 1, 77, 6, 5, 4, 88, 99, 99, 9, 8, 7, 66, 12, 11, 10, 55, 98, 98], 10, 32, .lsbFirst,
      by decide⟩ 2 2 ⟨[], []⟩ = .returns [1, 2, 3, 4, 5, 6, 7, 8, 9, 10, 11, 12] done := by
  have hstored : (⟨[3, 2, 1, 77, 6, 5, 4, 88, 99, 99, 9, 8, 7, 66, 12, 11, 10, 55, 98, 98], 10, 32, .lsbFirst,
      by decide⟩ : XImage) =
      Layout.store ⟨.lsbFirst, true⟩ (show IsInt (10 : Nat) by decide) (2 : Int).toNat (2 : Int).toNat
        [1, 2, 3, 4, 5, 6, 7, 8, 9, 10, 11, 12]
        (fun i => [0, 0, 0, 77, 0, 0, 0, 88, 99, 99, 0, 0, 0, 66, 0, 0, 0, 55, 98, 98].getD i 0) := by decide
  rw [hstored]
  apply (@conversion_correct 2 2 (by decide) (by decide)).2
  · rfl
  · decide
  · rw [← hstored]
    exact Fits.intsFit (by decide) (by decide) (by decide) (by decide) (by decide)

/-- The X server gives the image. -/
structure Screen.Gives (screen : Screen) (width height : Int) (img : XImage) : Prop where
  opened : screen.openDisplay = true
  attributes : screen.windowAttributes = some (width, height)
  image : screen.getImage width height = some img

/-- The image shows the screen. -/
structure Screen.Shows (screen : Screen) (width height : Int) (img : XImage) : Prop
    extends Screen.Gives screen width height img where
  covers : img.Covers width height

/-- `GrabAsPNG`, on a screen of positive size. -/
theorem grabAsPNG_spec (stbi : StbiWritePng) {screen : Screen} (hs : screen.Gives width height img) (hw : 0 < width)
    (hh : 0 < height) (pixels : Pixels) :
    grabAsPNG stbi screen pixels = (convertToRGB img width height >>= fun bytes =>
      encodePNG stbi bytes width height >>= fun png => return (png, width, height)) pixels := by
  have hpos : ¬(width ≤ 0 ∨ height ≤ 0) := by omega
  unfold grabAsPNG
  simp only [hs.opened, hs.attributes, hs.image, hpos]
  rfl

/-- The writer gets the colours that the screen shows. -/
theorem grabAsPNG_shown (stbi : StbiWritePng) {screen : Screen} (hs : screen.Shows width height img) (hw : 0 < width)
    (hh : 0 < height) (hfit : IntsFit img width height) (hpng : IsInt (width * 3)) (pixels : Pixels) :
    ∃ done, done.bytes = img.shown width.toNat (width.toNat * height.toNat) ∧
      grabAsPNG stbi screen pixels = .returns (stbi width height 3 done.bytes (width * 3), width, height) done := by
  obtain ⟨done, hrun, hbytes, -⟩ := convertToRGB_spec hw hh hs.covers hfit pixels
  refine ⟨done, hbytes, ?_⟩
  have hencode : encodePNG stbi done.bytes width height done =
      .returns (stbi width height 3 done.bytes (width * 3)) done := by
    unfold encodePNG
    rw [int_of hpng]
    rfl
  rw [grabAsPNG_spec stbi hs.toGives hw hh, Proc.bind_returns hrun, Proc.bind_returns hencode]
  rfl

/-- How `GrabAsPNG` ends when the products fit: an image of another format is refused. -/
def grabbed (stbi : StbiWritePng) (img : XImage) (width height : Int) (done : Pixels) :
    Outcome Pixels GrabExn (Bytes × Int × Int) :=
  if img.Supported then
    .returns (stbi width height 3 done.bytes (width * 3), width, height) done
  else
    .throws (unsupported img) done

theorem shown_size (hw : 0 < width) (hh : 0 < height) :
    ((3 * (width.toNat * height.toNat) : Nat) : Int) = 3 * width * height := by
  obtain ⟨w, rfl⟩ := Int.eq_ofNat_of_zero_le hw.le
  obtain ⟨h, rfl⟩ := Int.eq_ofNat_of_zero_le hh.le
  rw [Int.toNat_natCast, Int.toNat_natCast]
  push_cast
  rw [Int.mul_assoc]

/-- The vector has its size, in every format. -/
theorem grabAsPNG_grabbed (stbi : StbiWritePng) {screen : Screen} (hs : screen.Gives width height img)
    (hspan : img.Spans width height) (hw : 0 < width) (hh : 0 < height) (hfit : CaptureFits img width height)
    (pixels : Pixels) :
    ∃ done, (done.bytes.length : Int) = 3 * width * height ∧
      grabAsPNG stbi screen pixels = grabbed stbi img width height done := by
  by_cases hb : img.Supported
  · obtain ⟨done, hbytes, hrun⟩ := grabAsPNG_shown stbi ⟨hs, hspan, hb⟩ hw hh (hfit.loops hb).1 (hfit.loops hb).2 pixels
    refine ⟨done, ?_, ?_⟩
    · rw [hbytes, shown_length, shown_size hw hh]
    · rw [hrun, grabbed, if_pos hb]
  · obtain ⟨w, rfl⟩ := Int.eq_ofNat_of_zero_le hw.le
    obtain ⟨h, rfl⟩ := Int.eq_ofNat_of_zero_le hh.le
    refine ⟨filled img w (w * h) 0, ?_, ?_⟩
    · rw [← shown_size hw hh]
      simp [filled]
    · rw [grabAsPNG_spec stbi hs hw hh, Proc.bind_throws (convertToRGB_unsupported hb hfit.size.2 pixels), grabbed,
        if_neg hb]

theorem grabAsPNG_overflow (stbi : StbiWritePng) {screen : Screen} (hs : screen.Gives width height img)
    (hspan : img.Spans width height) (hw : 0 < width) (hh : 0 < height) (hno : ¬Fits img width height)
    (pixels : Pixels) : ∃ done, grabAsPNG stbi screen pixels = .throws .overflow done := by
  rw [grabAsPNG_spec stbi hs hw hh]
  obtain ⟨w, rfl⟩ := Int.eq_ofNat_of_zero_le hw.le
  obtain ⟨h, rfl⟩ := Int.eq_ofNat_of_zero_le hh.le
  by_cases hsize : IsInt ((w : Int) * h * channels)
  · -- The size fits, so it is the last row of a supported image that does not.
    have hmax : 3 * (w : Int) * h < 2 ^ 31 := by
      have hlt := hsize.2
      rwa [Int.mul_assoc, Int.mul_comm]
    obtain ⟨hb, hlast⟩ : img.Supported ∧ ¬((h : Int) - 1) * img.bytesPerLine < 2 ^ 31 := by
      apply Classical.not_imp.1
      exact fun hrows => hno ⟨hmax, hrows⟩
    have hbad : ¬(IsInt ((w : Int) * h * channels) ∧ ∀ y < h, IsInt (y * img.bytesPerLine)) := by
      rintro ⟨-, hrows⟩
      have hrow := (hrows (h - 1) (by omega)).2
      rw [Nat.cast_sub (by omega)] at hrow
      exact hlast hrow
    obtain ⟨done, hrun⟩ := convertToRGB_overflow ⟨hspan, hb⟩ hbad pixels
    exact ⟨done, Proc.bind_throws hrun⟩
  · exact ⟨_, Proc.bind_throws (convertToRGB_size hsize pixels)⟩

/-- The capture of a screen has all its products and a vector of the intended
size if and only if the whole size fits in an `int` and, in a format that is
read, the last row does. Otherwise it comes to an expression without a value. -/
theorem capture_fits_iff (stbi : StbiWritePng) {screen : Screen} (hs : screen.Gives width height img)
    (hspan : img.Spans width height) (hw : 0 < width) (hh : 0 < height) (pixels : Pixels) :
    ((CaptureFits img width height ∧ ∃ done, (done.bytes.length : Int) = 3 * width * height ∧
        grabAsPNG stbi screen pixels = grabbed stbi img width height done) ↔ Fits img width height) ∧
    ((∃ done, grabAsPNG stbi screen pixels = .throws .overflow done) ↔ ¬Fits img width height) := by
  have hline (hb : img.Supported) : 0 ≤ img.bytesPerLine := by
    have hstride := hspan.stride
    rcases hb with hb | hb <;> rw [hb] at hstride <;> omega
  have hall (hf : Fits img width height) : CaptureFits img width height := hf.captureFits hw hh hline
  have hends (hf : Fits img width height) := grabAsPNG_grabbed stbi hs hspan hw hh (hall hf) pixels
  refine ⟨⟨fun h => h.1.fits hh, fun hf => ⟨hall hf, hends hf⟩⟩, ?_,
    fun hno => grabAsPNG_overflow stbi hs hspan hw hh hno pixels⟩
  rintro ⟨done, hthrows⟩ hf
  obtain ⟨_, -, hrun⟩ := hends hf
  rw [hthrows] at hrun
  unfold grabbed at hrun
  split at hrun <;> cases hrun

/-- A black image of 1920 by 1080 pixels. -/
def fullHd : XImage := Layout.store ⟨.lsbFirst, true⟩ (show IsInt (7680 : Nat) by decide) 1920 1080 [] fun _ => 0

theorem capture_fits_full_hd :
    ∃ done, (done.bytes.length : Int) = 3 * 1920 * 1080 ∧
      grabAsPNG (fun _ _ _ _ _ => [137]) ⟨true, some (1920, 1080), fun _ _ => some fullHd⟩ ⟨[], []⟩ =
        .returns ([137], 1920, 1080) done := by
  have hgives : Screen.Gives ⟨true, some (1920, 1080), fun _ _ => some fullHd⟩ 1920 1080 fullHd := ⟨rfl, rfl, rfl⟩
  have hcovers : fullHd.Covers (1920 : Nat) (1080 : Nat) := store_covers (by decide)
  have hiff := (capture_fits_iff (fun _ _ _ _ _ => [137]) hgives hcovers.toSpans (by decide) (by decide) ⟨[], []⟩).1
  exact (hiff.2 (by decide)).2

/-- On the largest screen the size of the vector is no `int`. -/
theorem largest_screen_overflows :
    ¬∀ (width height : Int) (img : XImage), 0 < width → width ≤ 32767 → 0 < height → height ≤ 32767 →
      img.Spans width height → CaptureFits img width height := by
  intro h
  have hsize := (h 32767 32767
    (Layout.store ⟨.lsbFirst, false⟩ (show IsInt (98301 : Nat) by decide) 32767 32767 [] fun _ => 0) (by decide)
    (by decide) (by decide) (by decide) (store_covers (by decide)).toSpans).size.2
  exact absurd hsize (by decide)

end Captures

end ScreenGrabber

end RemoteScreenCapture
