import RemoteScreenCapture.Session
import RemoteScreenCapture.Lib.Decoder
/-!
# The wire format

What the protocol section of `server.h` describes: a frame is a type byte, the
payload's length in four bytes and the payload. `wire` reads a byte stream as
`ParseMessage` means to: frames, and headers that announce too much. A header
that announces nothing leaves it stuck.
-/
open Lib Lib.BigEndian

namespace RemoteScreenCapture

/-- A frame with a payload of 1 to `max` bytes. -/
structure Frame (max : Nat) where
  type : UInt8
  payload : Bytes
  nonempty : 0 < payload.length
  fits : payload.length ≤ max

namespace Frame

variable {max : Nat}

/-- A frame written out, whose payload is checked on the spot. -/
def of (type : UInt8) (payload : Bytes) (h : 0 < payload.length ∧ payload.length ≤ max := by decide) : Frame max :=
  ⟨type, payload, h.1, h.2⟩

def encode (f : Frame max) : Bytes := f.type :: (bytes 4 f.payload.length ++ f.payload)

/-- The message a session makes of a frame. -/
def toMessage (f : Frame max) : Message := ⟨[f.type], bytes 4 f.payload.length, f.payload⟩

/-- The frame is an authentication request or an image. -/
def Known (f : Frame max) : Prop := f.type = 'A'.toUInt8 ∨ f.type = 'I'.toUInt8

instance (f : Frame max) : Decidable f.Known := inferInstanceAs (Decidable (_ ∨ _))

def encodeAll (fs : List (Frame max)) : Bytes := fs.flatMap encode

theorem length_encode (f : Frame max) : f.encode.length = 5 + f.payload.length := by
  simp [encode]
  omega

@[simp] theorem encodeAll_nil : encodeAll ([] : List (Frame max)) = [] := rfl

@[simp] theorem encodeAll_cons (f : Frame max) (fs : List (Frame max)) :
    encodeAll (f :: fs) = f.encode ++ encodeAll fs := rfl

@[simp] theorem encodeAll_append (fs gs : List (Frame max)) :
    encodeAll (fs ++ gs) = encodeAll fs ++ encodeAll gs := by
  simp [encodeAll]

end Frame

/-- What the parser finds at the front of its input. -/
inductive Item where
  | frame (type : UInt8) (payload : Bytes)
  /-- A header whose length is above the limit. -/
  | oversized (type : UInt8) (len : Nat)
  deriving DecidableEq, Repr

namespace Item

def encode : Item → Bytes
  | .frame type payload => type :: (bytes 4 payload.length ++ payload)
  | .oversized type len => type :: bytes 4 len

def isOversized : Item → Bool
  | .frame .. => false
  | .oversized .. => true

/-- The message the parser pushes for an item. -/
def toMessage? : Item → Option Message
  | .frame type payload => some ⟨[type], bytes 4 payload.length, payload⟩
  | .oversized .. => none

end Item

def Frame.item {max : Nat} (f : Frame max) : Item := .frame f.type f.payload

/-- The messages the parser pushes for some items. -/
def pushed (is : List Item) : List Message := is.filterMap Item.toMessage?

def look : Bytes → Look UInt8 Item
  | t :: a :: b :: c :: d :: rest =>
    let len := value [a, b, c, d]
    if len = 0 then .stuck
    else if Limit.maxMessageSize < len then .item (.oversized t len) rest
    else if rest.length < len then .more
    else .item (.frame t (rest.take len)) (rest.drop len)
  | _ => .more

theorem bytes_four (a b c d : UInt8) : bytes 4 (value [a, b, c, d]) = [a, b, c, d] := bytes_value [a, b, c, d]

theorem value_four_lt (a b c d : UInt8) : value [a, b, c, d] < 2 ^ 32 :=
  (value_lt [a, b, c, d]).trans_eq (by simp)

/-- A number of four bytes, as they stand in a header. -/
theorem exists_four (n : Nat) (hn : n < 2 ^ 32) :
    ∃ a b c d, bytes 4 n = [a, b, c, d] ∧ value [a, b, c, d] = n := by
  have h := value_bytes (k := 4) (n := n) hn
  match hb : bytes 4 n, bytes_length 4 n with
  | [a, b, c, d], _ => exact ⟨a, b, c, d, rfl, by rw [← hb]; exact h⟩

/-- Every way the input can look. -/
theorem look_cases (xs : Bytes) :
    (xs.length < 5 ∧ look xs = .more) ∨
    ∃ t a b c d rest, xs = t :: a :: b :: c :: d :: rest ∧
      (value [a, b, c, d] = 0 ∧ look xs = .stuck ∨
       Limit.maxMessageSize < value [a, b, c, d] ∧ look xs = .item (.oversized t (value [a, b, c, d])) rest ∨
       0 < value [a, b, c, d] ∧ value [a, b, c, d] ≤ Limit.maxMessageSize ∧
        (rest.length < value [a, b, c, d] ∧ look xs = .more ∨
         value [a, b, c, d] ≤ rest.length ∧
          look xs = .item (.frame t (rest.take (value [a, b, c, d]))) (rest.drop (value [a, b, c, d])))) := by
  match xs with
  | [] | [_] | [_, _] | [_, _, _] | [_, _, _, _] => exact .inl ⟨by simp, rfl⟩
  | t :: a :: b :: c :: d :: rest =>
    refine .inr ⟨t, a, b, c, d, rest, rfl, ?_⟩
    by_cases h0 : value [a, b, c, d] = 0
    · exact .inl ⟨h0, by simp [look, h0]⟩
    by_cases h1 : Limit.maxMessageSize < value [a, b, c, d]
    · exact .inr (.inl ⟨h1, by simp [look, h0, h1]⟩)
    refine .inr (.inr ⟨by omega, by omega, ?_⟩)
    by_cases h2 : rest.length < value [a, b, c, d]
    · exact .inl ⟨h2, by simp [look, h0, h1, h2]⟩
    · exact .inr ⟨by omega, by simp [look, h0, h1, h2]⟩

theorem look_frame {t : UInt8} {p : Bytes} (hpos : 0 < p.length) (hle : p.length ≤ Limit.maxMessageSize)
    (ys : Bytes) : look ((Item.frame t p).encode ++ ys) = .item (.frame t p) ys := by
  obtain ⟨a, b, c, d, hb, hv⟩ := exists_four p.length (lt_of_le_of_lt hle (by decide))
  have h0 : ¬p.length = 0 := by omega
  simp [Item.encode, look, hb, hv, h0, Nat.not_lt.2 hle]

theorem look_oversized {t : UInt8} {n : Nat} (hgt : Limit.maxMessageSize < n) (hlt : n < 2 ^ 32) (ys : Bytes) :
    look ((Item.oversized t n).encode ++ ys) = .item (.oversized t n) ys := by
  obtain ⟨a, b, c, d, hb, hv⟩ := exists_four n hlt
  have h0 : ¬n = 0 := by omega
  simp [Item.encode, look, hb, hv, h0, hgt]

/-- An item is what its bytes encode, within the limits of its kind. -/
theorem look_item {xs rest : Bytes} {i : Item} (h : look xs = .item i rest) :
    xs = i.encode ++ rest ∧ ∀ ys, look (i.encode ++ ys) = .item i ys := by
  rcases look_cases xs with ⟨-, hl⟩ | ⟨t, a, b, c, d, r, rfl, ⟨-, hl⟩ | ⟨hgt, hl⟩ | ⟨hpos, hle, ⟨-, hl⟩ | ⟨hlen, hl⟩⟩⟩
  · rw [h] at hl; cases hl
  · rw [h] at hl; cases hl
  · rw [h] at hl; cases hl
    exact ⟨by simp [Item.encode, bytes_four], look_oversized hgt (value_four_lt a b c d)⟩
  · rw [h] at hl; cases hl
  · rw [h] at hl; cases hl
    have hp : (r.take (value [a, b, c, d])).length = value [a, b, c, d] := by simpa using hlen
    refine ⟨?_, look_frame (by omega) (by omega)⟩
    simp only [Item.encode, hp, bytes_four]
    simp

/-- The limits that an item of its kind keeps. -/
def Item.Bounded : Item → Prop
  | .frame _ payload => 0 < payload.length ∧ payload.length ≤ Limit.maxMessageSize
  | .oversized _ len => Limit.maxMessageSize < len ∧ len < 2 ^ 32

theorem look_bounded {xs rest : Bytes} {i : Item} (h : look xs = .item i rest) : i.Bounded := by
  rcases look_cases xs with ⟨-, hl⟩ | ⟨t, a, b, c, d, r, -, ⟨-, hl⟩ | ⟨hgt, hl⟩ | ⟨hpos, hle, ⟨-, hl⟩ | ⟨hlen, hl⟩⟩⟩
  · rw [h] at hl; cases hl
  · rw [h] at hl; cases hl
  · rw [h] at hl; cases hl
    exact ⟨hgt, value_four_lt a b c d⟩
  · rw [h] at hl; cases hl
  · rw [h] at hl; cases hl
    simp only [Item.Bounded, List.length_take]
    omega

theorem look_stuck {xs : Bytes} (h : look xs = .stuck) (ys : Bytes) : look (xs ++ ys) = .stuck := by
  rcases look_cases xs with ⟨-, hl⟩ | ⟨t, a, b, c, d, r, rfl, ⟨h0, -⟩ | ⟨-, hl⟩ | ⟨-, -, ⟨-, hl⟩ | ⟨-, hl⟩⟩⟩
  · rw [h] at hl; cases hl
  · simp [look, h0]
  all_goals rw [h] at hl; cases hl

/-- The parser is stuck at a header that announces nothing. -/
theorem look_stuck_iff {xs : Bytes} : look xs = .stuck ↔ ∃ t rest, xs = t :: 0 :: 0 :: 0 :: 0 :: rest := by
  constructor
  · intro h
    rcases look_cases xs with ⟨-, hl⟩ | ⟨t, a, b, c, d, r, rfl, ⟨h0, -⟩ | ⟨-, hl⟩ | ⟨-, -, ⟨-, hl⟩ | ⟨-, hl⟩⟩⟩
    · rw [h] at hl; cases hl
    · have hzero : [a, b, c, d] = [0, 0, 0, 0] := by
        rw [← bytes_four a b c d, h0]
        rfl
      cases hzero
      exact ⟨t, r, rfl⟩
    all_goals rw [h] at hl; cases hl
  · rintro ⟨t, rest, rfl⟩
    have h0 : value [0, 0, 0, 0] = 0 := rfl
    simp [look, h0]

/-- The parser's reading of a byte stream. -/
def wire : Decoder UInt8 Item where
  look := look
  enc := Item.encode
  covers h := (look_item h).1
  enc_ne {_ b _} _ := by cases b <;> simp [Item.encode]
  replay h := (look_item h).2
  stuck_append h := look_stuck h

theorem wire_look (xs : Bytes) : wire.look xs = look xs := rfl

/-! ## Streams of frames -/

section Streams
variable {max : Nat}

/-- The frame is not above the limit. -/
def Frame.Accepted (f : Frame max) : Prop := f.payload.length ≤ Limit.maxMessageSize

instance (f : Frame max) : Decidable f.Accepted := inferInstanceAs (Decidable (_ ≤ _))

theorem Frame.accepted (f : Frame Limit.maxMessageSize) : f.Accepted := f.fits

theorem wire_found {f : Frame max} (h : f.Accepted) : wire.Found f.item := look_frame f.nonempty h

theorem wire_encAll (fs : List (Frame max)) : wire.encAll (fs.map Frame.item) = Frame.encodeAll fs := by
  induction fs with
  | nil => rfl
  | cons f fs ih => simp only [List.map_cons, Decoder.encAll_cons, ih, Frame.encodeAll_cons]; rfl

theorem pushed_append (is js : List Item) : pushed (is ++ js) = pushed is ++ pushed js := List.filterMap_append

theorem pushed_items (fs : List (Frame max)) : pushed (fs.map Frame.item) = fs.map Frame.toMessage := by
  induction fs with
  | nil => rfl
  | cons f fs ih => exact congrArg (f.toMessage :: ·) ih

/-- Items that are not oversized are frames within the limit. -/
theorem exists_frames {is : List Item} (h : ∀ i ∈ is, i.Bounded ∧ i.isOversized = false) :
    ∃ fs : List (Frame Limit.maxMessageSize), is = fs.map Frame.item := by
  induction is with
  | nil => exact ⟨[], rfl⟩
  | cons i is ih =>
    obtain ⟨fs, rfl⟩ := ih fun j hj => h j (by simp [hj])
    obtain ⟨hb, ho⟩ := h i (by simp)
    cases i with
    | frame t p => exact ⟨⟨t, p, hb.1, hb.2⟩ :: fs, rfl⟩
    | oversized t n => cases ho

theorem isOversized_items (fs : List (Frame max)) : ∀ i ∈ fs.map Frame.item, i.isOversized = false := by
  intro i hi
  obtain ⟨f, -, rfl⟩ := List.mem_map.1 hi
  rfl

theorem found_bounded {i : Item} (h : wire.Found i) : i.Bounded := look_bounded (h [])

/-- A stream of accepted frames and the start of one more is read as these. -/
theorem wire_items {fs : List (Frame max)} {part : Bytes} (hfs : ∀ f ∈ fs, f.Accepted)
    (hm : look part = .more) : wire.items (Frame.encodeAll fs ++ part) = (fs.map Frame.item, part) := by
  have hfound : ∀ i ∈ fs.map Frame.item, wire.Found i := by
    intro i hi
    obtain ⟨f, hf, rfl⟩ := List.mem_map.1 hi
    exact wire_found (hfs f hf)
  rw [← wire_encAll, wire.items_encAll hfound, wire.items_of_more hm]
  simp

theorem look_short {xs : Bytes} (h : xs.length < 5) : look xs = .more := by
  rcases look_cases xs with ⟨-, hl⟩ | ⟨t, a, b, c, d, rest, rfl, -⟩
  · exact hl
  · simp only [List.length_cons] at h
    omega

/-- What has arrived of a stream whose frames `pre` are accepted, if it ends
before the header of the first frame behind them does. -/
theorem arrived {pre tail : List (Frame max)} {xs : Bytes} (hpre : ∀ f ∈ pre, f.Accepted)
    (hx : xs <+: Frame.encodeAll (pre ++ tail))
    (hlen : tail = [] ∨ xs.length < (Frame.encodeAll pre).length + 5) :
    ∃ gs part, gs <+: pre ∧ xs = Frame.encodeAll gs ++ part ∧ look part = .more := by
  induction pre generalizing xs with
  | nil =>
    refine ⟨[], xs, List.nil_prefix, rfl, look_short ?_⟩
    rcases hlen with rfl | hlen
    · have hnil : xs = [] := List.prefix_nil.1 hx
      simp [hnil]
    · simpa using hlen
  | cons f pre ih =>
    rw [List.cons_append, Frame.encodeAll_cons] at hx
    rcases List.prefix_or_prefix_of_prefix hx (List.prefix_append f.encode _) with h | ⟨ys, rfl⟩
    · by_cases he : xs = f.encode
      · exact ⟨[f], [], ⟨pre, rfl⟩, by simp [he], rfl⟩
      · exact ⟨[], xs, List.nil_prefix, rfl, wire.look_part (wire_found (hpre f (by simp))) h he⟩
    · have hys := (List.prefix_append_right_inj _).1 hx
      have hlen' : tail = [] ∨ ys.length < (Frame.encodeAll pre).length + 5 := by
        refine hlen.imp_right fun h => ?_
        simp only [Frame.encodeAll_cons, List.length_append] at h
        omega
      obtain ⟨gs, part, hg, rfl, hm⟩ := ih (fun g hg => hpre g (by simp [hg])) hys hlen'
      exact ⟨f :: gs, part, (List.prefix_cons_inj f).2 hg, by simp, hm⟩

end Streams

end RemoteScreenCapture
