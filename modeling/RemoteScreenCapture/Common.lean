import RemoteScreenCapture.Lib.BigEndian
import RemoteScreenCapture.Lib.Proc
/-!
# What both programs share

Byte strings, exceptions, `UniqueResource` and the logger's timestamp. Log
lines themselves are left out: nothing reads them back.
-/

namespace RemoteScreenCapture

/-- A `std::string` or a `std::vector<uint8_t>`. -/
abbrev Bytes := List UInt8

/-- A string literal. -/
def lit (s : String) : Bytes := s.toList.map Char.toUInt8

/-- `std::to_string` of an unsigned number. -/
def toDecimal (n : Nat) : Bytes := (Nat.toDigits 10 n).map Char.toUInt8

/-- The number that a string of digits stands for. -/
def readDecimal (bs : Bytes) : Nat := bs.foldl (fun n b => 10 * n + (b.toNat - 48)) 0

/-- The value fits in an `int`. -/
def IsInt (n : Int) : Prop := -2 ^ 31 ≤ n ∧ n < 2 ^ 31

instance (n : Int) : Decidable (IsInt n) := inferInstanceAs (Decidable (_ ∧ _))

/-- What leaves a function instead of a value. -/
inductive Exn where
  | runtimeError (what : String)
  /-- `front()` or `pop()` of an empty queue. -/
  | undefined
  deriving DecidableEq, Repr

/-! ## `UniqueResource` -/

/-- `UniqueResource<T, Deleter, InvalidValue>` -/
structure UniqueResource (T D : Type) (invalidValue : T) where
  resource : T
  deleter : D
  deriving DecidableEq, Repr

namespace UniqueResource

variable {T D : Type} {invalidValue : T}

def get (u : UniqueResource T D invalidValue) : T := u.resource

def valid [DecidableEq T] (u : UniqueResource T D invalidValue) : Bool := u.resource ≠ invalidValue

/-- `Reset()`: the object after it, and the calls of deleters it makes. -/
def reset [DecidableEq T] (u : UniqueResource T D invalidValue) :
    UniqueResource T D invalidValue × List (D × T) :=
  (⟨invalidValue, u.deleter⟩, if u.valid then [(u.deleter, u.resource)] else [])

/-- The move constructor: the new object, and the one it was moved from. -/
def moveConstruct [Inhabited D] (other : UniqueResource T D invalidValue) :
    UniqueResource T D invalidValue × UniqueResource T D invalidValue :=
  (⟨other.resource, other.deleter⟩, ⟨invalidValue, default⟩)

/-- The constructor, whose defaults are those of `constructDefault`. -/
def construct (resource : T) (deleter : D) : UniqueResource T D invalidValue := ⟨resource, deleter⟩

def constructDefault [Inhabited D] : UniqueResource T D invalidValue := construct invalidValue default

/-- The move assignment from another object: both objects after it, and the
calls of deleters it makes. -/
def moveAssign [DecidableEq T] [Inhabited D] (u other : UniqueResource T D invalidValue) :
    UniqueResource T D invalidValue × UniqueResource T D invalidValue × List (D × T) :=
  let (_, calls) := u.reset
  (⟨other.resource, other.deleter⟩, ⟨invalidValue, default⟩, calls)

/-- The destructor: the calls of deleters it makes. -/
def destroy [DecidableEq T] (u : UniqueResource T D invalidValue) : List (D × T) := u.reset.2

end UniqueResource

/-- A `std::function<void(int)>` as `ResourceFactory` makes them. -/
inductive FdDeleter where
  | empty
  | close
  deriving DecidableEq, Repr

instance : Inhabited FdDeleter := ⟨.empty⟩

abbrev UniqueFD := UniqueResource Int FdDeleter (-1)

def makeUniqueFD (fd : Int) : UniqueFD := ⟨fd, .close⟩

/-! ## The logger's timestamp -/

/-- The local time of a clock reading, as `localtime_r` breaks it down. -/
structure Tm where
  year : Nat
  month : Nat
  day : Nat
  hour : Nat
  min : Nat
  sec : Nat
  deriving DecidableEq, Repr

/-- A number in two digits. -/
def pad2 (n : Nat) : Bytes := if n < 10 then lit "0" ++ toDecimal n else toDecimal n

/-- `std::put_time`, for the conversions the program uses. -/
def putTime (t : Tm) : List Char → Bytes
  | [] => []
  | '%' :: 'Y' :: mask => toDecimal t.year ++ putTime t mask
  | '%' :: 'm' :: mask => pad2 t.month ++ putTime t mask
  | '%' :: 'd' :: mask => pad2 t.day ++ putTime t mask
  | '%' :: 'H' :: mask => pad2 t.hour ++ putTime t mask
  | '%' :: 'M' :: mask => pad2 t.min ++ putTime t mask
  | '%' :: 'S' :: mask => pad2 t.sec ++ putTime t mask
  | c :: mask => c.toUInt8 :: putTime t mask

/-- `GetCurrentTimestamp(mask)` at the local time `t`. -/
def getCurrentTimestamp (t : Tm) (mask : String) : Bytes := putTime t mask.toList

end RemoteScreenCapture
