import Mathlib.Data.List.Infix
/-!
# Channels

A reliable stream from one party to another: what one writes, the other reads,
in order and once. A channel remembers what was read.
-/

namespace Lib

/-- What was read from a stream, and what is still under way. -/
structure Channel (α : Type) where
  read : List α := []
  inFlight : List α := []

namespace Channel

variable {α : Type} (ch : Channel α)

/-- All that was written so far. -/
def written : List α := ch.read ++ ch.inFlight

def write (xs : List α) : Channel α := { ch with inFlight := ch.inFlight ++ xs }

/-- The channel after its next `n` elements have been read. -/
def take (n : Nat) : Channel α := ⟨ch.read ++ ch.inFlight.take n, ch.inFlight.drop n⟩

@[simp] theorem written_write (xs : List α) : (ch.write xs).written = ch.written ++ xs := by
  simp [written, write]

@[simp] theorem written_take (n : Nat) : (ch.take n).written = ch.written := by
  simp [written, take]

@[simp] theorem read_take (n : Nat) : (ch.take n).read = ch.read ++ ch.inFlight.take n := rfl

/-- Nothing is read that was not written, in that order. -/
theorem read_written : ch.read <+: ch.written := List.prefix_append _ _

end Channel

end Lib
