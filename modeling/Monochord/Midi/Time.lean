import Monochord.Quantity
import Monochord.Smf.File

/-! # Time in a file

A file counts time in ticks and says how long a quarter note lasts.

- **`quarterLength`**: the length of a quarter note at a tempo, in microseconds.
- **`tempoField`**: that length as it is sent, in three bytes.
- **`ticks`**: the length of a chord.
- **`quarterLengthOf`** and **`ticksOf`**: the same for quantities. -/

namespace Monochord.Midi

open Arithmetic

variable {α : Type} [Arithmetic α]

/-! ## Tempo -/

/-- The microseconds in a minute. -/
def microsecondsPerMinute : Int := 60000000

/-- The length of a quarter note in microseconds, for a tempo in quarter notes a minute. -/
def quarterLength (tempo : α) : Except Failure Int := do
  floorHalfUp (← div (int microsecondsPerMinute) tempo)

/-- A length of a quarter note in three bytes; what does not fit is cut off at the top. -/
def tempoField (microseconds : Int) : Fin 16777216 :=
  ⟨(microseconds % 16777216).toNat, by omega⟩

/-! ## Ticks -/

/-- The ticks in a second, for a tempo in quarter notes a minute. -/
def ticksPerSecond (tempo : α) : Except Failure α := do
  div (← mul (int Smf.ticksPerQuarter) tempo) (int 60)

/-- The length in ticks of a chord, for the ticks in a second, its duration, and the seconds in a
unit of duration. It is never negative. -/
def ticksAt (rate duration base : α) : Except Failure Nat := do
  let seconds ← mul duration base
  return (← floorHalfUp (← mul seconds rate)).toNat

/-- The length in ticks of a chord, for its duration, the seconds in a unit of duration, and the
tempo. -/
def ticks (duration base tempo : α) : Except Failure Nat := do
  ticksAt (← ticksPerSecond tempo) duration base

/-! ## Quantities -/

/-- The length of a quarter note in microseconds at a tempo. -/
def quarterLengthOf (tempo : Quantity) : Except Failure Int := do quarterLength (← tempo.number)

/-- The length in ticks of a chord. The tempo is used before the other two. -/
def ticksOf (duration base tempo : Quantity) : Except Failure Nat := do
  let rate ← ticksPerSecond (← tempo.number)
  ticksAt rate (← duration.number) (← base.number)

end Monochord.Midi
