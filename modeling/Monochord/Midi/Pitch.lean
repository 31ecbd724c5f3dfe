import Monochord.Quantity

/-! # Pitches as keys and bends

A frequency becomes the nearest key of equal temperament and the cents by which it lies above that
key. The rest is sent as a position of the pitch wheel, whose range is two semitones to either side.

- **`Pitch`**: a key number, which may lie outside the keyboard, and cents.
- **`Pitch.ofHeight`**: the pitch at a height that is given in semitones.
- **`Pitch.ofFrequency`**: the pitch of a frequency.
- **`bend`**: the position of the wheel for a deviation, kept inside its range.
- **`Pitch.key`**: the key number as it is sent, in seven bits.
- **`Pitch.needsBend`**: does the pitch differ audibly from its key? -/

namespace Monochord.Midi

open Arithmetic

variable {α : Type} [Arithmetic α]

/-! ## Pitches -/

/-- A key number and a deviation. -/
structure Pitch (α : Type) where
  /-- The number of the nearest key; 69 is the A at 440 Hz. -/
  note : Int
  /-- How many cents the pitch lies above the key. -/
  cents : α

namespace Pitch

/-- The pitch at a height in semitones, counted as keys are. -/
def ofHeight (height : α) : Except Failure (Pitch α) := do
  let note ← floorHalfUp height
  let rest ← sub height (int note)
  return ⟨note, ← mul rest (int 100)⟩

/-- The key number in seven bits. -/
def key (p : Pitch α) : Fin 128 := ⟨(p.note % 128).toNat, by omega⟩

/-- Is the deviation worth a bend? Half a cent is not. -/
def needsBend (p : Pitch α) : Bool := isBeyond half p.cents

end Pitch

/-! ## Frequencies -/

/-- The key number of the reference pitch. -/
def referenceKey : Float := 69.0

/-- The frequency of the reference pitch in Hz. -/
def referencePitch : Float := 440.0

/-- The height of a frequency in semitones. -/
def heightOf (frequency : Quantity) : Except Failure Number := do
  let octaves ← logarithm (← frequency.div (.float referencePitch))
  return .float (referenceKey + 12.0 * octaves)

/-- The pitch of a frequency. -/
def Pitch.ofFrequency (frequency : Quantity) : Except Failure (Pitch Number) := do
  Pitch.ofHeight (← heightOf frequency)

/-! ## Bends -/

/-- The position of the wheel at rest. -/
def bendCentre : Int := 8192

/-- The highest position of the wheel. -/
def bendMax : Int := 16383

/-- The deviation, in cents, at the ends of the wheel. -/
def bendRange : Int := 200

/-- A position inside the range of the wheel. -/
def clampBend (n : Int) : Fin 16384 :=
  ⟨(max 0 (min bendMax n)).toNat, by simp only [bendMax]; omega⟩

/-- The position of the wheel for a deviation in cents. -/
def bend (cents : α) : Except Failure (Fin 16384) := do
  let part ← div cents (real bendRange)
  let position ← add (int bendCentre) (← mul part (int bendCentre))
  return clampBend (← floorHalfUp position)

/-- The position of the wheel for a quantity of cents. -/
def bendOf (cents : Quantity) : Except Failure (Fin 16384) := do bend (← cents.number)

end Monochord.Midi
