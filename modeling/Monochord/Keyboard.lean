import Monochord.Chord.Record

/-! # Chords from a keyboard

The first key pressed becomes the fundamental; each later press takes a key into the selection or
out of it. The selection can then be read as a chord, whose intervals are spelt from the distances
in whole semitones and ordered by pitch.

- **`Selection`**: a fundamental and selected keys, with **`Selection.press`** and
  **`Selection.clear`**.
- **`Selection.intervals`**: the symbols of the selected keys.
- **`Selection.chord`**: the chord with a given duration.
- **`Selection.line`** and **`Selection.appendTo`**: its line of chord text. -/

namespace Monochord

/-- The keys selected so far. -/
structure Selection where
  /-- The key pressed first. -/
  fundamental : Option String := none
  /-- The chord tones, in the order in which they were taken in. -/
  notes : List String := []
deriving Repr, DecidableEq

namespace Selection

/-! ## Pressing keys -/

/-- The first key is the fundamental; a later one goes out of the selection if it is in it, and
otherwise joins it at the end. -/
def press (s : Selection) (key : String) : Selection :=
  match s.fundamental with
  | none => { fundamental := some key }
  | some _ =>
    if key ∈ s.notes then { s with notes := s.notes.filter (· ≠ key) }
    else { s with notes := s.notes ++ [key] }

/-- Starts over. -/
def clear (_ : Selection) : Selection := {}

/-! ## Reading the chord -/

/-- The distance between two frequencies in whole semitones. -/
def semitonesBetween (upper lower : Float) : Except Failure Int := do
  let l ← logarithm (← (Quantity.float upper).div (.float lower))
  roundHalfEven (12.0 * l)

/-- The symbols of keys above a fundamental, in the order of their frequencies. -/
def intervals (fundamental : String) (notes : List String) : Except Failure (List String) := do
  let base ← noteFrequency fundamental
  let frequencies ← notes.mapM noteFrequency
  let ordered := frequencies.mergeSort fun a b => a ≤ b
  ordered.mapM fun f => do spell (← semitonesBetween f base)

/-- The chord that the selection stands for. -/
def chord (s : Selection) (duration : Value) : Except Failure Chord :=
  match s.fundamental with
  | none => diagnosing (complain .noFundamentalSelected)
  | some fundamental => do
    if s.notes.isEmpty then diagnosing (complain .noNotesSelected)
    let symbols ← intervals fundamental s.notes
    let d ← Record.check ⟨.text fundamental, .list (symbols.map .text), duration⟩
    return ⟨fundamental, symbols, d.quantity⟩

/-! ## Writing the line -/

/-- A duration in a chord line: digits without an exponent, which is how lines are read. -/
def durationText : Quantity → String
  | .float x => Binary64.plain x
  | q => q.text

/-- A chord as a line of chord text. -/
def chordLine (c : Chord) : String :=
  c.fundamental ++ ": " ++ ",".intercalate c.intervals ++ ", duration=" ++ durationText c.duration

/-- The selection as a line of chord text. -/
def line (s : Selection) (duration : Value) : Except Failure String := do
  return chordLine (← s.chord duration)

/-- A text with the line of the selection at its end. -/
def appendTo (s : Selection) (text : String) (duration : Value) : Except Failure String := do
  let l ← s.line duration
  return if text.isEmpty then l else text ++ "\n" ++ l

end Selection

end Monochord
