import Monochord.Numeral
import Monochord.Interval
import Monochord.Value

/-! # Note names and fundamentals

A note name is a letter from A to G, an optional accidental and the number of an octave: `A4`,
`C#3`, `Bb-1`. Octaves turn over at C, and A of octave 4 sounds at 440 Hz. A fundamental is a note
name or a frequency in Hz.

- **`NoteName`**: letter, accidental and octave, with **`NoteName.read?`**.
- **`keyOffsets`** and **`flatNames`**: the keys of an octave with their distances from A, and the
  names with a flat for some of them.
- **`NoteName.offset?`**: the distance in semitones from A in the same octave; the four names that
  stand for no key have none.
- **`NoteName.semitones?`**: the distance in semitones from A4.
- **`noteFrequency`**: the equal-tempered frequency of a note name.
- **`fundamentalFrequency`**: the frequency of a fundamental. -/

namespace Monochord

open Text

/-! ## Letters -/

/-- The letters of the scale. -/
inductive Letter
  | c
  | d
  | e
  | f
  | g
  | a
  | b
deriving Repr, DecidableEq

/-- The letter that a character stands for. -/
def Letter.ofChar? : Char → Option Letter
  | 'C' => some c
  | 'D' => some d
  | 'E' => some e
  | 'F' => some f
  | 'G' => some g
  | 'A' => some a
  | 'B' => some b
  | _ => none

/-- The character of a letter. -/
def Letter.char : Letter → Char
  | c => 'C'
  | d => 'D'
  | e => 'E'
  | f => 'F'
  | g => 'G'
  | a => 'A'
  | b => 'B'

/-! ## Keys -/

/-- The names of the keys of an octave, upwards from C and without flats, each with its distance in
semitones from A. -/
def keyOffsets : List (String × Int) :=
  [("C", -9), ("C#", -8), ("D", -7), ("D#", -6), ("E", -5), ("F", -4), ("F#", -3), ("G", -2),
    ("G#", -1), ("A", 0), ("A#", 1), ("B", 2)]

/-- The names with a flat that stand for a key, and the names with a sharp for the same key. -/
def flatNames : List (String × String) :=
  [("Db", "C#"), ("Eb", "D#"), ("Gb", "F#"), ("Ab", "G#"), ("Bb", "A#")]

/-- The name without a flat for the same key; the name itself if there is none. -/
def sharpName (name : String) : String := (flatNames.lookup name).getD name

/-! ## Note names -/

/-- A letter, an accidental and an octave. -/
structure NoteName where
  /-- The letter. -/
  letter : Letter
  /-- The sign after the letter. -/
  accidental : Accidental
  /-- The octave. -/
  octave : Int
deriving Repr, DecidableEq

namespace NoteName

/-- An octave: an optional minus sign and digits. One line feed may follow, and nothing else. -/
def readOctave? (cs : List Char) : Option Int :=
  let (negative, cs) := match cs with
    | '-' :: rest => (true, rest)
    | _ => (false, cs)
  match takeDigits cs, dropDigits cs with
  | [], _ => none
  | ds, [] | ds, ['\n'] => some (if negative then -(ofDigits ds : Int) else ofDigits ds)
  | _, _ => none

/-- Reads a note name. -/
def read? : List Char → Option NoteName
  | [] => none
  | c :: cs =>
    let (accidental, cs) := Accidental.read cs
    match Letter.ofChar? c, readOctave? cs with
    | some letter, some octave => some ⟨letter, accidental, octave⟩
    | _, _ => none

/-- The letter and the accidental, without the octave. -/
def key (n : NoteName) : String := String.ofList (n.letter.char :: n.accidental.chars)

/-! ## Pitch -/

/-- The distance in semitones from A in the same octave, for a name with a flat that of the name with
a sharp. The names that stand for no key have none. -/
def offset? (n : NoteName) : Option Int := keyOffsets.lookup (sharpName n.key)

/-- The octave of the reference pitch. -/
def referenceOctave : Int := 4

/-- The distance in semitones from A4. -/
def semitones? (n : NoteName) : Option Int :=
  n.offset?.map fun o => o + (n.octave - referenceOctave) * 12

end NoteName

/-- The distance in semitones from A4 that a text names. -/
def noteSemitones (note : String) : Except Diagnostic Int :=
  match NoteName.read? note.toList with
  | none => complain (.noteMalformed note)
  | some n => match n.semitones? with
    | none => complain (.noteUnnamed n.key)
    | some s => .ok s

/-- The frequency of A4 in Hz. -/
def referenceFrequency : Float := 440.0

/-- The equal-tempered frequency of a note name in Hz. The number of the octave must not have too
many digits. -/
def noteFrequency (note : String) : Except Failure Float := do
  let s ← diagnosing (noteSemitones note)
  if exceedsDigitLimit note.toList then throw .tooManyDigits
  let ratio ← power (← (Number.int s).div (.int 12))
  return referenceFrequency * ratio

/-! ## Fundamentals -/

/-- A frequency is accepted as a fundamental if it is finite and positive. -/
def acceptFrequency (shown : String) (x : Option Float) : Except Failure Float :=
  match x with
  | some x =>
    if x.isFinite && 0.0 < x then .ok x else diagnosing (complain (.fundamentalInvalid shown))
  | none => diagnosing (complain (.fundamentalInvalid shown))

/-- The frequency of a fundamental given as text: a note name, or else a number at its start. -/
def fundamentalOfText (text : String) : Except Failure Float :=
  match noteFrequency text with
  | .ok x => .ok x
  | .error (.diagnosed _) => acceptFrequency text (leadingNumber? text)
  | .error e => .error e

/-- The frequency of a fundamental given as text or as a number. -/
def fundamentalFrequency : Value → Except Failure Float
  | .text s => fundamentalOfText s
  | .quantity q => do acceptFrequency q.text (some (← (← q.number).toFloat))
  | _ => .error .wrongType

end Monochord
