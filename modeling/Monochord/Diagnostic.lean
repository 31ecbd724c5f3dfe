/-! # Diagnostics

What the tool says about chord text that it cannot use. A diagnostic has a family, a precise kind, a
detail and, when it arose in a line of a sequence, the number of that line.

- **`Family`** and **`Kind`**: the classification; `Kind.code` is the name of a kind in records.
- **`Diagnostic`**: one complaint; `Diagnostic.message` is what the user reads.
- **`Diagnostic.atLine`**: the same complaint at a line; the last line given counts.
- **`Cause`**: every reason for which this library complains, with **`Cause.diagnostic`** as the one
  place for their wording. -/

namespace Monochord

/-! ## Classification -/

/-- The broad families of complaints. -/
inductive Family
  /-- A chord line or chord record is malformed. -/
  | format
  /-- A note name, interval or fundamental is not recognised. -/
  | symbol
  /-- A sequence has no chords. -/
  | empty
  /-- Nothing more precise is known. -/
  | other
deriving Repr, DecidableEq

/-- The precise condition behind a complaint. -/
inductive Kind
  | missingColon
  | invalidDurationFormat
  | invalidDurationValue
  | noIntervalsSpecified
  | missingFundamental
  | invalidFormat
  | invalidNoteName
  | invalidInterval
  | unknownInterval
  | invalidFundamental
  | emptySequence
deriving Repr, DecidableEq

namespace Kind

/-- All kinds. -/
def all : List Kind :=
  [missingColon, invalidDurationFormat, invalidDurationValue, noIntervalsSpecified,
    missingFundamental, invalidFormat, invalidNoteName, invalidInterval, unknownInterval,
    invalidFundamental, emptySequence]

/-- The name of a kind in records. -/
def code : Kind → String
  | missingColon => "missing_colon"
  | invalidDurationFormat => "invalid_duration_format"
  | invalidDurationValue => "invalid_duration_value"
  | noIntervalsSpecified => "no_intervals_specified"
  | missingFundamental => "missing_fundamental"
  | invalidFormat => "invalid_format"
  | invalidNoteName => "invalid_note_name"
  | invalidInterval => "invalid_interval"
  | unknownInterval => "unknown_interval"
  | invalidFundamental => "invalid_fundamental"
  | emptySequence => "empty_sequence"

/-- The kind with a given name. -/
def ofCode? (s : String) : Option Kind := all.find? fun k => k.code == s

@[simp] theorem ofCode?_code (k : Kind) : ofCode? k.code = some k := by cases k <;> decide

end Kind

/-! ## Complaints -/

/-- One complaint. -/
structure Diagnostic where
  /-- The family it belongs to. -/
  family : Family
  /-- The precise condition. -/
  kind : Kind
  /-- What is wrong, without the line number. -/
  detail : String
  /-- The line of the sequence in which it arose, counted from one. -/
  line : Option Int := none
deriving Repr, DecidableEq

namespace Diagnostic

/-- What the user reads: the detail, after the line number if there is one. -/
def message (d : Diagnostic) : String :=
  match d.line with
  | none => d.detail
  | some n => "Line " ++ toString n ++ ": " ++ d.detail

/-- The same complaint at a line. -/
def atLine (d : Diagnostic) (n : Int) : Diagnostic := { d with line := some n }

@[simp] theorem atLine_atLine (d : Diagnostic) (m n : Int) : (d.atLine m).atLine n = d.atLine n :=
  rfl

@[simp] theorem detail_atLine (d : Diagnostic) (n : Int) : (d.atLine n).detail = d.detail := rfl

@[simp] theorem kind_atLine (d : Diagnostic) (n : Int) : (d.atLine n).kind = d.kind := rfl

@[simp] theorem family_atLine (d : Diagnostic) (n : Int) : (d.atLine n).family = d.family := rfl

end Diagnostic

/-! ## Causes -/

/-- The reasons for which a chord, a line or a sequence is refused. -/
inductive Cause
  /-- A chord line has no colon. -/
  | lineWithoutColon
  /-- A part starts with the duration keyword and assigns nothing. -/
  | durationNotAssigned (part : String)
  /-- The value assigned to the duration is not a positive number. -/
  | durationNotPositive (value : String)
  /-- A chord line names no interval. -/
  | lineWithoutIntervals (fundamental : String)
  /-- A sequence has no chord line. -/
  | noChords
  /-- A chord record has no fundamental. -/
  | recordWithoutFundamental
  /-- A chord record has no intervals. -/
  | recordWithoutIntervals
  /-- The duration of a chord record is not a positive number. -/
  | recordDurationInvalid
  /-- No key has been pressed. -/
  | noFundamentalSelected
  /-- No chord tone has been selected. -/
  | noNotesSelected
  /-- A text is not a letter, an accidental and an octave. -/
  | noteMalformed (note : String)
  /-- A letter and an accidental that name no key. -/
  | noteUnnamed (name : String)
  /-- An interval symbol is not an accidental and a degree. -/
  | intervalMalformed (symbol : String)
  /-- A simple interval that is not in the table. -/
  | intervalUnknown (symbol : String)
  /-- A compound interval whose simple interval is not in the table. -/
  | compoundUnknown (symbol simple : String)
  /-- A distance below the fundamental has no interval symbol. -/
  | belowFundamental (semitones : Int)
  /-- A fundamental is neither a note nor a positive frequency. -/
  | fundamentalInvalid (shown : String)
deriving Repr, DecidableEq

/-- How a chord line looks. -/
def formatHint : String := "Expected format: \"A4: 1,3,5, duration=2\""

/-- The complaint that a cause leads to. The integer in `belowFundamental` stands in it with all its
digits; it is up to those who complain that these are not too many. -/
def Cause.diagnostic : Cause → Diagnostic
  | lineWithoutColon =>
    { family := .format, kind := .missingColon
      detail := "Invalid format: Missing colon. " ++ formatHint }
  | durationNotAssigned part =>
    { family := .format, kind := .invalidDurationFormat
      detail := "Invalid duration format: " ++ part ++ ". Expected format: \"duration=2\"" }
  | durationNotPositive value =>
    { family := .format, kind := .invalidDurationValue
      detail := "Invalid duration value: " ++ value ++ ". Must be a positive number." }
  | lineWithoutIntervals fundamental =>
    { family := .format, kind := .noIntervalsSpecified
      detail := "No intervals specified for fundamental " ++ fundamental }
  | noChords =>
    { family := .empty, kind := .emptySequence, detail := "No valid chords found in input" }
  | recordWithoutFundamental =>
    { family := .format, kind := .missingFundamental, detail := "Missing fundamental" }
  | recordWithoutIntervals =>
    { family := .format, kind := .noIntervalsSpecified, detail := "No intervals specified" }
  | recordDurationInvalid =>
    { family := .format, kind := .invalidDurationValue, detail := "Invalid duration" }
  | noFundamentalSelected =>
    { family := .format, kind := .missingFundamental, detail := "Select a fundamental first" }
  | noNotesSelected =>
    { family := .format, kind := .noIntervalsSpecified
      detail := "Please select fundamental and at least one interval note" }
  | noteMalformed note =>
    { family := .symbol, kind := .invalidFormat
      detail := "Invalid note format: " ++ note ++ ". Use format like A4, C#3, Bb5" }
  | noteUnnamed name =>
    { family := .symbol, kind := .invalidNoteName, detail := "Invalid note name: " ++ name }
  | intervalMalformed symbol =>
    { family := .symbol, kind := .invalidInterval, detail := "Invalid interval: " ++ symbol }
  | intervalUnknown symbol =>
    { family := .symbol, kind := .unknownInterval, detail := "Unknown interval: " ++ symbol }
  | compoundUnknown symbol simple =>
    { family := .symbol, kind := .unknownInterval
      detail := "Unknown compound interval: " ++ symbol ++ " (derived from " ++ simple ++ ")" }
  | belowFundamental semitones =>
    { family := .symbol, kind := .unknownInterval
      detail := "Cannot spell " ++ toString semitones ++
        " semitones: note is below the fundamental" }
  | fundamentalInvalid shown =>
    { family := .symbol, kind := .invalidFundamental, detail := "Invalid fundamental: " ++ shown }

end Monochord
