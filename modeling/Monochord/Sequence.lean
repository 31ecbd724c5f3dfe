import Monochord.Text.Split
import Monochord.Chord

/-! # Chord sequences as text

One chord stands in each line:

```text
C4: 1,3,5, duration=2
440: 1,b3,5, Duration = 1.5
```

Before the first colon stands the fundamental, after it parts that commas separate. A part is an
interval or an assignment of the duration, which may stand anywhere; the last assignment counts, and
without one the duration is one. Blank parts are skipped. Blank lines and lines that start with `#`
or `//` are comments.

- **`isComment`**: is a line blank or a comment?
- **`readDuration`**: the value assigned in a part.
- **`readLine`**: the chord in a line, or nothing for a comment.
- **`readSequence`**: the chords of a text; the first bad line stops, and its number is reported.
- **`resolveText`**: the chords of a text with their harmonies. -/

namespace Monochord

open Text

/-! ## Comments -/

/-- Does a text without blanks around it count as a comment? -/
def isCommentTrimmed : List Char → Bool
  | [] => true
  | '#' :: _ => true
  | '/' :: '/' :: _ => true
  | _ => false

/-- Is a line blank or a comment? -/
def isComment (line : String) : Bool := isCommentTrimmed (trim line.toList)

/-! ## Durations -/

/-- The keyword of an assignment. -/
def durationKeyword : List Char := "duration".toList

/-- Does a part start with the keyword, in any mix of cases? Such a part is never an interval. -/
def startsWithKeyword (part : List Char) : Bool :=
  (part.take durationKeyword.length).map lower == durationKeyword

/-- Does a character count as a letter of the keyword in an assignment? Case does not matter, and
the two letters I of Turkish count as one. -/
def isKeywordLetter (letter c : Char) : Bool :=
  lower c == letter || (letter == 'i' && (c == 'İ' || c == 'ı'))

/-- What follows the letters of a keyword at the start of a text. -/
def afterKeyword? : List Char → List Char → Option (List Char)
  | [], cs => some cs
  | _ :: _, [] => none
  | k :: ks, c :: cs => if isKeywordLetter k c then afterKeyword? ks cs else none

/-- A character of an assigned value. -/
def isValueChar (c : Char) : Bool := ('0' ≤ c && c ≤ '9') || c == '.'

/-- The value of an assignment at the start of a text: the keyword, an equals sign with optional
blanks around it, and at least one digit or point. -/
def assignedHere? (cs : List Char) : Option (List Char) :=
  match (afterKeyword? durationKeyword cs).map dropBlanks with
  | some ('=' :: rest) =>
    let value := (dropBlanks rest).takeWhile isValueChar
    if value.isEmpty then none else some value
  | _ => none

/-- The value of the first assignment in a text. -/
def assigned? : List Char → Option (List Char)
  | [] => none
  | c :: cs => match assignedHere? (c :: cs) with
    | some v => some v
    | none => assigned? cs

/-- The value that a part assigns to the duration. -/
def readDuration (part : List Char) : Except Diagnostic Float :=
  match assigned? part with
  | none => complain (.durationNotAssigned (String.ofList part))
  | some value =>
    let value := String.ofList value
    match leadingNumber? value with
    | some x => if x.isFinite && 0.0 < x then .ok x else complain (.durationNotPositive value)
    | none => complain (.durationNotPositive value)

/-- The duration of a chord that assigns none. -/
def defaultDuration : Float := 1.0

/-! ## Lines -/

/-- Reads the parts of a line: the intervals, and the last duration assigned in them or before. -/
def readParts : List (List Char) → Float → Except Diagnostic (List String × Float)
  | [], duration => .ok ([], duration)
  | part :: parts, duration =>
    if startsWithKeyword part then do
      let duration ← readDuration part
      readParts parts duration
    else if part.isEmpty then readParts parts duration
    else do
      let (intervals, duration) ← readParts parts duration
      return (String.ofList part :: intervals, duration)

/-- Reads a line that has no blanks around it and is not a comment. -/
def readChord (line : List Char) : Except Diagnostic Chord :=
  match cut? ':' line with
  | none => complain .lineWithoutColon
  | some (head, tail) => do
    let fundamental := String.ofList (trim head)
    let (intervals, duration) ← readParts ((splitOn ',' tail).map trim) defaultDuration
    if intervals.isEmpty then complain (.lineWithoutIntervals fundamental)
    else return ⟨fundamental, intervals, .float duration⟩

/-- Reads a line; a comment has no chord. -/
def readLineChars (line : List Char) : Except Diagnostic (Option Chord) :=
  let line := trim line
  if isCommentTrimmed line then .ok none else (readChord line).map some

/-- Reads a line; a comment has no chord. -/
def readLine (line : String) : Except Diagnostic (Option Chord) := readLineChars line.toList

/-! ## Sequences -/

/-- Reads lines, of which the first has the given number. -/
def readLines : Int → List (List Char) → Except Diagnostic (List Chord)
  | _, [] => .ok []
  | n, line :: lines =>
    match readLineChars line with
    | .error d => .error (d.atLine n)
    | .ok none => readLines (n + 1) lines
    | .ok (some c) => (readLines (n + 1) lines).map (c :: ·)

/-- The chords of a text, at least one. -/
def readSequence (text : String) : Except Diagnostic (List Chord) := do
  let chords ← readLines 1 (splitOn '\n' text.toList)
  if chords.isEmpty then complain .noChords else return chords

/-- The chords of a text with their harmonies. Every line is read before the first chord is
resolved. -/
def resolveText (text : String) : Except Failure (List ResolvedChord) := do
  let chords ← diagnosing (readSequence text)
  resolveAll chords

/-! ## An example -/

/-- A sequence that shows the notation. -/
def exampleSequence : String := "\n".intercalate
  ["# Major chord progression in C",
    "C4: 1,3,5, duration=2",
    "F4: 1,3,5, duration=2",
    "G4: 1,3,5, duration=2",
    "C4: 1,3,5, duration=4",
    "",
    "# Minor progression in A",
    "A3: 1,b3,5, duration=1.5",
    "D4: 1,b3,5, duration=1.5",
    "E4: 1,3,5, duration=1.5",
    "A3: 1,b3,5, duration=3",
    "",
    "# Extended jazz voicing",
    "# Using Hz input and compound intervals",
    "440: 1,3,5,7,9,11, duration=4"]

end Monochord
