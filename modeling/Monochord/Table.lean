import Monochord.Text.Split
import Monochord.Sequence

/-! # The frequency table

A plain-text table that sets both tunings of every chord side by side. Each chord has a block: a
title, a line of column heads, and one line for each note. An empty line stands between two blocks.

- **`titleLine`**, **`headLine`** and **`noteLine`**: the three kinds of line.
- **`block`**: the lines of one chord.
- **`tableLines`**: the lines of all chords.
- **`frequencyTable`**: the table as one text. -/

namespace Monochord

open Text Binary64

/-- A duration in a title: `general`, six significant digits, whatever the kind of number. -/
def shortDuration (q : Quantity) : Except Failure (List Char) := do
  return general (← (← q.number).toFloat)

/-- The title of a chord: its number, its fundamental with the frequency, and its duration. -/
def titleLine (number : Nat) (c : ResolvedChord) : Except Failure String := do
  let duration ← shortDuration c.duration
  return toString number ++ ". Chord: " ++ c.fundamental ++ " (" ++
    String.ofList (fixed 2 false c.harmony.fundamental) ++ " Hz) - Duration: " ++
    String.ofList duration

/-- The column heads. -/
def headLine : String :=
  String.ofList ([' ', ' ', ' '] ++ padRight 9 "Interval".toList ++ padLeft 10 "Ratio".toList ++
    padLeft 14 "Pythagorean".toList ++ padLeft 14 "Equal Temp.".toList ++ padLeft 9 "Cents".toList)

/-- The line of a note: interval, ratio, both frequencies, and their distance in cents. -/
def noteLine (c : Comparison) : String :=
  let frequency (x : Float) : List Char := padLeft 11 (fixed 2 false x) ++ [' ', 'H', 'z']
  String.ofList ([' ', ' ', ' '] ++ padRight 9 c.interval.toList ++
    padLeft 10 (fixed 4 false c.ratio) ++ frequency c.pureFrequency ++
    frequency c.temperedFrequency ++ padLeft 9 (fixed 2 true c.cents))

/-- The lines of a chord: `titleLine`, `headLine`, and `noteLine` for each row of `Harmony.compare`.
-/
def block (number : Nat) (c : ResolvedChord) : Except Failure (List String) := do
  let title ← titleLine number c
  let rows ← c.harmony.compare
  return title :: headLine :: rows.map noteLine

/-- `block` for each chord, of which the first has the given number. -/
def blocks : Nat → List ResolvedChord → Except Failure (List (List String))
  | _, [] => .ok []
  | number, c :: cs => do
    let first ← block number c
    let rest ← blocks (number + 1) cs
    return first :: rest

/-- Blocks one after the other, with an empty line between two of them. -/
def joinBlocks : List (List String) → List String
  | [] => []
  | [b] => b
  | b :: bs => b ++ "" :: joinBlocks bs

/-- The lines of the table. -/
def tableLines (cs : List ResolvedChord) : Except Failure (List String) := do
  return joinBlocks (← blocks 1 cs)

/-- The table of some chords: `tableLines` with line feeds between them. -/
def frequencyTable (cs : List ResolvedChord) : Except Failure String := do
  return "\n".intercalate (← tableLines cs)

end Monochord
