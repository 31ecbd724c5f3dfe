import Monochord.FileTree
import Monochord.Sequence
import Monochord.Midi.Score
import Monochord.Timing.Environment

/-! # Exporting a sequence

A chord sequence is exported as two files in one directory, one in either tuning. Both are rendered
before anything is written.

- **`Session`**: the tree on which an export acts, and the records it has written to the journal.
- **`Exported`**: the paths of the files and the chords in them.
- **`exportSequence`**: the export of a text. -/

namespace Monochord

open Midi

/-! ## Sessions -/

/-- What an export changes. -/
structure Session where
  /-- The files. -/
  tree : FileTree
  /-- The records written so far. -/
  records : List LogRecord := []

/-- An operation in a session that may fail; what it has done before stays done. -/
abbrev Act (α : Type) := ExceptT Failure (StateM Session) α

namespace Act

/-- A record in the journal. -/
def report (level : Int) (message : String) : Act Unit :=
  modify fun s => { s with records := s.records ++ [⟨exportLogger, level, message⟩] }

/-- A pure computation that may fail. -/
def lift {α : Type} (r : Except Failure α) : Act α := ExceptT.mk (pure r)

/-- An attempt on the tree. -/
def onTree (attempt : FileTree → FileTree.Attempt) : Act Unit := do
  let a := attempt (← get).tree
  modify fun s => { s with tree := a.tree }
  match a.failure with
  | none => return ()
  | some f => throw f

end Act

/-! ## The export -/

/-- How many chords, in words. -/
def chordCount (n : Nat) : String := toString n ++ " chord(s)"

/-- How many bytes, in words. -/
def byteCount (n : Nat) : String := toString n ++ " bytes"

/-- The record that a sequence has been resolved. -/
def resolvedMessage (cs : List ResolvedChord) : String := "Resolved " ++ chordCount cs.length

/-- The chords of a text with their harmonies. -/
def resolveReporting (text : String) : Act (List ResolvedChord) := do
  let chords ← Act.lift (resolveText text)
  Act.report debugLevel (resolvedMessage chords)
  return chords

/-- Writes bytes to a path and creates the directories on the way to it. -/
def writeReporting (path : Path) (content : Bytes) : Act Unit := do
  Act.onTree fun t => t.makeDirectories path.parent
  Act.onTree fun t => t.writeFile path content
  Act.report infoLevel ("Wrote " ++ path.text ++ " (" ++ byteCount content.length ++ ")")

/-- What an export has written. -/
structure Exported where
  /-- The path of the Pythagorean file. -/
  pythagorean : Path
  /-- The path of the equal-tempered file. -/
  equalTemperament : Path
  /-- The chords in both files. -/
  chords : List ResolvedChord

/-- A number with a set count of places; only a number that is too large fails. -/
def placesText (places : Nat) (q : Quantity) : Except Failure String := do
  return String.ofList (Binary64.fixed places false (← (← q.number).toFloat))

/-- The record that ends an export. -/
def exportedMessage (cs : List ResolvedChord) (t : Timing) : Except Failure String := do
  let tempo ← placesText 1 t.tempo
  let base ← placesText 3 t.base
  return "Exported " ++ chordCount cs.length ++ " at " ++ tempo ++ " BPM, " ++ base ++ "s per unit"

/-- Exports a text to two files in a directory. -/
def exportSequence (text directory : String) (t : Timing) : Act Exported := do
  let chords ← resolveReporting text
  let folder := Path.ofString directory
  let pure ← Act.lift (render .pythagorean t.base t.tempo chords)
  let tempered ← Act.lift (render .equalTemperament t.base t.tempo chords)
  let result : Exported :=
    ⟨folder.child (Tuning.fileName .pythagorean), folder.child (Tuning.fileName .equalTemperament),
      chords⟩
  writeReporting result.pythagorean pure
  writeReporting result.equalTemperament tempered
  Act.report infoLevel (← Act.lift (exportedMessage chords t))
  return result

end Monochord
