import Monochord.Value
import Monochord.Midi.Score
import Monochord.Numeral

/-! # Requests

The bodies of requests to the chord service. A body is structured data whose fields are checked one
by one; every field that is wrong is reported, in the order of the fields.

- **`Problem`** and **`Violation`**: what is wrong with a field, and where.
- **`Checked`**: a value, or what is wrong with it; **`Checked.both`** collects the violations of
  two.
- **`TextRequest`**, **`FileRequest`**, **`KeyboardRequest`**: the requests, each with a function
  that reads it from a body. -/

namespace Monochord.Service

open Midi

/-! ## Violations -/

/-- What can be wrong with a field. -/
inductive Problem
  /-- The field is not there. -/
  | missing
  /-- A text is needed. -/
  | notText
  /-- A number is needed. -/
  | notNumber
  /-- A text does not denote a number. -/
  | unreadableNumber
  /-- A list is needed. -/
  | notList
  /-- The value is not among the choices. -/
  | notChoice
  /-- The number is not above its limit. -/
  | tooSmall
  /-- The number is below its limit. -/
  | belowLimit
  /-- The number is too large. -/
  | tooLarge
  /-- The text is too short. -/
  | textTooShort
  /-- The list is too short. -/
  | listTooShort
deriving Repr, DecidableEq

/-- The name of a problem in reports. -/
def Problem.code : Problem → String
  | missing => "missing"
  | notText => "string_type"
  | notNumber => "float_type"
  | unreadableNumber => "float_parsing"
  | notList => "list_type"
  | notChoice => "literal_error"
  | tooSmall => "greater_than"
  | belowLimit => "greater_than_equal"
  | tooLarge => "less_than_equal"
  | textTooShort => "string_too_short"
  | listTooShort => "too_short"

/-- A step on the way to a value. -/
inductive Step
  /-- To the field of a name. -/
  | field (name : String)
  /-- To the item at an index. -/
  | item (index : Nat)
deriving Repr, DecidableEq

/-- What is wrong, and where. -/
structure Violation where
  /-- The way to the value. -/
  location : List Step
  /-- What is wrong with it. -/
  problem : Problem
deriving Repr, DecidableEq

/-! ## Checking -/

/-- A value that has been checked, or what is wrong with it. -/
abbrev Checked (α : Type) := Except (List Violation) α

/-- The violations of a value; none if it is good. -/
def Checked.violations {α : Type} : Checked α → List Violation
  | .ok _ => []
  | .error vs => vs

/-- Two values, or the violations of both. -/
def Checked.both {α β : Type} (a : Checked α) (b : Checked β) : Checked (α × β) :=
  match a, b with
  | .ok x, .ok y => .ok (x, y)
  | a, b => .error (a.violations ++ b.violations)

/-- A problem with the value at hand. -/
def reject {α : Type} (p : Problem) : Checked α := .error [⟨[], p⟩]

/-- The same check one step further down. -/
def Checked.under {α : Type} (c : Checked α) (s : Step) : Checked α :=
  c.mapError fun vs => vs.map fun v => { v with location := s :: v.location }

/-- A field that must be there. -/
def required {α : Type} (fields : List (String × Value)) (name : String)
    (read : Value → Checked α) : Checked α :=
  match Value.find? fields name with
  | none => (reject .missing : Checked α).under (.field name)
  | some v => (read v).under (.field name)

/-- A field that may be left out. -/
def optional {α : Type} (fields : List (String × Value)) (name : String) (default : α)
    (read : Value → Checked α) : Checked α :=
  match Value.find? fields name with
  | none => .ok default
  | some v => (read v).under (.field name)

/-! ## Reading values -/

/-- A text. -/
def readText : Value → Checked String
  | .text s => .ok s
  | _ => reject .notText

/-- A text that is not empty. -/
def readSomeText (v : Value) : Checked String := do
  let s ← readText v
  if s.isEmpty then reject .textTooShort else return s

/-- A text of digits in which single underscores stand inside, without them. -/
def dropUnderscores? (cs : List Char) : Option (List Char) :=
  if cs.head? = some '_' || cs.getLast? = some '_' || hasDouble cs then none
  else some (cs.filter (· ≠ '_'))
where
  /-- Do two underscores stand side by side? -/
  hasDouble : List Char → Bool
    | '_' :: '_' :: _ => true
    | _ :: cs => hasDouble cs
    | [] => false

/-- The number that a text denotes, in ASCII characters only. Spaces around it do not matter, or
else underscores inside it. -/
def numberOfText? (s : String) : Option Float :=
  let read := fun cs : List Char => if cs.all (·.toNat < 128) then wholePlain? cs else none
  match read (dropSpacing s.toList) with
  | some x => some x
  | none => (dropUnderscores? s.toList).bind read

/-- A number, as a double. A text that denotes one is a number too. -/
def readNumber : Value → Checked Float
  | .text s => match numberOfText? s with
    | some x => .ok x
    | none => reject .unreadableNumber
  | .quantity q => match q.number >>= Number.toFloat with
    | .ok x => .ok x
    | .error _ => reject .notNumber
  | _ => reject .notNumber

/-- A number above zero, with no upper limit or up to one, which is looked at first. What is not a
number is not within any limit. -/
def readPositive (limit : Option Float) (v : Value) : Checked Float := do
  let x ← readNumber v
  if !limit.all (x ≤ ·) then reject .tooLarge
  else if 0.0 < x then return x
  else reject .tooSmall

/-- The items of a list, of which the first has the given index. -/
def readItems {α : Type} (read : Value → Checked α) : Nat → List Value → Checked (List α)
  | _, [] => .ok []
  | index, v :: vs =>
    (((read v).under (.item index)).both (readItems read (index + 1) vs)).map fun p => p.1 :: p.2

/-- A list that is not empty. -/
def readSomeList {α : Type} (read : Value → Checked α) : Value → Checked (List α)
  | .list [] => reject .listTooShort
  | .list vs => readItems read 0 vs
  | _ => reject .notList

/-- The name of a tuning. -/
def readTuning : Value → Checked Tuning
  | .text s => match Tuning.ofName? s with
    | some t => .ok t
    | none => reject .notChoice
  | _ => reject .notChoice

/-! ## The requests -/

/-- Asks for the chords of a text. -/
structure TextRequest where
  /-- The chord text. -/
  text : String

/-- Reads a request for chords. -/
def TextRequest.ofFields (fields : List (String × Value)) : Checked TextRequest :=
  (required fields "text" readText).map TextRequest.mk

/-- Asks for a file. -/
structure FileRequest where
  /-- The chord text. -/
  text : String
  /-- The tuning. -/
  tuning : Tuning
  /-- The seconds in a unit of duration. -/
  base : Float
  /-- The tempo. -/
  tempo : Float

/-- The greatest length of a unit of duration, in seconds. -/
def maxBase : Float := 60.0

/-- The highest tempo. -/
def maxTempo : Float := 960.0

/-- Reads a request for a file. -/
def FileRequest.ofFields (fields : List (String × Value)) : Checked FileRequest :=
  let text := required fields "text" readText
  let tuning := optional fields "tuning" .pythagorean readTuning
  let base := optional fields "base_duration" 1.0 (readPositive (some maxBase))
  let tempo := optional fields "tempo" 120.0 (readPositive (some maxTempo))
  (text.both (tuning.both (Checked.both base tempo))).map fun (a, b, c, d) => ⟨a, b, c, d⟩

/-- Asks for the line of a keyboard selection. -/
structure KeyboardRequest where
  /-- The key of the fundamental. -/
  fundamental : String
  /-- The keys pressed after it. -/
  notes : List String
  /-- The duration. -/
  duration : Float
  /-- The text to which the line is appended. -/
  text : String

/-- Reads a request for a line. -/
def KeyboardRequest.ofFields (fields : List (String × Value)) : Checked KeyboardRequest :=
  let fundamental := required fields "fundamental" readSomeText
  let notes := required fields "notes" (readSomeList readText)
  let duration := optional fields "duration" 1.0 (readPositive none)
  let text := optional fields "text" "" readText
  (fundamental.both (notes.both (Checked.both duration text))).map fun (a, b, c, d) => ⟨a, b, c, d⟩

end Monochord.Service
