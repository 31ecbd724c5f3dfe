import Monochord.Chord

/-! # Chord records

A chord may also come as a record whose fields hold anything, from another program or from the
keyboard. Checking it decides whether it is a chord.

- **`Record`**: three fields of any value.
- **`Record.check`**: the duration of a good record, or a complaint about the first bad field.
- **`Record.settle`**: the record with its intervals as a list: the characters of a text, the names
  of an object. -/

namespace Monochord

/-- A chord record. -/
structure Record where
  /-- The fundamental: a text that is not empty. -/
  fundamental : Value
  /-- The intervals: a list that is not empty. -/
  intervals : Value
  /-- The duration: a finite positive number. -/
  duration : Value

namespace Record

/-- The record that some fields make up; a missing field is null. -/
def ofFields (fields : List (String × Value)) : Record :=
  ⟨.field fields "fundamental", .field fields "intervals", .field fields "duration"⟩

/-- Accepts a duration that is a finite positive `.int` or `.float`; truth values are no numbers
here, and anything else is `.recordDurationInvalid`. -/
def checkDuration : Value → Except Failure Number
  | .quantity (.int n) => accept (.int n)
  | .quantity (.float x) => accept (.float x)
  | _ => diagnosing (complain .recordDurationInvalid)
where
  /-- A number is accepted if it is finite and positive. -/
  accept (a : Number) : Except Failure Number := do
    if (← a.isFinite) && a.isPositive then return a
    else diagnosing (complain .recordDurationInvalid)

/-- Checks `fundamental`, `intervals` and `duration` in this order, and gives the duration. -/
def check (r : Record) : Except Failure Number := do
  match r.fundamental with
  | .text s => if s.isEmpty then diagnosing (complain .recordWithoutFundamental)
  | _ => diagnosing (complain .recordWithoutFundamental)
  match r.intervals with
  | .list items => if items.isEmpty then diagnosing (complain .recordWithoutIntervals)
  | _ => diagnosing (complain .recordWithoutIntervals)
  checkDuration r.duration

/-- The intervals as a `.list`: a text has its characters, and an object its names. A quantity holds
no intervals. -/
def settleIntervals : Value → Except Failure Value
  | .list items => .ok (.list items)
  | .text s => .ok (.list (s.toList.map fun c => .text (String.ofList [c])))
  | .object fields => .ok (.list (fields.map fun f => .text f.1))
  | .quantity _ => .error .wrongType

/-- The record with `settleIntervals` of its intervals. -/
def settle (r : Record) : Except Failure Record := do
  return { r with intervals := ← settleIntervals r.intervals }

end Record

end Monochord
