import Monochord.Diagnostic

/-! # Failures

Everything that can stop an operation of this library. The first constructor holds the complaints
about chord text, which a user can mend; the others are arithmetic that has no answer, values that
do not fit where they are put, and files that cannot be read or written.

- **`Failure`**: the reasons.
- **`Failure.message?`**: the text of those that have one of their own.
- **`complain`**: stops with the complaint of a cause. -/

namespace Monochord

/-- The setting of a timing that a failure is about. -/
inductive Setting
  /-- Seconds for one unit of duration. -/
  | baseDuration
  /-- Beats in a minute. -/
  | tempo
deriving Repr, DecidableEq

/-- The name of a setting in messages and requests. -/
def Setting.name : Setting → String
  | baseDuration => "base_duration"
  | tempo => "tempo"

/-- Why the file system refuses a request. -/
inductive FileFault
  /-- The entry or a directory on the way to it does not exist. -/
  | missing
  /-- There is already an entry of that name. -/
  | present
  /-- Something on the way is not a directory. -/
  | notDirectory
  /-- The entry is a directory. -/
  | isDirectory
  /-- A name on the way is too long, or the path as a whole. -/
  | nameTooLong
deriving Repr, DecidableEq

namespace FileFault

/-- The number by which the system reports a fault. -/
def code : FileFault → Nat
  | missing => 2
  | present => 17
  | notDirectory => 20
  | isDirectory => 21
  | nameTooLong => 36

/-- The words by which the system reports a fault. -/
def description : FileFault → String
  | missing => "No such file or directory"
  | present => "File exists"
  | notDirectory => "Not a directory"
  | isDirectory => "Is a directory"
  | nameTooLong => "File name too long"

end FileFault

/-- The reasons for which an operation stops. -/
inductive Failure
  /-- Chord text cannot be used. -/
  | diagnosed (d : Diagnostic)
  /-- A value is too large for a double or for an integer result. -/
  | overflow
  /-- A division by zero. -/
  | divisionByZero
  /-- A function has no value at its argument: the logarithm of a number that is not positive, the
  integer part of what is not a number, a byte beyond 255. -/
  | undefined
  /-- A value of another type is needed. -/
  | wrongType
  /-- A value is given for a setting that does not exist, under the name shown. -/
  | unknownSetting (name : String)
  /-- A value is given under a name that is taken by something else. -/
  | nameTaken (name : String)
  /-- An integer does not fit into a field of fixed width. -/
  | fieldOverflow
  /-- A time between events is negative. -/
  | negativeDelta (ticks : Int)
  /-- A variable-length quantity is negative. -/
  | negativeQuantity (value : Int)
  /-- A timing setting is not a finite positive number. -/
  | settingNotPositive (setting : Setting) (shown : String)
  /-- A level of the journal has no such name. -/
  | unknownLevel (name : String)
  /-- The file system refuses to use the path that is shown. -/
  | file (fault : FileFault) (path : String)
  /-- A file is not text in UTF-8. -/
  | notText
  /-- An integer has more digits than are read or written. -/
  | tooManyDigits
deriving Repr, DecidableEq

namespace Failure

/-- The text of a failure that has one of its own. An integer stands in it with all its digits, also
beyond the limit up to which the operations of this library write integers. -/
def message? : Failure → Option String
  | diagnosed d => some d.message
  | negativeDelta ticks => some ("delta_ticks must be non-negative, got " ++ toString ticks)
  | negativeQuantity value => some ("VLQ value must be non-negative, got " ++ toString value)
  | settingNotPositive setting shown =>
    some (setting.name ++ " must be positive, got " ++ shown)
  | unknownLevel name => some ("Unknown log level: " ++ name)
  | _ => none

end Failure

/-- Stops with the complaint of a cause. -/
def complain {α : Type} (c : Cause) : Except Diagnostic α := .error c.diagnostic

/-- A result that may carry a complaint, as one that may carry any failure. -/
def diagnosing {α : Type} (r : Except Diagnostic α) : Except Failure α := r.mapError .diagnosed

@[simp] theorem diagnosing_ok {α : Type} (a : α) : diagnosing (.ok a) = .ok a := rfl

@[simp] theorem diagnosing_error {α : Type} (d : Diagnostic) :
    diagnosing (.error d : Except Diagnostic α) = .error (.diagnosed d) := rfl

end Monochord
