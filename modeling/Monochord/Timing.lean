import Monochord.Quantity

/-! # Timing

How long a unit of duration is, and at which tempo a file says it is played. Both settings must be
finite and positive.

- **`Timing`**: the two settings, which keep the kind of number they were given as.
- **`Timing.make`**: a checked timing.
- **`Timing.standard`**, **`Timing.slow`**, **`Timing.fast`**: ready-made timings.
- **`Timing.checkName`**: values are given under the names of the settings only.
- **`Timing.override`**: a timing with some settings replaced; a setting that is given as nothing
  stays as it is.
- **`Timing.construct`**: the standard timing with some settings replaced, where nothing is no
  value. -/

namespace Monochord

/-- The seconds in a unit of duration, and the quarter notes in a minute. -/
structure Timing where
  /-- The seconds in a unit of duration. -/
  base : Quantity
  /-- The tempo in quarter notes a minute. -/
  tempo : Quantity

namespace Timing

/-! ## Checking -/

/-- Accepts a setting that is a finite positive number; any other number is `.settingNotPositive`.
-/
def checkSetting (setting : Setting) (q : Quantity) : Except Failure Unit := do
  let a ← q.number
  if (← a.isFinite) && a.isPositive then return ()
  else throw (.settingNotPositive setting q.text)

/-- A timing with `checkSetting` of both settings, the length of the unit first. -/
def make (base tempo : Quantity) : Except Failure Timing := do
  checkSetting .baseDuration base
  checkSetting .tempo tempo
  return ⟨base, tempo⟩

/-! ## Ready-made timings -/

/-- A second for a unit, at 120 quarter notes a minute. -/
def standard : Timing := ⟨.float 1.0, .float 120.0⟩

/-- A second for a unit, at 60 quarter notes a minute. -/
def slow : Timing := ⟨.float 1.0, .float 60.0⟩

/-- Half a second for a unit, at 180 quarter notes a minute. -/
def fast : Timing := ⟨.float 0.5, .float 180.0⟩

/-! ## Replacing settings -/

/-- Settings by name. -/
abbrev Changes := List (String × Quantity)

/-- The value that `changes` give for a setting, or `old`. -/
def pick (changes : Changes) (setting : Setting) (old : Quantity) : Quantity :=
  ((changes.find? fun c => c.1 == setting.name).map (·.2)).getD old

/-- Is there a setting of this name? -/
def isSetting (name : String) : Bool :=
  name == Setting.baseDuration.name || name == Setting.tempo.name

/-- The name under which a timing is itself handed to its operations. -/
def ownName : String := "self"

/-- Accepts the name of a setting. `ownName` is `.nameTaken`, and any other name `.unknownSetting`.
-/
def checkName (name : String) : Except Failure Unit :=
  if name = ownName then .error (.nameTaken name)
  else if isSetting name then .ok ()
  else .error (.unknownSetting name)

/-- The timing with all changes made: `checkName` for every name, one after another, and then `make`
of the result as a whole. -/
def replace (t : Timing) (changes : Changes) : Except Failure Timing := do
  changes.forM fun c => checkName c.1
  make (pick changes .baseDuration t.base) (pick changes .tempo t.tempo)

/-- Is the value of a change anything but `.absent`? -/
def givesValue (c : String × Quantity) : Bool :=
  match c.2 with
  | .absent => false
  | _ => true

/-- The timing with those changes made that give a value. The others may have any name but
`ownName`, which stands for `t` already. -/
def override (t : Timing) (changes : Changes) : Except Failure Timing :=
  if changes.any fun c => c.1 == ownName then .error (.nameTaken ownName)
  else t.replace (changes.filter givesValue)

/-- The timing that some changes make of `standard`. -/
def construct (changes : Changes) : Except Failure Timing := standard.replace changes

end Timing

end Monochord
