import Monochord.Timing
import Monochord.Journal
import Monochord.Numeral
import Monochord.Text.Quoted

/-! # Timing from the environment

Environment variables may set the timing. What they hold is either a number that is accepted, or it
is ignored with a warning.

- **`Environment`**: variables and their values.
- **`Environment.timing`**: the timing that an environment leads to, and the warnings. -/

namespace Monochord

/-- Environment variables with their values. -/
abbrev Environment := List (String × String)

/-- The logger of exports. -/
def exportLogger : String := "ingestion.midi_export"

namespace Environment

/-- The variable for the tempo. -/
def tempoVariable : String := "CHORD_TOOL_TEMPO"

/-- The variable for the length of the unit. -/
def baseVariable : String := "CHORD_TOOL_BASE_DURATION"

/-- The variable for the directory to which files are exported. -/
def directoryVariable : String := "CHORD_TOOL_OUTPUT_DIR"

/-- The value of a variable. -/
def get? (env : Environment) (name : String) : Option String :=
  (env.find? fun v => v.1 == name).map (·.2)

/-- A record of `exportLogger` at `warningLevel`. -/
def warning (message : String) : LogRecord := ⟨exportLogger, warningLevel, message⟩

/-- The number in a variable; `.absent` if it is unset, blank or no number, and in the last case a
warning that names the variable and its text. -/
def number (env : Environment) (name : String) : Quantity × List LogRecord :=
  let raw := Text.trimmed ((env.get? name).getD "")
  if raw.isEmpty then (.absent, [])
  else match wholeNumber? raw with
    | some x => (.float x, [])
    | none =>
      (.absent, [warning ("Ignoring " ++ name ++ "=" ++ Text.quote raw ++ ": not a number")])

/-- A timing with one setting overridden, or the old one and a warning that names the setting and
why `override` fails. -/
def overrideOr (t : Timing) (setting : Setting) (value : Quantity) : Timing × List LogRecord :=
  match t.override [(setting.name, value)] with
  | .ok t => (t, [])
  | .error e =>
    (t, [warning ("Ignoring environment override for " ++ setting.name ++ ": " ++
      (e.message?.getD ""))])

/-- The timing of an environment, with the warnings: both variables are read before the first value
is tried. -/
def timing (env : Environment) : Timing × List LogRecord :=
  let (tempo, w1) := env.number tempoVariable
  let (base, w2) := env.number baseVariable
  let (t, w3) := overrideOr Timing.standard .tempo tempo
  let (t, w4) := overrideOr t .baseDuration base
  (t, w1 ++ w2 ++ w3 ++ w4)

end Environment

end Monochord
