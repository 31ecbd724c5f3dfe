import Monochord.CommandLine.Arguments
import Monochord.Export
import Monochord.Table

/-! # Running the command

The command reads chord text, exports it and may print the frequency table. What it reports goes to
the journal, whose records at or above the chosen level are shown.

- **`Surroundings`**: what the command finds: the environment, the standard input and the files.
- **`Outcome`**: what it leaves behind.
- **`Outcome.shown`**: the lines it shows on the standard error stream.
- **`settings`**: where the timing and the directory come from: an option, or else the environment,
  or else the default.
- **`run`**: the command. -/

namespace Monochord.CommandLine

/-! ## Input -/

/-- What the command finds when it starts. -/
structure Surroundings where
  /-- The environment variables, after a settings file `.env` has added its own to them. -/
  environment : Environment := []
  /-- The text at the standard input. -/
  standardInput : String := ""
  /-- The files. -/
  tree : FileTree

/-- Line ends of every system as line feeds. -/
def unifyLineEnds : List Char → List Char
  | [] => []
  | '\r' :: '\n' :: cs => '\n' :: unifyLineEnds cs
  | '\r' :: cs => '\n' :: unifyLineEnds cs
  | c :: cs => c :: unifyLineEnds cs

/-- A text with unified line ends. -/
def readable (s : String) : String := String.ofList (unifyLineEnds s.toList)

/-- The text of bytes in UTF-8, with unified line ends; other bytes are `.notText`. -/
def decodeText (content : Bytes) : Except Failure String :=
  match String.fromUTF8? ⟨content.toArray⟩ with
  | some s => .ok (readable s)
  | none => .error .notText

/-- The name that stands for the standard input. -/
def standardInputName : String := "-"

/-- The text that the command works on. -/
def inputText (a : Arguments) (s : Surroundings) : Except Failure String :=
  if a.useExample then .ok exampleSequence
  else
    let name := a.input.getD ""
    if name = standardInputName then .ok (readable s.standardInput)
    else do decodeText (← s.tree.readFile (Path.ofString name))

/-! ## Settings -/

/-- The directory for the files: the option, the variable `directoryVariable`, or `"."`. An empty
name counts as none. -/
def directory (a : Arguments) (env : Environment) : String :=
  let named := [a.outDir.value?, env.get? Environment.directoryVariable].filterMap id
  (named.find? fun d => !d.isEmpty).getD "."

/-- The change of a setting that an option asks for. An option without a value makes it `.absent`.
-/
def change (setting : Setting) : Given Float → Timing.Changes
  | .absent => []
  | .blank => [(setting.name, .absent)]
  | .value x => [(setting.name, .float x)]

/-- The timing for the export: `replace` of what the environment gives by what the options ask for.
The warnings are those of the environment. -/
def settings (a : Arguments) (env : Environment) : Except Failure Timing × List LogRecord :=
  let (t, warnings) := env.timing
  (t.replace (change .tempo a.tempo ++ change .baseDuration a.base), warnings)

/-- The name of the level from which the journal is shown. -/
def levelShown (a : Arguments) : String := a.level.value?.getD "INFO"

/-! ## Outcomes -/

/-- How the command ends. -/
inductive Status
  /-- With an exit code. -/
  | code (n : Nat)
  /-- By a failure that it does not handle. -/
  | failed (f : Failure)
deriving Repr, DecidableEq

/-- What the command leaves behind. -/
structure Outcome where
  /-- How it ended. -/
  status : Status
  /-- What it printed. -/
  output : String := ""
  /-- The level from which the journal is shown. -/
  level : String := "INFO"
  /-- The records it wrote to the journal. -/
  records : List LogRecord := []
  /-- The last line it shows, after the journal. -/
  closing : Option String := none
  /-- The files. -/
  tree : FileTree

/-- The name of the command. -/
def commandName : String := "chord-tool"

/-- Records as they are shown from a level on. -/
def shownRecords (level : String) (records : List LogRecord) : List String :=
  match Journal.configure {} (.name level) with
  | .ok j => ((records.foldl Journal.log j).streams.getLast?).getD []
  | .error _ => []

/-- The lines that the command shows. -/
def Outcome.shown (o : Outcome) : List String :=
  shownRecords o.level o.records ++ o.closing.toList

/-- The end of a command whose arguments make no sense: the exit code 2, and the error at the end.
-/
def refuse (s : Surroundings) (level : String) (records : List LogRecord) (e : UsageError) :
    Outcome :=
  { status := .code 2, level, records, closing := some (commandName ++ ": error: " ++ e.message)
    tree := s.tree }

/-! ## The command -/

/-- The text of a fault of the file system. -/
def faultText (fault : FileFault) (path : String) : String :=
  "[Errno " ++ toString fault.code ++ "] " ++ fault.description ++ ": " ++ Text.quote path

/-- What the command reports about a failure that it handles, and after which words: `.diagnosed`
and `.file` only. -/
def handled? : Failure → Option (String × String)
  | .diagnosed d => some ("Invalid chord sequence: ", d.message)
  | .file fault path => some ("Export failed: ", faultText fault path)
  | _ => none

/-- Reads the text and exports it. -/
def perform (a : Arguments) (s : Surroundings) (t : Timing) : Act Exported := do
  let text ← Act.lift (inputText a s)
  exportSequence text (directory a s.environment) t

/-- The end of a command that could not export, after the records and the tree that it left: the
exit code 1 if `handled? f`. -/
def abort (a : Arguments) (s : Session) (f : Failure) : Outcome :=
  match handled? f with
  | none => { status := .failed f, level := levelShown a, records := s.records, tree := s.tree }
  | some (intro, text) =>
    { status := .code 1, level := levelShown a, tree := s.tree
      records := s.records ++ [⟨exportLogger, errorLevel, intro ++ text⟩]
      closing := some ("Error: " ++ text) }

/-- The end of a command that has exported: the exit code 0, and `frequencyTable` if it was asked
for. -/
def finish (a : Arguments) (s : Session) (done : Exported) : Outcome :=
  let quiet : Outcome :=
    { status := .code 0, level := levelShown a, records := s.records, tree := s.tree }
  if a.showTable then
    match frequencyTable done.chords with
    | .ok table => { quiet with output := table ++ "\n" }
    | .error f => { quiet with status := .failed f }
  else quiet

/-- The end of a command that has found no timing: if `f` has a message, this is an error in the
arguments. -/
def refuseTiming (a : Arguments) (s : Surroundings) (warnings : List LogRecord) (f : Failure) :
    Outcome :=
  match f.message? with
  | some reason => refuse s (levelShown a) warnings (.unusable reason)
  | none => { status := .failed f, level := levelShown a, records := warnings, tree := s.tree }

/-- Runs the command with arguments that have been read. A level without a value cannot be shown,
and without an input there is nothing to do; only then are the settings read. -/
def runArguments (a : Arguments) (s : Surroundings) : Outcome :=
  if a.help then { status := .code 0, tree := s.tree }
  else if a.level.isBlank then { status := .failed .wrongType, tree := s.tree }
  else if !a.useExample && a.input.isNone then refuse s (levelShown a) [] .inputMissing
  else
    match settings a s.environment with
    | (.error f, warnings) => refuseTiming a s warnings f
    | (.ok t, warnings) =>
      match (perform a s t).run ⟨s.tree, warnings⟩ with
      | (.ok done, session) => finish a session done
      | (.error f, session) => abort a session f

/-- Runs the command. Reading a settings file `.env` is outside: its variables count as a part of
`s.environment`. -/
def run (words : List String) (s : Surroundings) : Outcome :=
  match Arguments.ofWords words with
  | .error e => refuse s "INFO" [] e
  | .ok a => runArguments a s

end Monochord.CommandLine
