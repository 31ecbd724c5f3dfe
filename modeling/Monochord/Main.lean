import Monochord.CommandLine.Run

/-! # The program

Runs the command on the files of the machine. The command itself works on a tree, so the program
puts into one what it finds on the way to the input and to the directory for the files, runs the
command, and then writes what the command has put into the tree. -/

namespace Monochord.CommandLine

/-! ## Looking -/

/-- The path of a place on the machine. -/
def pathOf (l : Location) : String := "/" ++ "/".intercalate l

/-- What stands at a place on the machine, with the bytes of a file. -/
def entryAt (l : Location) : IO (Option Entry) := do
  let path := (← IO.currentDir) / pathOf l
  if ← path.isDir then return some .directory
  else if ← path.pathExists then return some (.file (← IO.FS.readBinFile path).toList)
  else return none

/-- A tree with what stands on the way of some paths on the machine. -/
def observe (t : FileTree) (paths : List Path) : IO FileTree :=
  (paths.flatMap t.placesOf).foldlM
    (fun t l => do return match ← entryAt l with
      | some e => t.put l e
      | none => t) t

/-- The variables that the command knows, as far as they are set. -/
def knownVariables : IO Environment := do
  let names :=
    [Environment.tempoVariable, Environment.baseVariable, Environment.directoryVariable]
  let values ← names.mapM fun name => do return (← IO.getEnv name).map fun v => (name, v)
  return values.filterMap id

/-- The paths that the command uses. -/
def usedPaths (a : Arguments) (env : Environment) : List Path :=
  let folder := Path.ofString (directory a env)
  let outputs := [Midi.Tuning.pythagorean, .equalTemperament].map fun t => folder.child t.fileName
  if a.useExample || a.input = some standardInputName then outputs
  else (a.input.map Path.ofString).toList ++ outputs

/-- What the command finds when it starts. The environment is that of the process alone: a settings
file `.env` is not looked for. -/
def surroundings (a : Arguments) : IO Surroundings := do
  let environment ← knownVariables
  let here := (Path.ofString (← IO.currentDir).toString).parts
  let tree ← observe (FileTree.ofFiles here []) (usedPaths a environment)
  let standardInput ←
    if a.input = some standardInputName then (← IO.getStdin).readToEnd else pure ""
  return { environment, standardInput, tree }

/-! ## Running -/

/-- Writes every file of a tree that stands differently in another one. -/
def writeChanges (before after : FileTree) : IO Unit := do
  for (place, content) in after.files do
    if before.get? place ≠ some (.file content) then
      IO.FS.createDirAll (pathOf place.dropLast)
      IO.FS.writeBinFile (pathOf place) ⟨content.toArray⟩

/-- Runs the command and returns its exit code. A failure that the command does not handle gives the
code one. -/
def execute (words : List String) : IO UInt32 := do
  let s ← surroundings ((Arguments.ofWords words).toOption.getD {})
  let outcome := run words s
  writeChanges s.tree outcome.tree
  for line in outcome.shown do IO.eprintln line
  IO.print outcome.output
  match outcome.status with
  | .code n => return n.toUInt32
  | .failed f =>
    IO.eprintln (f.message?.getD "the sequence cannot be exported")
    return 1

end Monochord.CommandLine

/-- The command `chord-tool`. -/
def main (words : List String) : IO UInt32 := Monochord.CommandLine.execute words
