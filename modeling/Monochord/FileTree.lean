import Monochord.Text.Split
import Monochord.Smf.Vlq
import Monochord.Failure

/-! # A tree of directories and files

The model of a file system on which exports act. Directories can always be created and files always
be written, unless the names are in the way of each other. A path is a `String`, so it has no lone
surrogates, and any number of missing parents can be created: a limit on how deep calls may nest,
which a thousand of them could run into, is outside the model.

- **`Path`**: a path as it is written, with **`Path.ofString`**, **`Path.text`** and
  **`Path.child`**.
- **`FileTree`**: entries at their locations, below a root; relative paths start at a working
  directory.
- **`FileTree.readFile`**, **`FileTree.makeDirectories`**, **`FileTree.writeFile`**: the three
  things that a program does with a tree. -/

namespace Monochord

open Text

/-! ## Paths -/

/-- A path: what it starts with, and its parts. -/
structure Path where
  /-- The slashes in front: none for a relative path. -/
  root : String
  /-- The names between the slashes. -/
  parts : List String
deriving Repr, DecidableEq

namespace Path

/-- The slashes that a path starts with. Two slashes stay two; more than two count as one. -/
def rootOf : List Char → String
  | '/' :: '/' :: '/' :: _ => "/"
  | '/' :: '/' :: _ => "//"
  | '/' :: _ => "/"
  | _ => ""

/-- Reads a path. Empty parts and parts that are one dot mean nothing. -/
def ofString (s : String) : Path :=
  ⟨rootOf s.toList,
    ((splitOn '/' s.toList).map String.ofList).filter fun p => p ≠ "" && p ≠ "."⟩

/-- A path as text; the working directory itself is one dot. -/
def text (p : Path) : String :=
  if p.root.isEmpty && p.parts.isEmpty then "." else p.root ++ "/".intercalate p.parts

/-- A name below a path. -/
def child (p : Path) (name : String) : Path := { p with parts := p.parts ++ [name] }

/-- The path without its last part. -/
def parent (p : Path) : Path := { p with parts := p.parts.dropLast }

/-- Can the system take the path? A character of number zero would end it early. -/
def isUsable (p : Path) : Bool := p.parts.all fun part => !part.toList.contains '\x00'

/-- Is a path too long as a whole? -/
def isTooLong (p : Path) : Bool := 4095 < p.text.utf8ByteSize

end Path

/-! ## Trees -/

/-- A place in a tree: the names on the way to it from the root. -/
abbrev Location := List String

/-- What stands at a place. -/
inductive Entry
  /-- A directory. -/
  | directory
  /-- A file with its bytes. -/
  | file (content : Bytes)
deriving Repr, DecidableEq

/-- A tree of directories and files. -/
structure FileTree where
  /-- The working directory. -/
  here : Location
  /-- The entries by place; the first one for a place counts. -/
  entries : List (Location × Entry)
deriving Repr, DecidableEq

namespace FileTree

/-! ## Looking up -/

/-- The entry at a place. The root is always a directory. -/
def get? (t : FileTree) (l : Location) : Option Entry :=
  if l = [] then some .directory
  else (t.entries.find? fun e => e.1 == l).map (·.2)

/-- The tree with an entry put at a place. -/
def put (t : FileTree) (l : Location) (e : Entry) : FileTree :=
  { t with entries := (l, e) :: t.entries.filter fun x => x.1 ≠ l }

/-- All files with their places. -/
def files (t : FileTree) : List (Location × Bytes) :=
  t.entries.filterMap fun e => match e.2 with
    | .file content => some (e.1, content)
    | .directory => none

/-- Is a name too long for an entry? -/
def isTooLong (name : String) : Bool := 255 < name.utf8ByteSize

/-- Goes through directories that must exist, from a place on. Two dots lead back. -/
def walk (t : FileTree) : Location → List String → Except FileFault Location
  | l, [] => .ok l
  | l, name :: rest =>
    if name = ".." then walk t l.dropLast rest
    else if isTooLong name then .error .nameTooLong
    else match t.get? (l ++ [name]) with
      | none => .error .missing
      | some (.file _) => .error .notDirectory
      | some .directory => walk t (l ++ [name]) rest

/-- The place at which a path starts. -/
def start (t : FileTree) (p : Path) : Location := if p.root.isEmpty then t.here else []

/-- What the last part of a path leads to. -/
inductive Target
  /-- A place, of which the directory exists. -/
  | place (l : Location)
  /-- A directory that is named without a name of its own. -/
  | back
deriving Repr, DecidableEq

/-- Goes along a path up to its last part, for which no entry needs to exist. -/
def locate (t : FileTree) (p : Path) : Except FileFault Target := do
  if p.isTooLong then throw .nameTooLong
  let l ← t.walk (t.start p) p.parts.dropLast
  match p.parts.getLast? with
  | none => return .back
  | some name =>
    if name = ".." then return .back
    else if isTooLong name then throw .nameTooLong
    else return .place (l ++ [name])

/-- Does a path lead to a directory? -/
def isDirectory (t : FileTree) (p : Path) : Bool :=
  !p.isTooLong && (t.walk (t.start p) p.parts).isOk

/-- The places on the way of some names from a place on, the last one included. -/
def passed : Location → List String → List Location
  | _, [] => []
  | l, name :: rest =>
    if name = ".." then passed l.dropLast rest else (l ++ [name]) :: passed (l ++ [name]) rest

/-- The places on the way of a path. -/
def placesOf (t : FileTree) (p : Path) : List Location := passed (t.start p) p.parts

/-! ## Reading and writing -/

/-- A fault at a path as a failure. -/
def fault {α : Type} (p : Path) (f : FileFault) : Except Failure α := .error (.file f p.text)

/-- The bytes of a file. -/
def readFile (t : FileTree) (p : Path) : Except Failure Bytes :=
  if !p.isUsable then .error .undefined
  else match t.locate p with
    | .error f => fault p f
    | .ok .back => fault p .isDirectory
    | .ok (.place l) => match t.get? l with
      | none => fault p .missing
      | some .directory => fault p .isDirectory
      | some (.file content) => .ok content

/-- Creates one directory, whose parent must exist. -/
def makeDirectory (t : FileTree) (p : Path) : Except FileFault FileTree := do
  match ← t.locate p with
  | .back => throw .present
  | .place l => match t.get? l with
    | some _ => throw .present
    | none => return t.put l .directory

/-- What an attempt on a tree leads to: a failure or nothing, and the tree after it. -/
structure Attempt where
  /-- Why the attempt failed, if it did. -/
  failure : Option Failure
  /-- The tree afterwards. -/
  tree : FileTree

/-- Creates one directory unless it exists. -/
def ensureDirectory (t : FileTree) (p : Path) : Attempt :=
  match t.makeDirectory p with
  | .ok t' => ⟨none, t'⟩
  | .error f => ⟨if f ≠ .missing && t.isDirectory p then none else some (.file f p.text), t⟩

/-- Creates a directory and all that is missing on the way to it, for the parts of its path in
reverse. First the directory itself is tried; only if something on the way is missing, its parent is
ensured and the attempt repeated. -/
def makeDirectoriesBackwards (root : String) (t : FileTree) : List String → Attempt
  | [] => t.ensureDirectory ⟨root, []⟩
  | name :: before =>
    let p : Path := ⟨root, (name :: before).reverse⟩
    match t.makeDirectory p with
    | .error .missing =>
      let first := makeDirectoriesBackwards root t before
      match first.failure with
      | some _ => first
      | none => first.tree.ensureDirectory p
    | _ => t.ensureDirectory p

/-- Creates a directory and all that is missing on the way to it. -/
def makeDirectories (t : FileTree) (p : Path) : Attempt :=
  if p.isUsable then makeDirectoriesBackwards p.root t p.parts.reverse else ⟨some .undefined, t⟩

/-- Writes a file, in the place of an older one if there is one. -/
def writeFile (t : FileTree) (p : Path) (content : Bytes) : Attempt :=
  match t.locate p with
  | .error f => ⟨some (.file f p.text), t⟩
  | .ok .back => ⟨some (.file .isDirectory p.text), t⟩
  | .ok (.place l) => match t.get? l with
    | some .directory => ⟨some (.file .isDirectory p.text), t⟩
    | _ => ⟨none, t.put l (.file content)⟩

/-! ## Building a tree -/

/-- All places on the way to a place, without the place itself. -/
def above : Location → List Location
  | [] => []
  | [_] => []
  | name :: rest => [name] :: (above rest).map (name :: ·)

/-- A tree with a working directory and some files below it, given by their paths. -/
def ofFiles (here : Location) (files : List (Path × Bytes)) : FileTree :=
  files.foldl
    (fun t f =>
      let l := here ++ f.1.parts
      let t := (above l).foldl (fun t d => if (t.get? d).isNone then t.put d .directory else t) t
      t.put l (.file f.2))
    ⟨here, (above here ++ [here]).map fun l => (l, .directory)⟩

end FileTree

end Monochord
