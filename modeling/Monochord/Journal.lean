import Monochord.Failure
import Monochord.Numeral

/-! # The journal

Operations write records to a journal. A record has a level, and the higher it is, the more it
matters. Configuring the journal sends all records from then on to one new stream; a record reaches
the stream if its level is at least the effective level of its logger, which is the level of the
nearest ancestor that has one. Only loggers that exist are ancestors, and a logger exists once it
has reported. A few libraries that report every request are kept quiet.

- **`levelOf?`** and **`levelName`**: levels and their names.
- **`LogRecord`**: one record, with **`LogRecord.line`** its text in a stream.
- **`Journal`**: levels and streams; **`Journal.configure`** installs a stream and **`Journal.log`**
  delivers a record.
- **`Journal.parent?`**: the nearest logger above a logger.
- **`Journal.effectiveLevel`**: the level from which a logger's records count. -/

namespace Monochord

/-! ## Levels -/

/-- The level of details for the developer. -/
def debugLevel : Int := 10

/-- The level of ordinary reports. -/
def infoLevel : Int := 20

/-- The level of warnings. -/
def warningLevel : Int := 30

/-- The level of errors. -/
def errorLevel : Int := 40

/-- The names under which levels can be asked for. -/
def namedLevels : List (String × Int) :=
  [("CRITICAL", 50), ("FATAL", 50), ("ERROR", 40), ("WARN", 30), ("WARNING", 30), ("INFO", 20),
    ("DEBUG", 10), ("NOTSET", 0)]

/-- A letter in upper case, as far as the names of levels need it: the ASCII letters, and the two
other letters whose capital is an ASCII letter. -/
def upper (c : Char) : Char :=
  if 'a' ≤ c ∧ c ≤ 'z' then Char.ofNat (c.toNat - 32)
  else if c = 'ı' then 'I' else if c = 'ſ' then 'S' else c

/-- The level of a given name, in any mix of cases. -/
def levelOf? (name : String) : Option Int :=
  let name := String.ofList (name.toList.map upper)
  (namedLevels.find? fun l => l.1 == name).map (·.2)

/-- The name by which a record shows its level; a level without a name of its own is shown by its
number. Nothing can be recorded at a level of more digits than are written, so that the limit on
digits does not matter here. -/
def levelName (level : Int) : String :=
  match [("CRITICAL", 50), ("ERROR", 40), ("WARNING", 30), ("INFO", 20), ("DEBUG", 10),
      ("NOTSET", 0)].find? fun l => l.2 == level with
  | some l => l.1
  | none => "Level " ++ toString level

/-! ## Records -/

/-- A record in the journal. -/
structure LogRecord where
  /-- Who reports; dots divide the name into a path. -/
  logger : String
  /-- How much it matters. -/
  level : Int
  /-- What is reported. -/
  message : String
deriving Repr, DecidableEq

/-- The name of the logger above all others. -/
def rootName : String := "root"

/-- A record as it stands in a stream. -/
def LogRecord.line (r : LogRecord) : String :=
  "[" ++ (if r.logger.isEmpty then rootName else r.logger) ++ "] " ++ levelName r.level ++ " " ++
    r.message

/-! ## The journal -/

/-- The loggers that are kept quiet. -/
def quietLoggers : List String := ["uvicorn", "uvicorn.access", "httpx", "multipart"]

/-- What was decided about the records of a logger at a level. -/
structure Decision where
  /-- The name of the logger. -/
  logger : String
  /-- The level. -/
  level : Int
  /-- Do the records pass? -/
  passes : Bool
deriving Repr, DecidableEq

/-- The state of the journal. -/
structure Journal where
  /-- The level of the root. -/
  rootLevel : Int := warningLevel
  /-- The level of the quiet loggers; zero while they have none of their own. -/
  quietLevel : Int := 0
  /-- The indices of the streams to which records go. -/
  handlers : List Nat := []
  /-- The lines of every stream installed so far, in the order of installation. -/
  streams : List (List String) := []
  /-- The loggers that have reported something, beside the quiet ones. -/
  seen : List String := []
  /-- The decisions made since the levels were set, which hold until they are set again. -/
  decisions : List Decision := []
deriving Repr, DecidableEq

/-- What a level can be given as. -/
inductive LevelChoice
  /-- By its number. -/
  | number (n : Int)
  /-- By its name. -/
  | name (s : String)
deriving Repr, DecidableEq

/-- The number of a level. -/
def LevelChoice.resolve : LevelChoice → Except Failure Int
  | number n => .ok n
  | name s => match levelOf? s with
    | some n => .ok n
    | none => .error (.unknownLevel s)

namespace Journal

/-- Installs a new stream in the place of all others and sets the levels. -/
def configure (j : Journal) (choice : LevelChoice) : Except Failure Journal := do
  let level ← choice.resolve
  return { j with
    rootLevel := level, quietLevel := max level warningLevel
    handlers := [j.streams.length], streams := j.streams ++ [[]], decisions := [] }

/-! ## Effective levels -/

/-- The level that a logger has of its own; zero means none. -/
def ownLevel (j : Journal) (logger : List Char) : Int :=
  if String.ofList logger ∈ quietLoggers then j.quietLevel else 0

/-- Is there a logger of this name? There are those that are kept quiet and those that have
reported. -/
def knows (j : Journal) (logger : List Char) : Bool :=
  let name := String.ofList logger
  quietLoggers.contains name || j.seen.contains name

/-- What stands before the last dot of a name, both given backwards; nothing if there is no dot. -/
def beforeLastDot : List Char → List Char
  | [] => []
  | '.' :: cs => cs
  | _ :: cs => beforeLastDot cs

theorem length_beforeLastDot_lt {cs : List Char} (h : beforeLastDot cs ≠ []) :
    (beforeLastDot cs).length < cs.length := by
  fun_induction beforeLastDot cs with
  | case1 => simp at h
  | case2 cs => simp
  | case3 c cs _ ih => exact Nat.lt_succ_of_lt (ih h)

theorem length_lt_of_beforeLastDot {name cs : List Char} {c : Char}
    (h : beforeLastDot name = c :: cs) : cs.length < name.length := by
  have hlt : (beforeLastDot name).length < name.length := length_beforeLastDot_lt (by simp [h])
  rw [h] at hlt
  exact Nat.lt_trans (Nat.lt_succ_self _) hlt

/-- The names above a name, nearest first, all given backwards. A dot at the end of one of them does
not divide it. -/
def namesAbove (name : List Char) : List (List Char) :=
  match h : beforeLastDot name with
  | [] => []
  | c :: cs =>
    have := length_lt_of_beforeLastDot h
    (c :: cs) :: namesAbove cs
termination_by name.length

/-- The names above a name are shorter. -/
theorem length_lt_of_mem_namesAbove {name p : List Char} (h : p ∈ namesAbove name) :
    p.length < name.length := by
  fun_induction namesAbove name with
  | case1 => simp at h
  | case2 name c cs hc _ ih =>
    have hlt : (beforeLastDot name).length < name.length := length_beforeLastDot_lt (by simp [hc])
    rw [hc] at hlt
    rcases List.mem_cons.1 h with rfl | h
    · exact hlt
    · exact Nat.lt_trans (ih h) (Nat.lt_trans (Nat.lt_succ_self _) hlt)

/-- The parent of a logger is the nearest name above it that belongs to a logger; all given
backwards. -/
def parent? (j : Journal) (name : List Char) : Option (List Char) :=
  (namesAbove name).find? fun p => j.knows p.reverse

theorem length_lt_of_parent? {j : Journal} {name p : List Char} (h : j.parent? name = some p) :
    p.length < name.length :=
  length_lt_of_mem_namesAbove (List.mem_of_find?_eq_some h)

/-- The level of a logger whose name is given backwards: its own, or else the one of its parent, and
in the end the one of the root. -/
def levelBackwards (j : Journal) (name : List Char) : Int :=
  if j.ownLevel name.reverse ≠ 0 then j.ownLevel name.reverse
  else match h : j.parent? name with
    | none => j.rootLevel
    | some p =>
      have := length_lt_of_parent? h
      levelBackwards j p
termination_by name.length

/-- The effective level of a logger: its own, or else the one that it inherits. -/
def effectiveLevel (j : Journal) (logger : String) : Int :=
  if logger = rootName then j.rootLevel else j.levelBackwards logger.toList.reverse

/-! ## Logging -/

/-- Does a record pass by its level? Records at level zero or below never do. -/
def admits (j : Journal) (r : LogRecord) : Bool :=
  0 < r.level && j.effectiveLevel r.logger ≤ r.level

/-- Does a record pass? What was decided about its logger and its level since the levels were set
still holds, even if the logger has got another parent. -/
def passes (j : Journal) (r : LogRecord) : Bool :=
  match j.decisions.find? fun d => d.logger == r.logger && d.level == r.level with
  | some d => d.passes
  | none => j.admits r

/-- Delivers a record to the streams that are installed, if it passes. -/
def log (j : Journal) (r : LogRecord) : Journal :=
  let noted := { j with
    seen := r.logger :: j.seen
    decisions := ⟨r.logger, r.level, j.passes r⟩ :: j.decisions }
  if j.passes r then
    { noted with streams := j.streams.mapIdx fun i lines =>
        if i ∈ j.handlers then lines ++ [r.line] else lines }
  else noted

end Journal

end Monochord
