import Monochord.Numeral
import Monochord.Text.Quoted

/-! # Command-line arguments

The arguments of the command `chord-tool`: an input file and options in any order. A long option may
be abbreviated as long as only one option starts that way, its value may follow an equals sign, and
two dashes alone end the options. Two dashes after the equals sign leave an option without a value.
A word that looks like a negative number or holds a space is no option.

- **`OptionName`**: the options.
- **`Word`** and **`classify`**: what each argument is, before it is known what it is used for.
- **`Given`**: what is known about an option with a value.
- **`Arguments`**: what the command was asked to do, and **`Arguments.ofWords`** reads it.
- **`UsageError`**: why arguments make no sense, with its text **`UsageError.message`**. -/

namespace Monochord.CommandLine

/-! ## Options -/

/-- The options of the command. -/
inductive OptionName
  /-- Explains the command. -/
  | help
  /-- Takes the built-in example as input. -/
  | example
  /-- The directory for the files. -/
  | outDir
  /-- The tempo. -/
  | tempo
  /-- The seconds in a unit of duration. -/
  | baseDuration
  /-- Prints the frequency table. -/
  | showFrequencies
  /-- The level from which the journal is shown. -/
  | logLevel
deriving Repr, DecidableEq

namespace OptionName

/-- The long spelling of an option. -/
def long : OptionName → String
  | help => "--help"
  | .example => "--example"
  | outDir => "--out-dir"
  | tempo => "--tempo"
  | baseDuration => "--base-duration"
  | showFrequencies => "--show-frequencies"
  | logLevel => "--log-level"

/-- All spellings of all options. -/
def spellings : List (String × OptionName) :=
  ("-h", help) ::
    [help, .example, outDir, tempo, baseDuration, showFrequencies, logLevel].map fun o =>
      (o.long, o)

/-- The option with a given spelling. -/
def ofSpelling? (s : List Char) : Option OptionName :=
  (spellings.find? fun o => o.1.toList == s).map (·.2)

/-- Does an option need a value? -/
def takesValue : OptionName → Bool
  | outDir | tempo | baseDuration | logLevel => true
  | _ => false

/-- An option as messages name it. -/
def shown : OptionName → String
  | help => "-h/--help"
  | o => o.long

end OptionName

/-- The names of the levels that can be asked for. -/
def levelChoices : List String := ["DEBUG", "INFO", "WARNING", "ERROR"]

/-! ## Errors -/

/-- Why arguments make no sense. -/
inductive UsageError
  /-- An abbreviation fits several options. -/
  | ambiguous (word : String) (matching : List String)
  /-- An option has no value. -/
  | valueMissing (option : OptionName)
  /-- An option that takes no value has one. -/
  | valueIgnored (option : OptionName) (value : String)
  /-- The value of an option is no number. -/
  | notANumber (option : OptionName) (value : String)
  /-- The value of an option is not among its choices. -/
  | notAChoice (option : OptionName) (value : String) (choices : List String)
  /-- Arguments are left over. -/
  | leftOver (words : List String)
  /-- There is no input. -/
  | inputMissing
  /-- A value cannot be used, for the reason given. -/
  | unusable (reason : String)
deriving Repr, DecidableEq

/-- The text of an error. -/
def UsageError.message : UsageError → String
  | ambiguous word matching =>
    "ambiguous option: " ++ word ++ " could match " ++ ", ".intercalate matching
  | valueMissing o => "argument " ++ o.shown ++ ": expected one argument"
  | valueIgnored o v => "argument " ++ o.shown ++ ": ignored explicit argument " ++ Text.quote v
  | notANumber o v => "argument " ++ o.shown ++ ": invalid float value: " ++ Text.quote v
  | notAChoice o v choices =>
    "argument " ++ o.shown ++ ": invalid choice: " ++ Text.quote v ++ " (choose from " ++
      ", ".intercalate (choices.map Text.quote) ++ ")"
  | leftOver words => "unrecognized arguments: " ++ " ".intercalate words
  | inputMissing => "an input file (or '-') is required unless --example is given"
  | unusable reason => reason

/-! ## Words -/

/-- What an argument is. -/
inductive Word
  /-- A word that is no option. -/
  | plain (text : String)
  /-- An option, with a value if one follows an equals sign. -/
  | option (o : OptionName) (value : Option String)
  /-- A word that looks like an option and is none. -/
  | unknown (text : String)
  /-- Two dashes alone. -/
  | endOfOptions
deriving Repr, DecidableEq

/-- Is an option spelt with one dash and one letter? -/
def isShort (spelling : List Char) : Bool := spelling.length == 2

/-- A word up to the first equals sign, and what follows that sign. -/
def splitValue (cs : List Char) : List Char × Option String :=
  match cs.dropWhile (· ≠ '=') with
  | [] => (cs, none)
  | _ :: value => (cs.takeWhile (· ≠ '='), some (String.ofList value))

/-- Does a word look like a negative number: a minus sign and digits, perhaps with a point before
some of them? One line feed may end it. -/
def isNegativeNumber : List Char → Bool
  | '-' :: cs =>
    let atEnd := fun rest : List Char => rest == [] || rest == ['\n']
    match Text.dropDigits cs with
    | '.' :: rest => !(Text.takeDigits rest).isEmpty && atEnd (Text.dropDigits rest)
    | rest => !(Text.takeDigits cs).isEmpty && atEnd rest
  | _ => false

/-- The value after a short option. Further letters of short options may come first; there is only
one such letter. Without anything else after them there is no value. -/
def valueAfterShort : List Char → Option String
  | [] => some ""
  | cs => match cs.dropWhile (· = 'h') with
    | [] => none
    | rest => some (String.ofList rest)

/-- The options of which a word is an abbreviation, with their spellings and the value in the word.
What follows the letter of a short option in the same word belongs to that option. -/
def abbreviated (cs : List Char) : List (String × OptionName × Option String) :=
  match cs with
  | '-' :: '-' :: _ =>
    let (start, value) := splitValue cs
    (OptionName.spellings.filter fun o => start.isPrefixOf o.1.toList).map fun o =>
      (o.1, o.2, value)
  | _ =>
    (OptionName.spellings.filter fun o => o.1.toList == cs.take 2).map fun o =>
      (o.1, o.2, valueAfterShort (cs.drop 2))

/-- What an argument before the end of the options is. -/
def classify (word : String) : Except UsageError Word :=
  let cs := word.toList
  match cs with
  | '-' :: _ :: _ =>
    match OptionName.ofSpelling? cs, splitValue cs with
    | some o, _ => .ok (.option o none)
    | none, (start, some value) => match OptionName.ofSpelling? start with
      | some o =>
        .ok (.option o (if isShort start then valueAfterShort value.toList else some value))
      | none => guess cs
    | none, _ => guess cs
  | _ => .ok (.plain word)
where
  /-- What a word that starts with a dash and spells no option is. -/
  guess (cs : List Char) : Except UsageError Word :=
    match abbreviated cs with
    | [] =>
      if isNegativeNumber cs || cs.contains ' ' then .ok (.plain word) else .ok (.unknown word)
    | [(_, o, value)] => .ok (.option o value)
    | several => .error (.ambiguous word (several.map (·.1)))

/-- What the arguments are. -/
def classifyAll : List String → Except UsageError (List Word)
  | [] => .ok []
  | word :: rest =>
    if word = "--" then .ok (.endOfOptions :: rest.map .plain)
    else do
      let first ← classify word
      let more ← classifyAll rest
      return first :: more

/-! ## Arguments -/

/-- What the arguments say about an option with a value. -/
inductive Given (α : Type)
  /-- The option does not occur. -/
  | absent
  /-- The option occurs without a value: two dashes stand in its place. -/
  | blank
  /-- The option occurs with a value. -/
  | value (a : α)

namespace Given

/-- The value, if there is one. -/
def value? {α : Type} : Given α → Option α
  | value a => some a
  | _ => none

/-- Does the option occur without a value? -/
def isBlank {α : Type} : Given α → Bool
  | blank => true
  | _ => false

/-- Reads what stands as the value of an option. -/
def read {α : Type} (ofText : String → Except UsageError α) (text : String) :
    Except UsageError (Given α) :=
  if text = "--" then .ok blank else (ofText text).map value

end Given

/-- What the command was asked to do. -/
structure Arguments where
  /-- The input file; one dash stands for the standard input. -/
  input : Option String := none
  /-- Was help asked for? -/
  help : Bool := false
  /-- Is the built-in example the input? -/
  useExample : Bool := false
  /-- The directory for the files. -/
  outDir : Given String := .absent
  /-- The tempo. -/
  tempo : Given Float := .absent
  /-- The seconds in a unit of duration. -/
  base : Given Float := .absent
  /-- Is the frequency table printed? -/
  showTable : Bool := false
  /-- The name of the level from which the journal is shown. -/
  level : Given String := .absent

namespace Arguments

/-- A number as the value of an option. -/
def readNumber (o : OptionName) (text : String) : Except UsageError Float :=
  match wholeNumber? text with
  | some x => .ok x
  | none => .error (.notANumber o text)

/-- The name of a level as the value of an option. -/
def readLevel (o : OptionName) (text : String) : Except UsageError String :=
  if text ∈ levelChoices then .ok text else .error (.notAChoice o text levelChoices)

/-- The arguments with the value of an option. -/
def setValue (a : Arguments) (o : OptionName) (text : String) : Except UsageError Arguments :=
  match o with
  | .outDir => do return { a with outDir := ← Given.read .ok text }
  | .tempo => do return { a with tempo := ← Given.read (readNumber o) text }
  | .baseDuration => do return { a with base := ← Given.read (readNumber o) text }
  | .logLevel => do return { a with level := ← Given.read (readLevel o) text }
  | _ => .error (.valueIgnored o text)

/-- The arguments with an option that takes no value. -/
def setFlag (a : Arguments) : OptionName → Arguments
  | .help => { a with help := true }
  | .example => { a with useExample := true }
  | .showFrequencies => { a with showTable := true }
  | _ => a

end Arguments

/-! ## Uses -/

/-- What an argument is used for. -/
inductive Use
  /-- An option without a value. -/
  | flag (o : OptionName)
  /-- An option with its value. -/
  | assign (o : OptionName) (value : String)
  /-- A word that may be the input. -/
  | word (text : String)
  /-- A word for which there is no use. -/
  | extra (text : String)
  /-- Two dashes alone. -/
  | dashes
  /-- Nothing, for the reason given. -/
  | misuse (e : UsageError)
deriving Repr, DecidableEq

/-- Gives every option its value. An option that needs one takes the next word if that is plain. -/
def uses : List Word → List Use
  | [] => []
  | .option o (some v) :: rest =>
    (if o.takesValue then .assign o v else .misuse (.valueIgnored o v)) :: uses rest
  | .option o none :: .plain v :: rest =>
    if o.takesValue then .assign o v :: uses rest else .flag o :: .word v :: uses rest
  | .option o none :: rest =>
    (if o.takesValue then .misuse (.valueMissing o) else .flag o) :: uses rest
  | .plain w :: rest => .word w :: uses rest
  | .unknown w :: rest => .extra w :: uses rest
  | .endOfOptions :: rest => .dashes :: uses rest

/-- What has been read from the first uses. -/
structure Progress where
  /-- The arguments so far. -/
  arguments : Arguments := {}
  /-- The words for which there is no use. -/
  leftOver : List String := []
  /-- Was the input the last thing read? -/
  atInput : Bool := false

namespace Progress

/-- Takes up one use. The first word is the input. Two dashes before it or right after it vanish. -/
def step (p : Progress) : Use → Except UsageError Progress
  | .flag o => .ok { p with arguments := p.arguments.setFlag o, atInput := false }
  | .assign o v => do
    return { p with arguments := ← p.arguments.setValue o v, atInput := false }
  | .word w =>
    if p.arguments.input.isSome then
      .ok { p with leftOver := p.leftOver ++ [w], atInput := false }
    else .ok { p with arguments := { p.arguments with input := some w }, atInput := true }
  | .extra w => .ok { p with leftOver := p.leftOver ++ [w], atInput := false }
  | .dashes =>
    if p.arguments.input.isSome && !p.atInput then
      .ok { p with leftOver := p.leftOver ++ ["--"], atInput := false }
    else .ok { p with atInput := false }
  | .misuse e => .error e

/-- Takes up uses in order. A request for help ends the reading. -/
def run : Progress → List Use → Except UsageError Progress
  | p, [] => .ok p
  | p, u :: us => do
    let p ← p.step u
    if p.arguments.help then return { p with leftOver := [] } else run p us

end Progress

/-- Reads the arguments of the command. -/
def Arguments.ofWords (words : List String) : Except UsageError Arguments := do
  let p ← Progress.run {} (uses (← classifyAll words))
  if p.leftOver.isEmpty then return p.arguments else throw (.leftOver p.leftOver)

end Monochord.CommandLine
