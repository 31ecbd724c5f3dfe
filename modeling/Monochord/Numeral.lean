import Monochord.Text.Blank
import Monochord.Text.Digit
import Monochord.Binary64.Decimal

/-! # Numerals

A numeral is an optional sign, digits with an optional point among or around them, and an optional
exponent: `440`, `.5`, `1.`, `-2.5e-3`. The digits may belong to any script and count by their
value.

- **`Numeral.read?`**: the longest numeral at the start of a text, and the rest.
- **`leadingNumber?`**: the double nearest to the numeral with which a text starts, after blanks.
- **`wholeNumber?`**: the double that a whole text denotes. Here spaces may surround the numeral, an
  underscore may stand between two digits, and `inf`, `infinity` and `nan` are numbers too. -/

namespace Monochord

open Text Binary64

/-- The parts of a numeral. -/
structure Numeral where
  /-- Is there a minus sign? -/
  negative : Bool
  /-- The digits before the point. -/
  whole : List Nat
  /-- The digits after the point. -/
  fraction : List Nat
  /-- The power of ten after the letter `e`; zero if there is none. -/
  exponent : Int
deriving Repr, DecidableEq

namespace Numeral

/-! ## Reading -/

/-- An optional sign: is it a minus, and what follows? -/
def readSign : List Char → Bool × List Char
  | '-' :: cs => (true, cs)
  | '+' :: cs => (false, cs)
  | cs => (false, cs)

/-- The digits before and after an optional point, of which one side must not be empty. -/
def readMantissa? (cs : List Char) : Option (List Nat × List Nat × List Char) :=
  match takeDigits cs, dropDigits cs with
  | [], '.' :: rest =>
    if takeDigits rest = [] then none else some ([], takeDigits rest, dropDigits rest)
  | [], _ => none
  | whole, '.' :: rest => some (whole, takeDigits rest, dropDigits rest)
  | whole, rest => some (whole, [], rest)

/-- The exponent, if the text continues with one. A letter without digits after it is no exponent
and stays in the text. -/
def readExponent (cs : List Char) : Int × List Char :=
  match cs with
  | [] => (0, [])
  | c :: rest =>
    if c = 'e' || c = 'E' then
      let (negative, rest) := readSign rest
      match takeDigits rest with
      | [] => (0, cs)
      | ds => (if negative then -(ofDigits ds : Int) else ofDigits ds, dropDigits rest)
    else (0, cs)

/-- The longest numeral at the start of a text, and what follows it. -/
def read? (cs : List Char) : Option (Numeral × List Char) :=
  let (negative, cs) := readSign cs
  (readMantissa? cs).map fun (whole, fraction, cs) =>
    let (exponent, cs) := readExponent cs
    (⟨negative, whole, fraction, exponent⟩, cs)

/-! ## Value -/

/-- The magnitude of a numeral. -/
def decimal (n : Numeral) : Decimal :=
  ⟨ofDigits (n.whole ++ n.fraction), n.exponent - n.fraction.length⟩

/-- The double nearest to a numeral. -/
def toFloat (n : Numeral) : Float := n.decimal.toFloat n.negative

end Numeral

/-- The double nearest to the numeral at the start of a text. Blanks before it are skipped and
whatever follows it is ignored. -/
def leadingNumber? (s : String) : Option Float :=
  (Numeral.read? (dropBlanks s.toList)).map fun p => p.1.toFloat

/-! ## Whole texts -/

/-- The blanks that may surround a number: all but the four control-character separators. -/
def isSpacing (c : Char) : Bool := isBlank c && !(0x1C ≤ c.toNat && c.toNat ≤ 0x1F)

/-- A text without the spacing at its two ends. -/
def dropSpacing (cs : List Char) : List Char :=
  ((cs.dropWhile isSpacing).reverse.dropWhile isSpacing).reverse

/-- Takes the underscores out of a text; fails if one does not stand between two digits. The flag
says whether a digit stands before the text. -/
def joinGroups? : Bool → List Char → Option (List Char)
  | _, [] => some []
  | afterDigit, c :: cs =>
    if c = '_' then
      if afterDigit && (cs.head?.any isDigit) then joinGroups? false cs else none
    else (joinGroups? (isDigit c) cs).map (c :: ·)

/-- An ASCII letter in lower case; any other character unchanged. -/
def lower (c : Char) : Char := if 'A' ≤ c ∧ c ≤ 'Z' then Char.ofNat (c.toNat + 32) else c

/-- The number that a word stands for, in any mix of cases. -/
def ofWord? (cs : List Char) : Option Float :=
  let (negative, word) := Numeral.readSign cs
  let word := String.ofList (word.map lower)
  if word = "inf" || word = "infinity" then some (ofPattern negative infinityPattern)
  else if word = "nan" then some (0.0 / 0.0)
  else none

/-- The double that a text without underscores denotes as a whole. -/
def wholePlain? (cs : List Char) : Option Float :=
  match Numeral.read? cs with
  | some (n, []) => some n.toFloat
  | _ => ofWord? cs

/-- The double that a text denotes as a whole. -/
def wholeNumber? (s : String) : Option Float :=
  (joinGroups? false (dropSpacing s.toList)).bind wholePlain?

/-! ## Examples -/

example : leadingNumber? "1.2.3" = some 1.2 := by decide +kernel

example : leadingNumber? "Hz440" = none := by decide +kernel

example : wholeNumber? " 1_0.0_1 " = some 10.01 := by decide +kernel

end Monochord
