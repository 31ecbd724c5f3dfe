import Monochord.Text.Printable

/-! # Quoted text

Messages show a text that came from outside in quotes, so that blanks and invisible characters can
be seen. The quote is the apostrophe, or the double quote if the text has an apostrophe and no
double quote. The quote and the backslash are escaped by a backslash, line feed, carriage return and
tab by their letters, and any other character that is not printable by its number in two, four or
eight hexadecimal digits.

- **`quote`**: the quoted form of a text. -/

namespace Monochord.Text

/-- The quote that encloses a text. -/
def quoteMark (cs : List Char) : Char :=
  if cs.contains '\'' && !cs.contains '"' then '"' else '\''

/-- A number in lower-case hexadecimal digits, with leading zeros up to a width. -/
def hexDigits (width n : Nat) : List Char :=
  let ds := Nat.toDigits 16 n
  List.replicate (width - ds.length) '0' ++ ds

/-- One character as it stands between quotes of the kind `mark`. -/
def escape (mark c : Char) : List Char :=
  if c = mark || c = '\\' then ['\\', c]
  else if c = '\n' then ['\\', 'n']
  else if c = '\r' then ['\\', 'r']
  else if c = '\t' then ['\\', 't']
  else if isPrintable c then [c]
  else if c.toNat < 0x100 then '\\' :: 'x' :: hexDigits 2 c.toNat
  else if c.toNat < 0x10000 then '\\' :: 'u' :: hexDigits 4 c.toNat
  else '\\' :: 'U' :: hexDigits 8 c.toNat

/-- A text in quotes. -/
def quote (s : String) : String :=
  let cs := s.toList
  let mark := quoteMark cs
  String.ofList (mark :: cs.flatMap (escape mark) ++ [mark])

example : quote "it's" = "\"it's\"" := by decide +kernel

example : quote "a\\b\tc" = "'a\\\\b\\tc'" := by decide +kernel

end Monochord.Text
