/-! # Blank characters

White space as chord text and numerals understand it: every character with the Unicode white-space
property, and the four separators from U+001C to U+001F. A zero-width space and a byte-order mark
are not blank.

- **`isBlank`**: is this character white space?
- **`trim`**: a text without the blanks at its two ends.
- **`dropBlanks`**: a text without the blanks at its start. -/

namespace Monochord.Text

/-! ## The class -/

/-- A character is blank if it is a control-character separator, the ordinary or the no-break space,
one of the typographic spaces, or a line or paragraph separator. -/
def isBlank (c : Char) : Bool :=
  let n := c.toNat
  (0x9 ≤ n && n ≤ 0xD) || (0x1C ≤ n && n ≤ 0x20) || n == 0x85 || n == 0xA0 || n == 0x1680 ||
    (0x2000 ≤ n && n ≤ 0x200A) || n == 0x2028 || n == 0x2029 || n == 0x202F || n == 0x205F ||
    n == 0x3000

/-! ## Trimming -/

/-- The text from its first character that is not blank. -/
def dropBlanks (cs : List Char) : List Char := cs.dropWhile isBlank

/-- The text up to its last character that is not blank. -/
def dropTrailingBlanks (cs : List Char) : List Char := (dropBlanks cs.reverse).reverse

/-- The text without the blanks at its two ends. -/
def trim (cs : List Char) : List Char := dropTrailingBlanks (dropBlanks cs)

@[simp] theorem dropBlanks_nil : dropBlanks [] = [] := rfl

theorem dropBlanks_cons (c : Char) (cs : List Char) :
    dropBlanks (c :: cs) = if isBlank c then dropBlanks cs else c :: cs := by
  by_cases h : isBlank c <;> simp [dropBlanks, h]

@[simp] theorem trim_nil : trim [] = [] := rfl

/-- `trim` on a string. -/
def trimmed (s : String) : String := String.ofList (trim s.toList)

end Monochord.Text
