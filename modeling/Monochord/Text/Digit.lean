/-! # Decimal digits of every script

A decimal digit is a character of the Unicode category *decimal number*. These come in runs of ten
consecutive characters with the values zero to nine, so the table lists the zero of each run.

- **`digitZeros`**: the characters with value zero.
- **`digit?`**: the value of a decimal digit.
- **`takeDigits`** and **`dropDigits`**: the longest run of digits at the start of a text, as
  values, and what follows it.
- **`ofDigits`**: the number that a list of digit values writes in base ten.
- **`digitLimit`**: how many digits an integer may have to be read or written;
  **`exceedsDigitLimit`** and **`isWritable`** are the two tests. -/

namespace Monochord.Text

/-! ## The class -/

/-- The code points of the decimal digits with value zero, in ascending order. -/
def digitZeros : List Nat :=
  [0x30, 0x660, 0x6F0, 0x7C0, 0x966, 0x9E6, 0xA66, 0xAE6, 0xB66, 0xBE6, 0xC66, 0xCE6, 0xD66, 0xDE6,
    0xE50, 0xED0, 0xF20, 0x1040, 0x1090, 0x17E0, 0x1810, 0x1946, 0x19D0, 0x1A80, 0x1A90, 0x1B50,
    0x1BB0, 0x1C40, 0x1C50, 0xA620, 0xA8D0, 0xA900, 0xA9D0, 0xA9F0, 0xAA50, 0xABF0, 0xFF10, 0x104A0,
    0x10D30, 0x11066, 0x110F0, 0x11136, 0x111D0, 0x112F0, 0x11450, 0x114D0, 0x11650, 0x116C0,
    0x11730, 0x118E0, 0x11950, 0x11C50, 0x11D50, 0x11DA0, 0x16A60, 0x16AC0, 0x16B50, 0x1D7CE,
    0x1D7D8, 0x1D7E2, 0x1D7EC, 0x1D7F6, 0x1E140, 0x1E2F0, 0x1E950, 0x1FBF0]

/-- The value of a decimal digit; no value for any other character. -/
def digit? (c : Char) : Option Nat :=
  (digitZeros.find? fun z => z ≤ c.toNat && c.toNat < z + 10).map fun z => c.toNat - z

/-- Is the character a decimal digit? -/
def isDigit (c : Char) : Bool := (digit? c).isSome

/-- A digit's value is below ten. -/
theorem digit?_lt {c : Char} {d : Nat} (h : digit? c = some d) : d < 10 := by
  simp only [digit?, Option.map_eq_some_iff] at h
  obtain ⟨z, hz, rfl⟩ := h
  have := List.find?_some hz
  simp only [Bool.and_eq_true, decide_eq_true_eq] at this
  omega

/-! ## Runs of digits -/

/-- The values of the longest run of digits at the start of a text. -/
def takeDigits : List Char → List Nat
  | [] => []
  | c :: cs => match digit? c with
    | some d => d :: takeDigits cs
    | none => []

/-- What follows the longest run of digits at the start of a text. -/
def dropDigits : List Char → List Char
  | [] => []
  | c :: cs => match digit? c with
    | some _ => dropDigits cs
    | none => c :: cs

@[simp] theorem takeDigits_nil : takeDigits [] = [] := rfl

@[simp] theorem dropDigits_nil : dropDigits [] = [] := rfl

/-- What follows a run of digits is no longer than the text. -/
theorem length_dropDigits_le (cs : List Char) : (dropDigits cs).length ≤ cs.length := by
  induction cs with
  | nil => simp
  | cons c cs ih =>
    simp only [dropDigits]
    split <;> simp only [List.length_cons] <;> omega

/-! ## Their value -/

/-- The number written by digit values, most significant first. -/
def ofDigits (ds : List Nat) : Nat := ds.foldl (fun n d => 10 * n + d) 0

@[simp] theorem ofDigits_nil : ofDigits [] = 0 := rfl

theorem ofDigits_append_singleton (ds : List Nat) (d : Nat) :
    ofDigits (ds ++ [d]) = 10 * ofDigits ds + d := by
  simp [ofDigits]

/-! ## Long integers -/

/-- The most digits with which an integer is read or written, superfluous zeros included. -/
def digitLimit : Nat := 4300

/-- Does a text hold more digits than an integer may have? -/
def exceedsDigitLimit (cs : List Char) : Bool := digitLimit < cs.countP isDigit

/-- Has the integer `n` at most `digitLimit` decimal digits, so that it can be written? Its sign does
not count. -/
def isWritable (n : Int) : Bool := (Nat.toDigits 10 n.natAbs).length ≤ digitLimit

end Monochord.Text
