import Monochord.Binary64.Decimal

/-! # Doubles as text

Four ways to write a double. All of them write `inf` and `nan` for what has no digits, and a minus
sign for every negative double, negative zero included.

- **`natural`**: the shortest digits that read back, positional from `10^-4` up to `10^16` and
  always with a point there, otherwise with an exponent of at least two digits.
- **`plain`**: the same digits, always positional and with a point only where a fraction follows.
- **`fixed`**: a set number of places after the point.
- **`general`**: six significant digits without trailing zeros, positional from `10^-4` up to
  `10^6`.

The last two round the exact value, a tie going to the even digit. -/

namespace Monochord.Binary64

/-! ## Digits -/

/-- The digits of a number in base ten. -/
def digits (n : Nat) : List Char := Nat.toDigits 10 n

/-- A number of zeros. -/
def zeros (n : Nat) : List Char := List.replicate n '0'

/-- Digits with a point such that `whole` of them stand before it; zeros fill up where there are not
enough. -/
def placePoint (ds : List Char) (whole : Int) : List Char :=
  if whole ≤ 0 then '0' :: '.' :: zeros (-whole).toNat ++ ds
  else if ds.length ≤ whole.toNat then ds ++ zeros (whole.toNat - ds.length)
  else ds.take whole.toNat ++ '.' :: ds.drop whole.toNat

/-- An exponent: its sign and at least two digits. -/
def exponentText (e : Int) : List Char :=
  let ds := digits e.natAbs
  'e' :: (if e < 0 then '-' else '+') :: zeros (2 - ds.length) ++ ds

/-- The first digit, a point if more digits follow, those digits, and the exponent. -/
def scientific (ds : List Char) (e : Int) : List Char :=
  match ds with
  | [] => exponentText e
  | [d] => d :: exponentText e
  | d :: rest => d :: '.' :: rest ++ exponentText e

/-- The sign of a double: a minus if it is negative, otherwise a plus if one is asked for. -/
def signText (plus : Bool) (x : Float) : List Char :=
  if x.isNaN then (if plus then ['+'] else [])
  else if isNegative x then ['-'] else if plus then ['+'] else []

/-- A sign and then the text of the magnitude, which is only asked for if there are digits. -/
def signed (plus : Bool) (x : Float) (magnitude : Unit → List Char) : List Char :=
  signText plus x ++
    if x.isNaN then ['n', 'a', 'n']
    else if x.isFinite then magnitude ()
    else ['i', 'n', 'f']

/-! ## The four forms -/

/-- Shortest digits, positional in the middle range. -/
def natural (x : Float) : String :=
  String.ofList <| signed false x fun _ =>
    let s := shortest x
    let ds := digits s.digits
    let whole := ds.length + s.exponent
    if s.digits = 0 then ['0', '.', '0']
    else if -4 < whole && whole ≤ 16 then
      let body := placePoint ds whole
      if ds.length ≤ whole then body ++ ['.', '0'] else body
    else scientific ds (whole - 1)

/-- Shortest digits, always positional. -/
def plain (x : Float) : String :=
  String.ofList <| signed false x fun _ =>
    let s := shortest x
    let ds := digits s.digits
    if s.digits = 0 then ['0'] else placePoint ds (ds.length + s.exponent)

/-- A set number of places, at least one, after the point. -/
def fixed (places : Nat) (plus : Bool) (x : Float) : List Char :=
  signed plus x fun _ =>
    let (n, d) := ratio x
    let ds := digits (roundDiv (n * tenPow places) d)
    let ds := zeros (places + 1 - ds.length) ++ ds
    placePoint ds (ds.length - places)

/-- A text without the zeros at its end. -/
def dropZeros (ds : List Char) : List Char := (ds.reverse.dropWhile (· == '0')).reverse

/-- A positive fraction rounded to six digits, and the power of ten of the first of them. -/
def sixDigits (n d : Nat) : Nat × Int :=
  let top := decimalExponent n d
  let e := top - 6
  let r := if 0 ≤ e then roundDiv n (d * tenPow e.toNat) else roundDiv (n * tenPow (-e).toNat) d
  if r = tenPow 6 then (tenPow 5, top) else (r, top - 1)

/-- Six significant digits without trailing zeros. -/
def general (x : Float) : List Char :=
  signed false x fun _ =>
    let (n, d) := ratio x
    if n = 0 then ['0']
    else
      let (r, e) := sixDigits n d
      let ds := dropZeros (digits r)
      if -4 ≤ e && e < 6 then placePoint ds (e + 1) else scientific ds e

/-! ## Examples -/

example : natural 0.1 = "0.1" := by decide +kernel

example : natural 1e23 = "1e+23" := by decide +kernel

example : natural 5e-324 = "5e-324" := by decide +kernel

example : plain 1.5e-7 = "0.00000015" := by decide +kernel

example : fixed 2 false 2.675 = "2.67".toList := by decide +kernel

example : general 1234567.0 = "1.23457e+06".toList := by decide +kernel

end Monochord.Binary64
