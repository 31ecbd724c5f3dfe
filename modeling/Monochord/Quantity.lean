import Monochord.Arithmetic
import Monochord.Binary64.Exponential
import Monochord.Binary64.Layout

/-! # Numbers and quantities

A number is an integer of any size or a double. Arithmetic on two integers is exact; as soon as a
double takes part, the other operand is rounded to one first, which fails for an integer beyond the
range. A quotient is always a double, and the quotient of two integers is rounded once.

- **`Number`**: an integer or a double, with **`Number.toFloat`** and **`Number.div`**.
- **`instArithmeticNumber`**: the arithmetic of numbers.
- **`Quantity`**: what a caller gives where a number is asked for: a number, a truth value that
  counts as zero or one, or nothing.
- **`Quantity.number`**: the number that a quantity counts as.
- **`logarithm`**: the binary logarithm of a double that is positive or not a number.
- **`power`**: two to the power of a double. -/

namespace Monochord

open Binary64

/-! ## Numbers -/

/-- An integer or a double. -/
inductive Number
  | int (n : Int)
  | float (x : Float)

namespace Number

/-- The double nearest to a number; an integer beyond the largest one fails with `.overflow`. -/
def toFloat : Number → Except Failure Float
  | int n => match ofInt? n with
    | some x => .ok x
    | none => .error .overflow
  | float x => .ok x

/-- An operation that is exact on two integers and otherwise works on doubles. -/
def combine (exact : Int → Int → Int) (rounded : Float → Float → Float) :
    Number → Number → Except Failure Number
  | int a, int b => .ok (int (exact a b))
  | a, b => do
    let x ← a.toFloat
    let y ← b.toFloat
    return float (rounded x y)

/-- The quotient, as a double. Zero as a divisor fails with `.divisionByZero`; the operands are
rounded before it is noticed, unless both are integers. -/
def div : Number → Number → Except Failure Float
  | int a, int b =>
    if b = 0 then .error .divisionByZero
    else match ofRat? (mkRat (a * b.sign) b.natAbs) with
      | some x => .ok x
      | none => .error .overflow
  | a, b => do
    let x ← a.toFloat
    let y ← b.toFloat
    if y == 0.0 then .error .divisionByZero else .ok (x / y)

/-- The number without its sign. -/
def magnitude : Number → Number
  | int n => int n.natAbs
  | float x => float x.abs

/-- Is the first number below the second? Two integers are compared exactly, a double with an
integer by the nearest double. -/
def isBelow : Number → Number → Bool
  | int a, int b => a < b
  | a, b => match a.toFloat, b.toFloat with
    | .ok x, .ok y => x < y
    | _, _ => false

/-- An integer part that may fail to exist: `.undefined` for what is not a number, and `.overflow`
for an infinity. -/
def integerOr (x : Float) (part : Option Int) : Except Failure Int :=
  match part with
  | some n => .ok n
  | none => .error (if x.isNaN then .undefined else .overflow)

/-- The greatest integer that is not above the number. -/
def floor : Number → Except Failure Int
  | int n => .ok n
  | float x => integerOr x (floor? x)

/-- Is the number above zero? -/
def isPositive : Number → Bool
  | int n => 0 < n
  | float x => 0.0 < x

/-- Is the number finite? An integer beyond the range of doubles has no answer: `a.toFloat` fails.
-/
def isFinite (a : Number) : Except Failure Bool := return (← a.toFloat).isFinite

/-- The shortest text of a number. -/
def text : Number → String
  | int n => toString n
  | float x => natural x

end Number

/-- The arithmetic of numbers. -/
instance instArithmeticNumber : Arithmetic Number where
  int := .int
  real n := .float (Float.ofInt n)
  half := .float 0.5
  add := Number.combine (· + ·) (· + ·)
  sub := Number.combine (· - ·) (· - ·)
  mul := Number.combine (· * ·) (· * ·)
  div a b := (a.div b).map .float
  magnitude := Number.magnitude
  isBelow := Number.isBelow
  floor := Number.floor

/-! ## Quantities -/

/-- What a caller gives where a number is asked for. -/
inductive Quantity
  /-- Nothing. -/
  | absent
  /-- A truth value. -/
  | truth (b : Bool)
  /-- An integer. -/
  | int (n : Int)
  /-- A double. -/
  | float (x : Float)

namespace Quantity

/-- The number that a quantity counts as: `.truth true` is 1, and `.absent` is none. -/
def number : Quantity → Except Failure Number
  | absent => .error .wrongType
  | truth b => .ok (.int (if b then 1 else 0))
  | int n => .ok (.int n)
  | float x => .ok (.float x)

/-- The product of two quantities. -/
def mul (a b : Quantity) : Except Failure Number := do
  let x ← a.number
  let y ← b.number
  Arithmetic.mul x y

/-- The quotient of two quantities. -/
def div (a b : Quantity) : Except Failure Float := do
  let x ← a.number
  let y ← b.number
  x.div y

/-- A quantity as messages show it. -/
def text : Quantity → String
  | absent => "None"
  | truth b => if b then "True" else "False"
  | int n => toString n
  | float x => natural x

end Quantity

/-- A number as a quantity. -/
def Number.quantity : Number → Quantity
  | int n => .int n
  | float x => .float x

/-! ## Functions of doubles -/

/-- The binary logarithm. It is infinite for infinity, is not a number for what is none, and is
`.undefined` for a double that is not positive. -/
def logarithm (x : Float) : Except Failure Float :=
  if x.isNaN then .ok x
  else if 0.0 < x then .ok (if x.isFinite then log2 x else x)
  else .error .undefined

/-- Two to the power of a double; `.overflow` beyond the largest one. -/
def power (x : Float) : Except Failure Float :=
  match exp2? x with
  | some y => .ok y
  | none => .error .overflow

/-- The integer nearest to a double, a half going to the even neighbour. -/
def roundHalfEven (x : Float) : Except Failure Int := Number.integerOr x (roundEven? x)

end Monochord
