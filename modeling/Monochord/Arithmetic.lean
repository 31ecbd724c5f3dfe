import Monochord.Failure

/-! # Arithmetic

The formulas of timing and pitch are the same for stored numbers, whose operations round and may
fail, and for rational numbers, where they are exact. They are therefore written once, for any type
with the operations below.

- **`Arithmetic`**: the operations, each of which may fail.
- **`instArithmeticRat`**: exact arithmetic, where only a division by zero fails.
- **`floorHalfUp`**: the nearest integer, a half going up.
- **`isBeyond`**: is a number further from zero than another? -/

namespace Monochord

/-- Numbers with operations that may fail. -/
class Arithmetic (α : Type) where
  /-- An integer that stays one as long as only integers meet. -/
  int : Int → α
  /-- An integer that counts as a real number from the start. -/
  real : Int → α
  /-- One half. -/
  half : α
  /-- The sum. -/
  add : α → α → Except Failure α
  /-- The difference. -/
  sub : α → α → Except Failure α
  /-- The product. -/
  mul : α → α → Except Failure α
  /-- The quotient. -/
  div : α → α → Except Failure α
  /-- The number without its sign. -/
  magnitude : α → α
  /-- Is the first number below the second? -/
  isBelow : α → α → Bool
  /-- The greatest integer that is not above the number. -/
  floor : α → Except Failure Int

/-! ## Exact arithmetic -/

/-- Rational numbers. -/
instance instArithmeticRat : Arithmetic Rat where
  int n := n
  real n := n
  half := 1 / 2
  add a b := .ok (a + b)
  sub a b := .ok (a - b)
  mul a b := .ok (a * b)
  div a b := if b = 0 then .error .divisionByZero else .ok (a / b)
  magnitude a := if a < 0 then -a else a
  isBelow a b := decide (a < b)
  floor a := .ok a.floor

/-! ## Rounding and comparing -/

open Arithmetic

variable {α : Type} [Arithmetic α]

/-- The integer nearest to a number, a half going up: `floor (x + 1 / 2)`. -/
def floorHalfUp (x : α) : Except Failure Int := do floor (← add x half)

/-- Is the magnitude of `x` above `limit`, which is positive? -/
def isBeyond (limit x : α) : Bool := isBelow limit (magnitude x)

/-- `floorHalfUp` never fails in ℚ. -/
theorem floorHalfUp_rat (x : Rat) : floorHalfUp x = .ok (x + 1 / 2).floor := rfl

end Monochord
