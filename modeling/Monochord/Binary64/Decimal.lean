import Monochord.Binary64.Rounding

/-! # Decimal numbers and the doubles they stand for

- **`Decimal`**: a number `digits · 10^exponent`.
- **`Decimal.toFloat`**: the nearest double, infinite if the number is too large.
- **`shortest`**: the decimal with the fewest digits whose nearest double is the given one; of
  several with equally few digits, the one closest to the exact value.
- **`decimalExponent`**: the least `e` with a magnitude below `10^e`. -/

namespace Monochord.Binary64

/-- The number `digits · 10^exponent`. -/
structure Decimal where
  /-- The digits, read as a number. -/
  digits : Nat
  /-- The power of ten by which the digits count. -/
  exponent : Int
deriving Repr, DecidableEq

namespace Decimal

/-! ## Reading -/

/-- The pattern of the double nearest to a decimal. Numbers from `10^400` on are infinite and
numbers below `2^-1099` are zero, which is decided before a large power of ten is computed. -/
def pattern (d : Decimal) : Nat :=
  if d.digits = 0 then 0
  else if 0 ≤ d.exponent then
    if 400 < d.exponent then infinityPattern
    else nearestPattern (d.digits * tenPow d.exponent.toNat) 1
  else if (d.digits.log2 : Int) + 1100 < 3 * -d.exponent then 0
  else nearestPattern d.digits (tenPow (-d.exponent).toNat)

/-- The double nearest to `± d`. -/
def toFloat (negative : Bool) (d : Decimal) : Float := ofPattern negative d.pattern

/-- The same number without the zeros at the end of its digits; the fuel bounds their count. -/
def stripZeros : Nat → Decimal → Decimal
  | 0, d => d
  | fuel + 1, d =>
    if d.digits ≠ 0 && d.digits % 10 == 0 then stripZeros fuel ⟨d.digits / 10, d.exponent + 1⟩
    else d

end Decimal

/-! ## The shortest decimal -/

/-- Is `n / d` below `10^e`? -/
def belowPower (n d : Nat) (e : Int) : Bool :=
  if 0 ≤ e then n < d * tenPow e.toNat else n * tenPow (-e).toNat < d

/-- The least `e` with `n / d < 10^e`, for a positive fraction. The binary logarithm gives an
estimate that is at most two too small. -/
def decimalExponent (n d : Nat) : Int :=
  let e := floorLog n d * 30103 / 100000
  ([e - 1, e, e + 1].find? (belowPower n d)).getD (e + 2)

/-- The integer part of `n / (d · 10^e)`. -/
def floorAt (e : Int) (n d : Nat) : Nat :=
  if 0 ≤ e then n / (d * tenPow e.toNat) else n * tenPow (-e).toNat / d

/-- Is `n / d` nearer to `c + 1` than to `c`, in units of `10^e`, or half-way with `c` odd? -/
def nearerAbove (e : Int) (n d c : Nat) : Bool :=
  let (n', d') := if 0 ≤ e then (n, d * tenPow e.toNat) else (n * tenPow (-e).toNat, d)
  (2 * c + 1) * d' < 2 * n' || ((2 * c + 1) * d' == 2 * n' && c % 2 == 1)

/-- Among the two decimals with `count` digits around a magnitude, the nearer one that has this
pattern. -/
def candidate? (p n d : Nat) (top : Int) (count : Nat) : Option Decimal :=
  let e := top - count
  let c := floorAt e n d
  let below : Decimal := ⟨c, e⟩
  let above : Decimal := ⟨c + 1, e⟩
  let (first, second) := if nearerAbove e n d c then (above, below) else (below, above)
  [first, second].find? fun x => x.pattern == p

/-- The exact decimal of a fraction whose denominator is a power of two. -/
def exactDecimal (n d : Nat) : Decimal := ⟨n * Nat.pow 5 d.log2, -d.log2⟩

/-- The shortest decimal that reads back as the magnitude of a finite double. Seventeen digits are
always enough; the exact value stands behind them. -/
def shortest (x : Float) : Decimal :=
  let p := pattern x
  if p = 0 then ⟨0, 0⟩
  else
    let (n, d) := ratio x
    let top := decimalExponent n d
    let found := (List.range 17).findSome? fun k => candidate? p n d top (k + 1)
    (found.getD (exactDecimal n d)).stripZeros 400

end Monochord.Binary64
