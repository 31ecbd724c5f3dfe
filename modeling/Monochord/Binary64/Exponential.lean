import Monochord.Binary64.Rounding

/-! # Powers and logarithms to the base two

Both are computed on fixed-point numbers with far more bits than a double has.

- **`squareRoot`**: the integer part of a square root.
- **`exp2?`**: the double nearest to `2^x`; none if that is beyond the largest double. The fraction
  of `x` has finitely many binary places, so `2^x` comes from repeated square roots.
- **`log2Fixed`**: the binary logarithm of a positive double, cut off after `log2Places` binary
  places. Each place comes from squaring.
- **`log2Bracket`**: the two doubles next to the exact logarithm.
- **`log2`**: one of these two, the one that the platform's own logarithm chooses. -/

namespace Monochord.Binary64

/-! ## Square roots -/

/-- Improves an upper estimate of the square root of `n` until it no longer falls. -/
def improveRoot (n : Nat) : Nat → Nat → Nat
  | 0, g => g
  | fuel + 1, g =>
    let next := (g + n / g) / 2
    if next < g then improveRoot n fuel next else g

/-- The integer part of the square root of `n`. The estimate at the start is a power of two above
the root, and its error at least halves in every step. -/
def squareRoot (n : Nat) : Nat :=
  if n = 0 then 0 else improveRoot n (n.log2 + 2) (twoPow (n.log2 / 2 + 1))

/-! ## Powers of two -/

/-- The binary places of the fixed-point numbers here. -/
def workingPlaces : Nat := 256

/-- The fixed-point value of `2^(f / 2^places)`, for `f < 2^places`. With `b` the first binary place
of the fraction and `r` the rest, the power is the square root of `2^b · 2^r`. -/
def powerOfFraction : Nat → Nat → Nat
  | 0, _ => twoPow workingPlaces
  | places + 1, f =>
    let bit := twoPow (f / twoPow places)
    squareRoot (bit * powerOfFraction places (f % twoPow places) * twoPow workingPlaces)

/-- The double nearest to `2^x`, or nothing if `x` is finite and the power is too large. Powers
below `2^-1100` are zero. -/
def exp2? (x : Float) : Option Float :=
  match floor? x with
  | none => some (if x.isNaN then x else if isNegative x then 0.0 else x)
  | some whole =>
    if 1024 ≤ whole then none
    else if whole < -1100 then some 0.0
    else
      let places := (-(scale (pattern x))).toNat
      let shifted : Int := if isNegative x then -(mantissa (pattern x)) else mantissa (pattern x)
      let f := if 0 ≤ scale (pattern x) then 0 else (shifted - whole * twoPow places).toNat
      let y := powerOfFraction places f
      if 0 ≤ whole then ofRatio? false (y * twoPow whole.toNat) (twoPow workingPlaces)
      else ofRatio? false y (twoPow (workingPlaces + (-whole).toNat))

/-! ## Logarithms -/

/-- The binary places after which a logarithm is cut off. -/
def log2Places : Nat := 192

/-- Appends `places` binary places of the logarithm of `y`, a fixed-point number from one up to two,
to the places already known. Squaring doubles the logarithm and so brings its next place to the
front. -/
def logPlaces : Nat → Nat → Nat → Nat
  | 0, _, known => known
  | places + 1, y, known =>
    let z := y * y / twoPow workingPlaces
    if twoPow (workingPlaces + 1) ≤ z then logPlaces places (z / 2) (2 * known + 1)
    else logPlaces places z (2 * known)

/-- The positive fraction `n / d` divided by `2^l`, as a fixed-point number. -/
def scaledDown (n d : Nat) (l : Int) : Nat :=
  if 0 ≤ l then n * twoPow workingPlaces / (d * twoPow l.toNat)
  else n * twoPow (-l).toNat * twoPow workingPlaces / d

/-- The binary logarithm of a positive fraction in units of `2^-log2Places`, rounded down. -/
def log2Fixed (n d : Nat) : Int :=
  let l := floorLog n d
  l * twoPow log2Places + logPlaces log2Places (scaledDown n d l) 0

/-- The greatest double not above the logarithm of a positive finite double, and the next one; twice
the same double where the logarithm is an integer. -/
def log2Bracket (x : Float) : Float × Float :=
  let (n, d) := ratio x
  let t := log2Fixed n d
  let low := ofFixedDown t log2Places
  if n == d * twoPow (floorLog n d).toNat || d == n * twoPow (-floorLog n d).toNat then (low, low)
  else (low, nextUp low)

/-- The binary logarithm of a positive finite double: of the two doubles around the exact value, the
one on which the platform settles. -/
def log2 (x : Float) : Float :=
  let b := log2Bracket x
  if b.1 == b.2 then b.1 else if x.log2 == b.2 then b.2 else b.1

/-- The logarithm is one of the two doubles around the exact value. -/
theorem log2_mem_bracket (x : Float) :
    log2 x = (log2Bracket x).1 ∨ log2 x = (log2Bracket x).2 := by
  simp only [log2]
  split
  · exact .inl rfl
  · split
    · exact .inr rfl
    · exact .inl rfl

/-! ## Examples -/

example : exp2? 0.5 = some 1.4142135623730951 := by decide +kernel

example : exp2? 1024.0 = none := by decide +kernel

example : log2 0.125 = -3.0 := by decide +kernel

end Monochord.Binary64
