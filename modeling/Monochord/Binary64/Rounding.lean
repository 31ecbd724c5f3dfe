/-! # Binary fractions of 64 bits

A finite double is `± m · 2^q` with `m < 2^53` and `-1074 ≤ q`. Its magnitude is stored as a
*pattern*, a number below `2^63` that grows with the magnitude, so that comparing patterns compares
magnitudes.

- **`mantissa`**, **`scale`**: the `m` and the `q` of a pattern.
- **`nearestPattern`**: the pattern of the double nearest to a fraction, an exact tie going to the
  even mantissa; patterns from `infinityPattern` on mean that the fraction is too large.
- **`ofRatio`**: that double with a sign.
- **`ofInt?`**, **`ofRat?`**: the nearest double, or nothing if the number is too large for one.
- **`ratio`**: the exact magnitude of a finite double.
- **`floor?`**, **`roundEven?`**: the integer below, and the nearest integer with ties to even. -/

namespace Monochord.Binary64

/-! ## Powers -/

/-- The power of two with a natural exponent. -/
def twoPow (n : Nat) : Nat := Nat.pow 2 n

/-- The power of ten with a natural exponent. -/
def tenPow (n : Nat) : Nat := Nat.pow 10 n

/-! ## Patterns -/

/-- The pattern of infinity, `2047 * 2 ^ 52`. Every finite magnitude has a smaller one. -/
def infinityPattern : Nat := 2047 * twoPow 52

/-- The pattern of a double's magnitude: its 64 bits without the highest one. -/
def pattern (x : Float) : Nat := x.toBits.toNat % twoPow 63

/-- Does the double carry a minus sign? Negative zero does. -/
def isNegative (x : Float) : Bool := twoPow 63 ≤ x.toBits.toNat

/-- The double with a given sign and pattern; a pattern above `infinityPattern` gives an infinity.
-/
def ofPattern (negative : Bool) (p : Nat) : Float :=
  Float.ofBits (UInt64.ofNat ((if negative then twoPow 63 else 0) + min p infinityPattern))

/-- The mantissa of a pattern, with the leading one that is not stored. -/
def mantissa (p : Nat) : Nat := if p < twoPow 52 then p else twoPow 52 + p % twoPow 52

/-- The exponent `q` for which a pattern `p` stands for `mantissa p * 2 ^ q`. -/
def scale (p : Nat) : Int := if p < twoPow 52 then -1074 else (p / twoPow 52 : Nat) - 1075

/-! ## Rounding a fraction -/

/-- The integer nearest to `n / d`; of two equally near ones the even one. -/
def roundDiv (n d : Nat) : Nat :=
  let q := n / d
  let r := n % d
  if d < 2 * r || (d == 2 * r && q % 2 == 1) then q + 1 else q

/-- `roundDiv` keeps the multiples of `d` as they are. -/
@[simp] theorem roundDiv_mul (q d : Nat) (h : 0 < d) : roundDiv (q * d) d = q := by
  simp [roundDiv, h]
  omega

/-- Is `d · 2^l ≤ n`? -/
def scaledLe (d : Nat) (l : Int) (n : Nat) : Bool :=
  if 0 ≤ l then d * twoPow l.toNat ≤ n else d ≤ n * twoPow (-l).toNat

/-- The greatest `l` with `2^l ≤ n / d`, for positive `n` and `d`. -/
def floorLog (n d : Nat) : Int :=
  let l : Int := (n.log2 : Int) - d.log2
  if scaledLe d l n then l else l - 1

/-- The power of two that is one unit in the last place near `n / d`. -/
def unitScale (n d : Nat) : Int := max (-1074) (floorLog n d - 52)

/-- The integer nearest to `n / (d · 2^q)`. -/
def roundAt (q : Int) (n d : Nat) : Nat :=
  if 0 ≤ q then roundDiv n (d * twoPow q.toNat) else roundDiv (n * twoPow (-q).toNat) d

/-- The pattern of the double nearest to `n / d`. A mantissa that rounds up to `2^53` carries into
the exponent, which is the next pattern. -/
def nearestPattern (n d : Nat) : Nat :=
  if n = 0 then 0
  else
    let q := unitScale n d
    (q + 1074).toNat * twoPow 52 + roundAt q n d

/-- The double nearest to `± n / d`. -/
def ofRatio (negative : Bool) (n d : Nat) : Float := ofPattern negative (nearestPattern n d)

/-- The double nearest to `± n / d`, unless that is beyond the largest one. -/
def ofRatio? (negative : Bool) (n d : Nat) : Option Float :=
  let p := nearestPattern n d
  if p < infinityPattern then some (ofPattern negative p) else none

/-- The double nearest to an integer; `none` if that is beyond the largest one. -/
def ofInt? (n : Int) : Option Float := ofRatio? (n < 0) n.natAbs 1

/-- The double nearest to a rational number; `none` if that is beyond the largest one. -/
def ofRat? (r : Rat) : Option Float := ofRatio? (r.num < 0) r.num.natAbs r.den

/-! ## Exact values -/

/-- The magnitude `mantissa p * 2 ^ scale p` of a finite double as numerator and denominator. -/
def ratio (x : Float) : Nat × Nat :=
  let p := pattern x
  let q := scale p
  if 0 ≤ q then (mantissa p * twoPow q.toNat, 1) else (mantissa p, twoPow (-q).toNat)

/-- The greatest integer not above the double; `none` for infinities and for what is not a number.
-/
def floor? (x : Float) : Option Int :=
  if x.isFinite then
    let (n, d) := ratio x
    some (if isNegative x then -((n + d - 1) / d : Nat) else (n / d : Nat))
  else none

/-- The nearest integer, a tie going to the even one; none as for `floor?`. -/
def roundEven? (x : Float) : Option Int :=
  if x.isFinite then
    let (n, d) := ratio x
    some (if isNegative x then -(roundDiv n d : Nat) else (roundDiv n d : Nat))
  else none

/-! ## Neighbours -/

/-- The next double towards positive infinity, for a finite double. -/
def nextUp (x : Float) : Float :=
  if pattern x = 0 then ofPattern false 1
  else if isNegative x then ofPattern true (pattern x - 1)
  else ofPattern false (pattern x + 1)

/-- The greatest double not above `t / 2^s`, for a value inside the range of doubles. -/
def ofFixedDown (t : Int) (s : Nat) : Float :=
  let x := ofRatio (t < 0) t.natAbs (twoPow s)
  let (n, d) := ratio x
  let v : Int := if isNegative x then -(n * twoPow s : Nat) else (n * twoPow s : Nat)
  if v ≤ t * d then x
  else if isNegative x then ofPattern true (pattern x + 1)
  else if pattern x = 0 then ofPattern true 1
  else ofPattern false (pattern x - 1)

end Monochord.Binary64
