import Monochord.Failure

/-! # Variable-length quantities

A natural number as bytes of seven bits, the most significant group first. Every byte but the last
has its high bit set.

- **`Bytes`**: a sequence of bytes.
- **`Vlq.encode`**: the bytes of a number.
- **`Vlq.encodeInt`**: the same for an integer, which must not be negative. -/

namespace Monochord

/-- A sequence of bytes. -/
abbrev Bytes := List UInt8

namespace Vlq

/-- The bytes that come before the last one: those of `n` in base 128 with their high bits set, none
for zero. -/
def leading (n : Nat) : Bytes :=
  if n = 0 then [] else leading (n / 128) ++ [UInt8.ofNat (128 + n % 128)]
termination_by n
decreasing_by omega

/-- The bytes of a number: `leading` of all groups of seven bits but the last, and the last one as
it is. -/
def encode (n : Nat) : Bytes := leading (n / 128) ++ [UInt8.ofNat (n % 128)]

/-- The bytes of an integer; `n < 0` is refused with `.negativeQuantity`. -/
def encodeInt (n : Int) : Except Failure Bytes :=
  if n < 0 then .error (.negativeQuantity n) else .ok (encode n.toNat)

end Vlq

end Monochord
