import Monochord.Smf.Vlq

/-! # A buffer of bytes

Bytes are only ever appended. What is written is encoded first, and the buffer changes only if that
succeeds.

- **`bigEndian`**: a number in a fixed count of bytes.
- **`Item`**: what can be written, with its **`Item.encode`**.
- **`Buffer`**: the bytes written so far, with **`Buffer.write`**. -/

namespace Monochord

/-- The lowest `width` bytes of a number, the most significant first. -/
def bigEndian : Nat → Nat → Bytes
  | 0, _ => []
  | width + 1, n => bigEndian width (n / 256) ++ [UInt8.ofNat (n % 256)]

@[simp] theorem length_bigEndian (width n : Nat) : (bigEndian width n).length = width := by
  induction width generalizing n with
  | zero => rfl
  | succ w ih => simp [bigEndian, ih]

/-- An integer as a field of `width` bytes, which it must fit. -/
def encodeField (width : Nat) (n : Int) : Except Failure Bytes :=
  if 0 ≤ n ∧ n < Nat.pow 256 width then .ok (bigEndian width n.toNat) else .error .fieldOverflow

/-- An integer as one byte, if `0 ≤ n < 256`. -/
def encodeByte (n : Int) : Except Failure UInt8 :=
  if 0 ≤ n ∧ n < 256 then .ok (UInt8.ofNat n.toNat) else .error .undefined

/-- What can be written to a buffer. -/
inductive Item
  /-- Bytes as they are. -/
  | bytes (data : Bytes)
  /-- Integers, each of which becomes a byte. -/
  | integers (ns : List Int)
  /-- An integer in a field of fixed width. -/
  | field (width : Nat) (n : Int)
  /-- A variable-length quantity. -/
  | quantity (n : Int)
deriving Repr, DecidableEq

/-- The bytes of an item. -/
def Item.encode : Item → Except Failure Bytes
  | bytes data => .ok data
  | integers ns => ns.mapM encodeByte
  | field width n => encodeField width n
  | quantity n => Vlq.encodeInt n

/-- The bytes written so far. -/
structure Buffer where
  /-- The bytes, the first one written at the front. -/
  bytes : Bytes := []
deriving Repr, DecidableEq

namespace Buffer

/-- The number of bytes written. -/
def size (b : Buffer) : Nat := b.bytes.length

/-- Writes an item at the end; fails as `item.encode` does. -/
def write (b : Buffer) (item : Item) : Except Failure Buffer :=
  item.encode.map fun data => ⟨b.bytes ++ data⟩

/-- The buffer after `b.write item`, or `b` itself if that fails. -/
def attempt (b : Buffer) (item : Item) : Buffer :=
  match b.write item with
  | .ok b' => b'
  | .error _ => b

end Buffer

end Monochord
