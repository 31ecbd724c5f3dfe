import Mathlib.Algebra.Order.Round
import Mathlib.Data.Rat.Floor
import Mathlib.Tactic.Linarith
import Monochord.Arithmetic

/-! # Exact rounding

In exact arithmetic a number is rounded to the nearest integer, a half going up. The error is at most
one half, and the lemmas below say what remains of it in a product.

* **`floorHalfUp_eq_round`** — rounding in exact arithmetic.
* **`le_round_iff`**, **`round_le_iff`** — the bounds of a rounded number.
* **`abs_mul_sub_le`** — the error of a product of two rounded numbers. -/

namespace Monochord

/-- **`floorHalfUp x = .ok (round x)` in ℚ**: the nearest integer, a half going up. -/
theorem floorHalfUp_eq_round (x : ℚ) : floorHalfUp x = .ok (round x) := by
  rw [floorHalfUp_rat, round_eq]
  rfl

/-- `round x ≤ round y` if `x ≤ y`. -/
theorem round_le_round {x y : ℚ} (h : x ≤ y) : round x ≤ round y := by
  rw [round_eq, round_eq]
  exact Int.floor_mono (by linarith)

/-- `n ≤ round x ↔ n - 1 / 2 ≤ x`. -/
theorem le_round_iff {x : ℚ} {n : ℤ} : n ≤ round x ↔ n - 1 / 2 ≤ x := by
  rw [round_eq, Int.le_floor]
  constructor <;> intro h <;> linarith

/-- `round x ≤ n ↔ x < n + 1 / 2`. -/
theorem round_le_iff {x : ℚ} {n : ℤ} : round x ≤ n ↔ x < n + 1 / 2 := by
  rw [round_eq, ← Int.lt_add_one_iff, Int.floor_lt]
  push_cast
  constructor <;> intro h <;> linarith

/-- `0 ≤ round x` if `0 ≤ x`. -/
theorem round_nonneg {x : ℚ} (h : 0 ≤ x) : 0 ≤ round x := by
  rw [le_round_iff]
  push_cast
  linarith

/-- `(round x).toNat = round x` if `0 ≤ x`. -/
theorem natCast_toNat_round {x : ℚ} (h : 0 ≤ x) : (((round x).toNat : ℕ) : ℚ) = (round x : ℚ) := by
  rw [← Int.cast_natCast, Int.toNat_of_nonneg (round_nonneg h)]

/-- The error of the product `u * v` of two rounded numbers. -/
theorem abs_mul_sub_le {x y u v : ℚ} (hx : 0 ≤ x) (hy : 0 ≤ y) (hu : |u - x| ≤ 1 / 2)
    (hv : |v - y| ≤ 1 / 2) : |u * v - x * y| ≤ x / 2 + y / 2 + 1 / 4 := by
  have hsplit : u * v - x * y = (u - x) * (v - y) + (u - x) * y + x * (v - y) := by ring
  have hboth : |(u - x) * (v - y)| ≤ 1 / 2 * (1 / 2) := by
    rw [abs_mul]
    exact mul_le_mul hu hv (abs_nonneg _) (by norm_num)
  have hfirst : |(u - x) * y| ≤ 1 / 2 * y := by
    rw [abs_mul, abs_of_nonneg hy]
    exact mul_le_mul_of_nonneg_right hu hy
  have hsecond : |x * (v - y)| ≤ x * (1 / 2) := by
    rw [abs_mul, abs_of_nonneg hx]
    exact mul_le_mul_of_nonneg_left hv hx
  rw [hsplit]
  calc |(u - x) * (v - y) + (u - x) * y + x * (v - y)|
      ≤ |(u - x) * (v - y)| + |(u - x) * y| + |x * (v - y)| := abs_add_three _ _ _
    _ ≤ 1 / 2 * (1 / 2) + 1 / 2 * y + x * (1 / 2) := add_le_add (add_le_add hboth hfirst) hsecond
    _ = x / 2 + y / 2 + 1 / 4 := by ring

end Monochord
