import Monochord.Proofs.Binary64.Unsigned
import Monochord.Proofs.Quantity

/-! # Order under arithmetic

Rounding preserves order, and so do the operations on doubles that are not negative. Where the
greater arguments have a finite result, the smaller ones have one too.

* **`AtMost`** — one double that is not negative is no greater than another one.
* **`AtMost.mul`**, **`AtMost.div`** — products, and quotients by the same number.
* **`AtMost.exists_floorHalfUp`** — the nearest integers. -/

namespace Monochord.Binary64

/-! ## Positive doubles -/

/-- `IsUnsigned x` if `0.0 < x`. -/
theorem isUnsigned_of_zero_lt {x : Float} (h : 0.0 < x) : IsUnsigned x := by
  rcases zero_lt_cases h with hfinite | hinfinite
  · exact ⟨isNegative_of_toRat_pos ((toRat_pos hfinite).1 h), (isFinite_iff.1 hfinite).le⟩
  · exact ⟨hinfinite.2, hinfinite.1.le⟩

/-- `toRat x = value (pattern x)` if `IsUnsigned x`. -/
theorem IsUnsigned.toRat_eq {x : Float} (h : IsUnsigned x) : toRat x = value (pattern x) := by
  rw [toRat, h.positive]
  rfl

/-! ## Order -/

/-- `x` and `y` are finite, and `0 ≤ toRat x ≤ toRat y`. -/
structure AtMost (x y : Float) : Prop where
  /-- The smaller one is finite. -/
  left : x.isFinite = true
  /-- The greater one is finite. -/
  right : y.isFinite = true
  /-- The smaller one is not negative. -/
  nonneg : 0 ≤ toRat x
  /-- They are in order. -/
  le : toRat x ≤ toRat y

/-- `AtMost x y` for positive doubles with `x ≤ y`, of which `y` is finite. -/
theorem AtMost.of_le {x y : Float} (hx : 0.0 < x) (hy : 0.0 < y) (hle : x ≤ y)
    (hfinite : y.isFinite = true) : AtMost x y := by
  have hux := isUnsigned_of_zero_lt hx
  have huy := isUnsigned_of_zero_lt hy
  have hpattern := (hux.le_iff huy).1 hle
  refine ⟨isFinite_iff.2 (hpattern.trans_lt (isFinite_iff.1 hfinite)), hfinite, ?_, ?_⟩
  · rw [hux.toRat_eq]
    exact value_nonneg _
  · rw [hux.toRat_eq, huy.toRat_eq]
    exact value_strictMono.monotone hpattern

/-- `AtMost x x` if `0 ≤ toRat x`. -/
theorem AtMost.refl {x : Float} (hx : x.isFinite = true) (h0 : 0 ≤ toRat x) : AtMost x x :=
  ⟨hx, hx, h0, le_refl _⟩

/-- **`AtMost x y` if `0 ≤ r ≤ s`, `Rounds r x` and `Rounds s y`**, and `y` does not overflow. -/
theorem Rounds.atMost {r s : ℚ} {x y : Float} (hx : Rounds r x) (hy : Rounds s y) (hr : 0 ≤ r)
    (hrs : r ≤ s) (hfinite : y.isFinite = true) : AtMost x y := by
  have hbound := hy.isFinite_iff.1 hfinite
  rw [abs_of_nonneg (hr.trans hrs)] at hbound
  have hleft : x.isFinite = true := by
    rw [hx.isFinite_iff, abs_of_nonneg hr]
    exact hrs.trans_lt hbound
  refine ⟨hleft, hfinite, ?_, hx.le hy hleft hfinite hrs⟩
  have hzero := hx.value_le_toRat (t := 0) hleft
  rw [value_zero] at hzero
  exact hzero hr

/-- `AtMost (x * y) (x' * y')` if the greater product is finite. -/
theorem AtMost.mul {x x' y y' : Float} (hx : AtMost x x') (hy : AtMost y y')
    (hfinite : (x' * y').isFinite = true) : AtMost (x * y) (x' * y') :=
  (rounds_mul hx.left hy.left).atMost (rounds_mul hx.right hy.right)
    (mul_nonneg hx.nonneg hy.nonneg) (mul_le_mul hx.le hy.le hy.nonneg (hx.nonneg.trans hx.le))
    hfinite

/-- `AtMost (x / y) (x' / y)` for `0.0 < y`, if the greater quotient is finite. -/
theorem AtMost.div {x x' y : Float} (hx : AtMost x x') (hy : y.isFinite = true) (hpos : 0.0 < y)
    (hfinite : (x' / y).isFinite = true) : AtMost (x / y) (x' / y) := by
  have hrat := (toRat_pos hy).1 hpos
  have hpattern := ((zero_lt_iff (isFinite_iff.1 hy)).1 hpos).2
  exact (rounds_div hx.left hy hpattern).atMost (rounds_div hx.right hy hpattern)
    (div_nonneg hx.nonneg hrat.le) (div_le_div_of_nonneg_right hx.le hrat.le) hfinite

/-- **`floorHalfUp` preserves order** between doubles with `AtMost x y`. -/
theorem AtMost.exists_floorHalfUp {x y : Float} (h : AtMost x y) :
    ∃ n m, floorHalfUp (.float x : Number) = .ok n ∧ floorHalfUp (.float y : Number) = .ok m ∧
      n ≤ m := by
  refine ⟨_, _, floorHalfUp_float_eq_ok_iff.2 ⟨h.left, rfl⟩,
    floorHalfUp_float_eq_ok_iff.2 ⟨h.right, rfl⟩, Int.floor_mono ?_⟩
  have hhalf : (0.5 : Float).isFinite = true := rfl
  exact (rounds_add h.left hhalf).le (rounds_add h.right hhalf) (isFinite_add_half.2 h.left)
    (isFinite_add_half.2 h.right) (by linarith [h.le])

end Monochord.Binary64
