import Mathlib.Data.Multiset.Sort
import Monochord.Proofs.Binary64.Bounds
import Monochord.Proofs.Binary64.Exponential

/-! # Doubles without a minus sign

Zero, the positive finite doubles and infinity are ordered as their patterns are. Different ones have
different patterns, so that some of them can be put in order in one way only.

* **`IsUnsigned`** — these doubles; **`IsUnsigned.le_iff`**: their order.
* **`IsUnsigned.mul`**, **`isUnsigned_of_exp2?`** — products and powers are among them.
* **`mergeSort_eq_of_perm`** — sorting them forgets in which order they came. -/

namespace Monochord.Binary64

open Float.Model

/-- A double that is a number and has no minus sign. -/
structure IsUnsigned (x : Float) : Prop where
  /-- There is no minus sign. -/
  positive : isNegative x = false
  /-- It is a number. -/
  le_infinity : pattern x ≤ infinityPattern

namespace IsUnsigned

variable {x y : Float}

/-! ## Order -/

/-- `ofPattern false (pattern x) = x` if `IsUnsigned x`. -/
theorem ofPattern_pattern (h : IsUnsigned x) : ofPattern false (pattern x) = x := by
  rw [← h.positive]
  exact Binary64.ofPattern_pattern x h.le_infinity

/-- `IsUnsigned x` unpacks to `.zero`, `.finite` or `.infinity` with a positive sign. -/
theorem unpack_cases (h : IsUnsigned x) :
    (pattern x = 0 ∧ x.toModel.unpack = .zero .positive) ∨
      (0 < pattern x ∧ pattern x < infinityPattern ∧ ∃ hm, x.toModel.unpack =
        .finite .positive (mantissa (pattern x)) (scale (pattern x)) hm) ∨
      (pattern x = infinityPattern ∧ x.toModel.unpack = .infinity .positive) := by
  rcases h.le_infinity.lt_or_eq with hlt | heq
  · rcases Nat.eq_zero_or_pos (pattern x) with h0 | h0
    · left
      have hunpack := unpack_eq_zero h0
      rw [h.positive] at hunpack
      exact ⟨h0, hunpack⟩
    · right; left
      have hunpack := unpack_eq_finite hlt h0
      rw [h.positive] at hunpack
      exact ⟨h0, hlt, mantissa_pos h0, hunpack⟩
  · right; right
    exact ⟨heq, IsInfinity.unpack ⟨heq, h.positive⟩⟩

/-- `compare x y` compares the patterns if `x` and `y` are unsigned. -/
theorem compare_eq (hx : IsUnsigned x) (hy : IsUnsigned y) :
    x.toModel.unpack.compare y.toModel.unpack = some (compare (pattern x) (pattern y)) := by
  rcases hx.unpack_cases with ⟨hx0, hx⟩ | ⟨hx0, hxlt, hxm, hx⟩ | ⟨hxinf, hx⟩ <;>
    rcases hy.unpack_cases with ⟨hy0, hy⟩ | ⟨hy0, hylt, hym, hy⟩ | ⟨hyinf, hy⟩ <;> rw [hx, hy]
  · rw [hx0, hy0]
    rfl
  · rw [hx0, compare_lt_iff_lt.2 hy0]
    rfl
  · rw [hx0, hyinf]
    rfl
  · rw [hy0, compare_gt_iff_gt.2 hx0]
    rfl
  · -- both are finite and positive
    exact congrArg some (compare_scale_then (pattern x) (pattern y))
  · rw [hyinf, compare_lt_iff_lt.2 hxlt]
    rfl
  · rw [hxinf, hy0]
    rfl
  · rw [hxinf, compare_gt_iff_gt.2 hylt]
    rfl
  · rw [hxinf, hyinf]
    rfl

/-- **`x ≤ y ↔ pattern x ≤ pattern y` for unsigned doubles.** -/
theorem le_iff (hx : IsUnsigned x) (hy : IsUnsigned y) : x ≤ y ↔ pattern x ≤ pattern y := by
  have hle : x ≤ y ↔ (x.toModel.unpack.compare y.toModel.unpack).any (·.isLE) = true := by
    show decide (x.toModel.le y.toModel = true) = true ↔ _
    rw [decide_eq_true_iff]
    rfl
  rw [hle, hx.compare_eq hy, Option.any_some, Nat.isLE_compare]

/-! ## Arithmetic -/

/-- A packed zero without a minus sign has none. -/
theorem positive_of_pack_zero {z : Float}
    (h : z.toBits.toNat = (UnpackedFloat.pack Format.binary64 (.zero .positive)).toNat) :
    isNegative z = false :=
  (@pattern_isNegative_of_bits z false 0 h).2

/-- **`IsUnsigned (x * y)`** if both factors are unsigned and finite. -/
theorem mul (hx : IsUnsigned x) (hy : IsUnsigned y) (hfx : x.isFinite = true)
    (hfy : y.isFinite = true) : IsUnsigned (x * y) := by
  have hbits := toNat_toBits_mul x y
  obtain ⟨p, -, hpattern⟩ := (rounds_mul hfx hfy).pattern
  refine ⟨?_, hpattern.trans_le (min_le_right _ _)⟩
  rcases hx.unpack_cases with ⟨-, hux⟩ | ⟨hx0, -, _, hux⟩ | ⟨hxinf, -⟩
  · rcases hy.unpack_cases with ⟨-, huy⟩ | ⟨-, -, _, huy⟩ | ⟨hyinf, -⟩
    · rw [hux, huy] at hbits
      exact positive_of_pack_zero hbits
    · rw [hux, huy] at hbits
      exact positive_of_pack_zero hbits
    · exact absurd hfy (IsInfinity.not_finite ⟨hyinf, hy.positive⟩)
  · rcases hy.unpack_cases with ⟨-, huy⟩ | ⟨hy0, -, -, -⟩ | ⟨hyinf, -⟩
    · rw [hux, huy] at hbits
      exact positive_of_pack_zero hbits
    · -- a product of two positive numbers is positive
      refine (rounds_mul hfx hfy).positive (mul_pos ?_ ?_)
      · rw [toRat, hx.positive, if_neg Bool.false_ne_true]
        exact value_pos hx0
      · rw [toRat, hy.positive, if_neg Bool.false_ne_true]
        exact value_pos hy0
    · exact absurd hfy (IsInfinity.not_finite ⟨hyinf, hy.positive⟩)
  · exact absurd hfx (IsInfinity.not_finite ⟨hxinf, hx.positive⟩)

end IsUnsigned

/-- `IsUnsigned y` if `ofRatio? false n d = some y`. -/
theorem isUnsigned_ofRatio? {n d : ℕ} {y : Float} (h : ofRatio? false n d = some y) :
    IsUnsigned y := by
  rw [ofRatio?] at h
  split at h
  · next hlt =>
    obtain rfl := Option.some.inj h
    exact ⟨isNegative_ofPattern false _, (pattern_ofPattern false _).trans_le (min_le_right _ _)⟩
  · exact absurd h (by simp)

/-- **`IsUnsigned y` if `exp2? x = some y`.** -/
theorem isUnsigned_of_exp2? {x y : Float} (hx : x.isFinite = true) (h : exp2? x = some y) :
    IsUnsigned y := by
  rw [exp2?, floor?_eq hx] at h
  dsimp only at h
  split at h
  · exact absurd h (by simp)
  · split at h
    · obtain rfl := Option.some.inj h
      exact ⟨by decide, by decide⟩
    · split at h
      · exact isUnsigned_ofRatio? h
      · exact isUnsigned_ofRatio? h

/-! ## Sorting -/

/-- `mergeSort` of natural numbers does not depend on the order in which they come. -/
theorem mergeSort_nat_eq_of_perm {ns ms : List ℕ} (h : ns.Perm ms) :
    ns.mergeSort (fun n m => decide (n ≤ m)) = ms.mergeSort fun n m => decide (n ≤ m) := by
  rw [← Multiset.coe_sort, ← Multiset.coe_sort, Multiset.coe_eq_coe.2 h]

/-- `mergeSort` of unsigned doubles sorts their patterns. -/
theorem mergeSort_eq_map {xs : List Float} (h : ∀ x ∈ xs, IsUnsigned x) :
    xs.mergeSort (fun x y => decide (x ≤ y)) =
      ((xs.map pattern).mergeSort fun n m => decide (n ≤ m)).map (ofPattern false) := by
  have hsorted : (xs.mergeSort fun x y => decide (x ≤ y)).map pattern =
      (xs.map pattern).mergeSort fun n m => decide (n ≤ m) :=
    List.map_mergeSort fun x hx y hy => decide_eq_decide.2 ((h x hx).le_iff (h y hy))
  rw [← hsorted, List.map_map]
  refine (List.map_id' _).symm.trans (List.map_congr_left fun x hx => ?_)
  exact (h x (List.mem_mergeSort.1 hx)).ofPattern_pattern.symm

/-- **`mergeSort` of unsigned doubles does not depend on the order in which they come.** -/
theorem mergeSort_eq_of_perm {xs ys : List Float} (h : xs.Perm ys)
    (hxs : ∀ x ∈ xs, IsUnsigned x) :
    xs.mergeSort (fun x y => decide (x ≤ y)) = ys.mergeSort fun x y => decide (x ≤ y) := by
  have hys : ∀ y ∈ ys, IsUnsigned y := fun y hy => hxs y (h.mem_iff.2 hy)
  rw [mergeSort_eq_map hxs, mergeSort_eq_map hys, mergeSort_nat_eq_of_perm (h.map pattern)]

end Monochord.Binary64
