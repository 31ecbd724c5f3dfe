import Monochord.Proofs.Binary64.Bits

/-! # Rounding a located number

The language rounds the result of an operation from a mantissa, an exponent and the place of the
exact number between this mantissa and the next one. Here this is shown to be the same rounding that
`Monochord.Binary64` computes from a fraction.

* **`Locates`** — where a number lies between a mantissa and the next one.
* **`locates_shiftRightOne`**, **`locates_shiftRight`** — dropping binary places keeps the number
  located.
* **`isNearest_of_locates`** — the rounded mantissa is nearest to the number.
* **`targetExponent_eq_unit`** — the exponent to which a mantissa is shifted is that of one unit in
  the last place.
* **`toNat_pack_roundWithAccuracy`** — the rounded number has the pattern of the exact one. -/

namespace Monochord.Binary64

open Float.Model (Format UnpackedFloat totalExponent)

open Float.Model.UnpackedFloat (Accuracy ExtendedMantissa roundWithAccuracy shiftToExponent
  shiftToTargetExponent accuracyOfFraction)

/-! ## Places between two mantissas -/

/-- A number lies at a mantissa, or before, at or after the half between it and the next one. -/
def Locates (m : ℕ) : Accuracy → ℚ → Prop
  | .exact, x => x = m
  | .inexact .lt, x => (m : ℚ) < x ∧ x < m + 1 / 2
  | .inexact .eq, x => x = m + 1 / 2
  | .inexact .gt, x => (m : ℚ) + 1 / 2 < x ∧ x < m + 1

/-- `m ≤ x < m + 1` if `Locates m a x`. -/
theorem Locates.bounds {m : ℕ} {a : Accuracy} {x : ℚ} (h : Locates m a x) :
    (m : ℚ) ≤ x ∧ x < m + 1 := by
  match a, h with
  | .exact, h =>
    rw [show x = m from h]
    exact ⟨le_rfl, lt_add_one _⟩
  | .inexact .lt, h => exact ⟨h.1.le, by linarith [h.2]⟩
  | .inexact .eq, h =>
    rw [show x = m + 1 / 2 from h]
    constructor <;> linarith
  | .inexact .gt, h => exact ⟨by linarith [h.1], h.2⟩

/-- `ofMantissaAndAccuracy m a` locates what `m` and `a` locate. -/
theorem locates_ofMantissaAndAccuracy {m : ℕ} {a : Accuracy} {x : ℚ} (h : Locates m a x) :
    Locates (ExtendedMantissa.ofMantissaAndAccuracy m a).mantissa
      (ExtendedMantissa.ofMantissaAndAccuracy m a).accuracy x := by
  match a, h with
  | .exact, h => exact h
  | .inexact .lt, h => exact h
  | .inexact .eq, h => exact h
  | .inexact .gt, h => exact h

/-- **`shiftRightOne` locates `x / 2`.** -/
theorem locates_shiftRightOne {em : ExtendedMantissa} {x : ℚ}
    (h : Locates em.mantissa em.accuracy x) :
    Locates em.shiftRightOne.mantissa em.shiftRightOne.accuracy (x / 2) := by
  obtain ⟨m, r, s⟩ := em
  -- the dropped place becomes the first residual bit
  obtain ⟨k, rfl | rfl⟩ := Nat.even_or_odd' m
  · have hdiv : 2 * k / 2 = k := by omega
    have hmod : (2 * k % 2 != 0) = false := by simp
    have hcast : ((2 * k : ℕ) : ℚ) = 2 * k := by push_cast; rfl
    cases r <;> cases s <;>
      simp only [ExtendedMantissa.accuracy, ExtendedMantissa.shiftRightOne, Locates, hdiv, hmod,
        hcast, Bool.or_false, Bool.or_true] at h ⊢ <;>
      first | linarith | (constructor <;> linarith)
  · have hdiv : (2 * k + 1) / 2 = k := by omega
    have hmod : ((2 * k + 1) % 2 != 0) = true := by simp
    have hcast : ((2 * k + 1 : ℕ) : ℚ) = 2 * k + 1 := by push_cast; rfl
    cases r <;> cases s <;>
      simp only [ExtendedMantissa.accuracy, ExtendedMantissa.shiftRightOne, Locates, hdiv, hmod,
        hcast, Bool.or_false, Bool.or_true] at h ⊢ <;>
      first | linarith | (constructor <;> linarith)

/-- **`em >>> n` locates `x / 2 ^ n`.** -/
theorem locates_shiftRight {em : ExtendedMantissa} {x : ℚ} (h : Locates em.mantissa em.accuracy x)
    (n : ℕ) : Locates (em >>> n).mantissa (em >>> n).accuracy (x / 2 ^ n) := by
  induction n with
  | zero =>
    rw [pow_zero, div_one]
    exact h
  | succ n ih =>
    -- shifting by one more place is one more step at the end
    rw [pow_succ, ← div_div]
    exact locates_shiftRightOne ih

/-- **`a.roundToNearestEven m` is nearest to a number `x` with `Locates m a x`.** -/
theorem isNearest_of_locates {m : ℕ} {a : Accuracy} {x : ℚ} (h : Locates m a x) :
    IsNearest x (a.roundToNearestEven m) := by
  match a, h with
  | .exact, h =>
    rw [show x = m from h]
    exact isNearest_natCast m
  | .inexact .lt, ⟨hlow, hhigh⟩ =>
    refine ⟨?_, ?_, ?_⟩
    · show (m : ℚ) - 1 / 2 ≤ x
      linarith
    · exact hhigh.le
    · rintro (heq | heq)
      · change x = m - 1 / 2 at heq
        linarith
      · change x = m + 1 / 2 at heq
        linarith
  | .inexact .eq, h =>
    have hx : x = m + 1 / 2 := h
    -- half-way the mantissa is kept if it is even, and is raised if it is odd
    rcases Nat.even_or_odd' m with ⟨k, hk | hk⟩
    · have hround : Accuracy.roundToNearestEven m (.inexact .eq) = m := by
        show m + m % 2 = m
        omega
      rw [hround]
      exact ⟨by linarith, by linarith, fun _ => by omega⟩
    · have hround : Accuracy.roundToNearestEven m (.inexact .eq) = m + 1 := by
        show m + m % 2 = m + 1
        omega
      rw [hround]
      refine ⟨?_, ?_, fun _ => by omega⟩
      · push_cast
        linarith
      · push_cast
        linarith
  | .inexact .gt, ⟨hlow, hhigh⟩ =>
    have hround : Accuracy.roundToNearestEven m (.inexact .gt) = m + 1 := rfl
    rw [hround]
    refine ⟨?_, ?_, ?_⟩
    · push_cast
      linarith
    · push_cast
      linarith
    · push_cast
      rintro (heq | heq) <;> linarith

/-- `n / d` with the accuracy of the remainder `n % d` locates the fraction. -/
theorem locates_accuracyOfFraction (n : ℕ) {d : ℕ} (hd : 0 < d) :
    Locates (n / d) (accuracyOfFraction (n % d) d) ((n : ℚ) / d) := by
  have hd' : (0 : ℚ) < d := by exact_mod_cast hd
  have hsplit : (n : ℚ) / d = (n / d : ℕ) + ((n % d : ℕ) : ℚ) / d := by
    have hdivmod : (d : ℚ) * (n / d : ℕ) + (n % d : ℕ) = n := by exact_mod_cast Nat.div_add_mod n d
    field_simp
    linarith
  have hr : ((n % d : ℕ) : ℚ) / d < 1 := by
    rw [div_lt_one hd']
    exact_mod_cast Nat.mod_lt n hd
  rw [accuracyOfFraction]
  split
  · next hzero =>
    rw [hzero, Nat.cast_zero, zero_div, add_zero] at hsplit
    exact hsplit
  · next hpos =>
    have hpos' : (0 : ℚ) < ((n % d : ℕ) : ℚ) / d := by
      have : (0 : ℚ) < (n % d : ℕ) := by exact_mod_cast Nat.pos_of_ne_zero hpos
      positivity
    rw [hsplit]
    -- the remainder is compared with half of the divisor
    rcases hcompare : compare (2 * (n % d)) d with _ | _ | _
    · have hlt : ((n % d : ℕ) : ℚ) / d < 1 / 2 := by
        rw [div_lt_div_iff₀ hd' two_pos]
        exact_mod_cast by rw [Nat.compare_eq_lt] at hcompare; omega
      exact ⟨by linarith, by linarith⟩
    · have heq : ((n % d : ℕ) : ℚ) / d = 1 / 2 := by
        rw [div_eq_div_iff hd'.ne' two_ne_zero]
        exact_mod_cast by rw [Nat.compare_eq_eq] at hcompare; omega
      exact congrArg (((n / d : ℕ) : ℚ) + ·) heq
    · have hgt : 1 / 2 < ((n % d : ℕ) : ℚ) / d := by
        rw [div_lt_div_iff₀ two_pos hd']
        exact_mod_cast by rw [Nat.compare_eq_gt] at hcompare; omega
      exact ⟨by linarith, by linarith⟩

/-! ## Exponents -/

/-- The exponent of a number with `t` binary places before the point. -/
theorem targetExponent_eq (t : ℤ) : Format.binary64.targetExponent t = max (t - 53) (-1074) := rfl

/-- `Int.log 2 r = m.log2 + e` if `Locates m a (r / 2 ^ e)` and `0 < m`. -/
theorem log_eq_of_locates {m : ℕ} {a : Accuracy} {r : ℚ} {e : ℤ} (h : Locates m a (r / 2 ^ e))
    (hm : 0 < m) : 0 < r ∧ Int.log 2 r = m.log2 + e := by
  obtain ⟨hlow, hhigh⟩ := h.bounds
  have he : (0 : ℚ) < 2 ^ e := by positivity
  have hm' : (0 : ℚ) < m := by exact_mod_cast hm
  rw [le_div_iff₀ he] at hlow
  rw [div_lt_iff₀ he] at hhigh
  have hr : 0 < r := (mul_pos hm' he).trans_le hlow
  refine ⟨hr, log_eq_of_zpow_le hr ?_ ?_⟩
  · rw [zpow_add₀ two_ne_zero, zpow_natCast]
    refine le_trans ?_ hlow
    gcongr
    exact_mod_cast Nat.log2_self_le hm.ne'
  · rw [show (m.log2 : ℤ) + e + 1 = ((m.log2 + 1 : ℕ) : ℤ) + e by push_cast; ring,
      zpow_add₀ two_ne_zero, zpow_natCast]
    refine hhigh.trans_le ?_
    gcongr
    exact_mod_cast Nat.lt_log2_self

/-- `targetExponent` of `m` and `e` is `unit r` if `0 < m`. -/
theorem targetExponent_eq_unit_of_pos {m : ℕ} {a : Accuracy} {r : ℚ} {e : ℤ}
    (h : Locates m a (r / 2 ^ e)) (hm : 0 < m) :
    Format.binary64.targetExponent (totalExponent m e) = unit r := by
  obtain ⟨hr, hlog⟩ := log_eq_of_locates h hm
  rw [targetExponent_eq, totalExponent, unit, if_neg hr.ne', hlog]
  omega

/-- **`targetExponent` of `m` and `e` is `unit r`** if `e ≤ unit r`. -/
theorem targetExponent_eq_unit {m : ℕ} {a : Accuracy} {r : ℚ} {e : ℤ}
    (h : Locates m a (r / 2 ^ e)) (he : e ≤ unit r) :
    Format.binary64.targetExponent (totalExponent m e) = unit r := by
  rcases Nat.eq_zero_or_pos m with rfl | hm
  · -- a number below its own exponent counts the smallest units
    have hunit : unit r = -1074 := by
      rw [unit] at he ⊢
      split
      · rfl
      · next hr =>
        rw [if_neg hr] at he
        obtain ⟨hlow, hhigh⟩ := h.bounds
        have hpow : (0 : ℚ) < 2 ^ e := by positivity
        rw [Nat.cast_zero, le_div_iff₀ hpow, zero_mul] at hlow
        rw [Nat.cast_zero, zero_add, div_lt_one hpow] at hhigh
        have hlog : Int.log 2 r < e :=
          (Int.lt_zpow_iff_log_lt (R := ℚ) one_lt_two (hlow.lt_of_ne' hr)).1
            (by exact_mod_cast hhigh)
        omega
    rw [targetExponent_eq, totalExponent, hunit, Nat.log2_zero]
    omega
  · exact targetExponent_eq_unit_of_pos h hm

/-! ## Rounding -/

/-- `shiftToTargetExponent` goes to `unit r` and keeps `r` located, if `e ≤ unit r`. -/
theorem locates_shiftToTargetExponent {m : ℕ} {a : Accuracy} {r : ℚ} {e : ℤ}
    (h : Locates m a (r / 2 ^ e)) (he : e ≤ unit r) :
    Locates (shiftToTargetExponent Format.binary64 m e a).1.mantissa
        (shiftToTargetExponent Format.binary64 m e a).1.accuracy (r / 2 ^ unit r) ∧
      (shiftToTargetExponent Format.binary64 m e a).2 = unit r := by
  rw [shiftToTargetExponent, targetExponent_eq_unit h he, shiftToExponent]
  dsimp only
  obtain ⟨n, hn⟩ := Int.eq_ofNat_of_zero_le (sub_nonneg.2 he)
  rw [hn, Int.toNat_natCast]
  refine ⟨?_, by omega⟩
  have hshift := locates_shiftRight (locates_ofMantissaAndAccuracy h) n
  rw [div_div, ← zpow_natCast, ← zpow_add₀ two_ne_zero, ← hn, add_sub_cancel] at hshift
  exact hshift

/-- `shiftToTargetExponent` keeps `k < 2 ^ 53` as it is. -/
theorem shiftToTargetExponent_of_lt {k : ℕ} {u : ℤ} (hk : k < 2 ^ 53) (hu : -1074 ≤ u) :
    shiftToTargetExponent Format.binary64 k u .exact = (⟨k, false, false⟩, u) := by
  have hlog : k.log2 ≤ 52 := by
    rcases Nat.eq_zero_or_pos k with rfl | hpos
    · exact Nat.zero_le _
    · exact Nat.lt_succ_iff.1 ((Nat.log2_lt hpos.ne').2 hk)
  have hshift : (Format.binary64.targetExponent (totalExponent k u) - u).toNat = 0 := by
    rw [targetExponent_eq, totalExponent]
    omega
  rw [shiftToTargetExponent, shiftToExponent, hshift, Int.natCast_zero, Int.add_zero]
  rfl

/-- `shiftToTargetExponent` halves `2 ^ 53`, to which a mantissa may have been rounded up. -/
theorem shiftToTargetExponent_carry {k c : ℕ} {u : ℤ} (hk : k = 2 ^ 53) (hc : c = 2 ^ 52)
    (hu : -1074 ≤ u) :
    shiftToTargetExponent Format.binary64 k u .exact = (⟨c, false, false⟩, u + 1) := by
  subst hk hc
  have hshift : (Format.binary64.targetExponent (totalExponent (2 ^ 53) u) - u).toNat = 1 := by
    rw [targetExponent_eq, totalExponent, Nat.log2_two_pow]
    omega
  rw [shiftToTargetExponent, shiftToExponent, hshift]
  rfl

/-- **`roundWithAccuracy` packs the pattern `p` of `r`**, if `Locates m a (r / 2 ^ e)` and
`e ≤ unit r`. -/
theorem toNat_pack_roundWithAccuracy (negative : Bool) {m : ℕ} {a : Accuracy} {r : ℚ} {e : ℤ}
    {p : ℕ} (hr : 0 ≤ r) (h : Locates m a (r / 2 ^ e)) (he : e ≤ unit r) (hp : IsPattern r p) :
    (UnpackedFloat.pack Format.binary64
      (roundWithAccuracy Format.binary64 (signOf negative) m e a)).toNat = bitsOf negative p := by
  obtain ⟨hlocates, hexponent⟩ := locates_shiftToTargetExponent h he
  obtain ⟨k, hk, rfl⟩ := hp
  have hround := (isNearest_of_locates hlocates).unique hk
  have hlow := le_unit r
  have hk53 : k ≤ 2 ^ 53 := hk.le_of_unit hr
  have hk52 : -1074 < unit r → 2 ^ 52 ≤ k := hk.ge_of_unit hr
  rw [roundWithAccuracy]
  dsimp only
  rw [hexponent, ExtendedMantissa.roundedMantissa, hround]
  rcases hk53.lt_or_eq with hlt | hcarry
  · rw [shiftToTargetExponent_of_lt hlt hlow]
    dsimp only
    split
    · next hzero =>
      -- only a number that counts the smallest units is rounded to zero
      subst hzero
      have hunit : unit r = -1074 := by
        by_contra hne
        have := hk52 (by omega)
        omega
      rw [toNat_pack_zero, hunit]
      rfl
    · next hpos =>
      exact toNat_pack_finite negative (Nat.pos_of_ne_zero hpos) hlt hlow hk52
  · obtain ⟨c, hc⟩ : ∃ c, c = 2 ^ 52 := ⟨_, rfl⟩
    have hpos : c ≠ 0 := by omega
    -- the next power of two is the first mantissa of the next exponent
    have hpattern : (unit r + 1 + 1074).toNat * 2 ^ 52 + c =
        (unit r + 1074).toNat * 2 ^ 52 + k := by
      omega
    rw [shiftToTargetExponent_carry hcarry hc hlow]
    dsimp only
    rw [dif_neg hpos, toNat_pack_finite negative (Nat.pos_of_ne_zero hpos) (by omega) (by omega)
      (fun _ => hc.ge), hpattern]

end Monochord.Binary64
