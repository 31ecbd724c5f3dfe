import Monochord.Proofs.Binary64.Exact

/-! # Powers near zero

A power with a negative exponent is at most one, and from some exponent on downwards it is rounded
to zero. The smallest positive double is `2 ^ -1074`, and half of it is a tie that goes to zero.

* **`Rounds.neg_value_le_toRat`**, **`Rounds.toRat_le_neg_value`** — rounding does not lead past the
  negatives of numbers that have patterns of their own.
* **`IsPattern.eq_zero`**, **`IsPattern.pos`** — the magnitudes that are rounded to zero, and some
  that are not.
* **`exp2?_le_one`** — a power with a negative exponent is at most one.
* **`exp2?_pos`**, **`exp2?_eq_zero`** — a power is positive down to the exponent `-1074`, and zero
  from `-1075` on. -/

namespace Monochord.Binary64

/-! ## Negative numbers -/

/-- **`-value t ≤ toRat x` if `-value t ≤ r`**: rounding does not lead downwards past the negative
of a number with a pattern. -/
theorem Rounds.neg_value_le_toRat {r : ℚ} {x : Float} {t : ℕ} (h : Rounds r x)
    (hx : x.isFinite = true) (hr : -value t ≤ r) : -value t ≤ toRat x := by
  obtain ⟨p, hp, hxp⟩ := h.exists_toRat_eq hx
  rw [hxp]
  split
  · next hneg =>
    rw [abs_of_neg hneg] at hp
    refine neg_le_neg (value_strictMono.monotone (hp.le (isPattern_value t) ?_ ?_))
    · linarith
    · linarith
  · linarith [value_nonneg p, value_nonneg t]

/-- **`toRat x ≤ -value t` if `r ≤ -value t`**: rounding does not lead upwards past the negative of
a number with a pattern. -/
theorem Rounds.toRat_le_neg_value {r : ℚ} {x : Float} {t : ℕ} (h : Rounds r x)
    (hx : x.isFinite = true) (ht : 0 < t) (hr : r ≤ -value t) : toRat x ≤ -value t := by
  obtain ⟨p, hp, hxp⟩ := h.exists_toRat_eq hx
  have hneg : r < 0 := hr.trans_lt (neg_neg_of_pos (value_pos ht))
  rw [abs_of_neg hneg] at hp
  rw [hxp, if_pos hneg]
  exact neg_le_neg (value_strictMono.monotone (hp.le_of_value_le (by linarith)))

/-! ## The smallest magnitudes -/

/-- `2 ^ -1075` lies between two patterns, of which the even one is that of zero. -/
theorem isPattern_half_smallest : IsPattern (2 ^ (-1075 : ℤ)) 0 := by
  have hpos : (0 : ℚ) < 2 ^ (-1075 : ℤ) := by positivity
  have hlog : Int.log 2 ((2 : ℚ) ^ (-1075 : ℤ)) = -1075 := by
    exact_mod_cast Int.log_zpow (R := ℚ) one_lt_two (-1075)
  have hunit : unit (2 ^ (-1075 : ℤ)) = -1074 := by
    rw [unit, if_neg hpos.ne', hlog]
    rfl
  refine ⟨0, ?_, ?_⟩
  · rw [hunit, ← zpow_sub₀ two_ne_zero]
    exact ⟨by norm_num, by norm_num, fun _ => rfl⟩
  · rw [hunit]
    rfl

/-- **`p = 0` for the pattern of `r ≤ 2 ^ -1075`.** -/
theorem IsPattern.eq_zero {r : ℚ} {p : ℕ} (h : IsPattern r p) (hr : 0 ≤ r)
    (hle : r ≤ 2 ^ (-1075 : ℤ)) : p = 0 :=
  Nat.le_zero.1 (h.le isPattern_half_smallest hr hle)

/-- `0 < p` for the pattern of `2 ^ -1074 ≤ r`. -/
theorem IsPattern.pos {r : ℚ} {p : ℕ} (h : IsPattern r p) (hle : 2 ^ (-1074 : ℤ) ≤ r) : 0 < p :=
  h.le_of_value_le (value_one.trans_le hle)

/-! ## Rounded fractions -/

/-- `ofRatio? false n d` has the pattern of `n / d`. -/
theorem exists_isPattern_of_ofRatio? {n d : ℕ} {y : Float} (hd : 0 < d)
    (h : ofRatio? false n d = some y) :
    ∃ p, IsPattern ((n : ℚ) / d) p ∧ y.isFinite = true ∧ toRat y = value p := by
  rw [ofRatio?] at h
  split at h
  · next hlt =>
    obtain rfl := Option.some.inj h
    exact ⟨_, isPattern_nearestPattern n d hd, toRat_ofPattern hlt⟩
  · exact absurd h (by simp)

/-- `powerOfFraction places f` with the exponent `-k` is at least `2 ^ -k`. -/
theorem le_powerOfFraction_div (places f k : ℕ) :
    (2 : ℚ) ^ (-(k : ℤ)) ≤
      (powerOfFraction places f : ℚ) / (2 ^ (workingPlaces + k) : ℕ) := by
  rw [zpow_neg, zpow_natCast, ← one_div, div_le_div_iff₀ (by positivity) (by positivity)]
  rw [pow_add, one_mul]
  exact_mod_cast Nat.mul_le_mul_right (2 ^ k) (le_powerOfFraction places f)

/-- `powerOfFraction places f` with the exponent `-k` is at most `2 ^ (1 - k)`. -/
theorem powerOfFraction_div_le {places f : ℕ} (k : ℕ) (hf : f < 2 ^ places) :
    (powerOfFraction places f : ℚ) / (2 ^ (workingPlaces + k) : ℕ) ≤ 2 ^ (1 - (k : ℤ)) := by
  have hle : (powerOfFraction places f : ℚ) ≤ 2 * 2 ^ workingPlaces := by
    exact_mod_cast powerOfFraction_le_two hf
  rw [zpow_sub₀ two_ne_zero, zpow_one, zpow_natCast,
    div_le_div_iff₀ (by positivity) (by positivity), pow_add]
  push_cast
  rw [← mul_assoc]
  exact mul_le_mul_of_nonneg_right hle (by positivity)

/-- `powerOfFraction places 0` with the exponent `-k` is at most `2 ^ -k`. -/
theorem powerOfFraction_zero_div_le (places k : ℕ) :
    (powerOfFraction places 0 : ℚ) / (2 ^ (workingPlaces + k) : ℕ) ≤ 2 ^ (-(k : ℤ)) := by
  have hline := powerOfFraction_le (Nat.two_pow_pos places)
  have hle : (powerOfFraction places 0 : ℚ) ≤ 2 ^ workingPlaces := by
    exact_mod_cast Nat.le_of_mul_le_mul_right hline (Nat.two_pow_pos places)
  rw [zpow_neg, zpow_natCast, ← one_div, div_le_div_iff₀ (by positivity) (by positivity), one_mul,
    pow_add]
  push_cast
  exact mul_le_mul_of_nonneg_right hle (by positivity)

/-- `fractionPart x = 0` if `toRat x` is an integer. -/
theorem fractionPart_eq_zero {x : Float} (h : toRat x = ⌊toRat x⌋) : fractionPart x = 0 := by
  rw [fractionPart]
  split
  · rfl
  · next hscale =>
    obtain ⟨k, hk⟩ := Int.eq_ofNat_of_zero_le (show 0 ≤ -scale (pattern x) by omega)
    have hplaces : fractionPlaces x = k := by rw [fractionPlaces, hk, Int.toNat_natCast]
    have hrat := toRat_eq_lastPlaces x
    rw [show scale (pattern x) = -k by omega, zpow_neg, zpow_natCast, ← div_eq_mul_inv,
      eq_div_iff (by positivity), h] at hrat
    have hlast : ⌊toRat x⌋ * 2 ^ k = lastPlaces x := by exact_mod_cast hrat
    rw [hplaces, twoPow_eq, ← hlast]
    push_cast
    rw [sub_self, Int.toNat_zero]

/-! ## Powers with negative exponents -/

/-- `exp2? x` rounds the fraction of `powerOfFraction` if `-1100 ≤ ⌊toRat x⌋ < 0`. -/
theorem exp2?_of_neg {x : Float} (hx : x.isFinite = true) (hneg : toRat x < 0)
    (hlow : -1100 ≤ ⌊toRat x⌋) : ∃ k : ℕ, 0 < k ∧ ⌊toRat x⌋ = -(k : ℤ) ∧
      exp2? x = ofRatio? false (powerOfFraction (fractionPlaces x) (fractionPart x))
        (2 ^ (workingPlaces + k)) := by
  have hfloor : ⌊toRat x⌋ < 0 := Int.floor_lt.2 (by exact_mod_cast hneg)
  obtain ⟨k, hk⟩ := Int.eq_ofNat_of_zero_le (show 0 ≤ -⌊toRat x⌋ by omega)
  refine ⟨k, by omega, by omega, ?_⟩
  rw [exp2?_eq hx hlow (by omega), if_neg (by omega), hk, Int.toNat_natCast]

/-- `exp2? x = some 0.0` if `⌊toRat x⌋ < -1100`. -/
theorem exp2?_of_lt {x : Float} (hx : x.isFinite = true) (hlow : ⌊toRat x⌋ < -1100) :
    exp2? x = some 0.0 := by
  rw [exp2?, floor?_eq hx]
  dsimp only
  rw [if_neg (by omega), if_pos hlow]

/-- **`exp2? x ≤ 1` if `toRat x < 0`.** -/
theorem exp2?_le_one {x y : Float} (hx : x.isFinite = true) (hneg : toRat x < 0)
    (h : exp2? x = some y) : toRat y ≤ 1 := by
  by_cases hlow : -1100 ≤ ⌊toRat x⌋
  · obtain ⟨k, hk, -, heq⟩ := exp2?_of_neg hx hneg hlow
    rw [heq] at h
    obtain ⟨p, hp, -, hy⟩ := exists_isPattern_of_ofRatio? (Nat.two_pow_pos _) h
    have hle : (powerOfFraction (fractionPlaces x) (fractionPart x) : ℚ) /
        (2 ^ (workingPlaces + k) : ℕ) ≤ 2 ^ (0 : ℤ) :=
      (powerOfFraction_div_le k (fractionPart_lt x)).trans
        (zpow_le_zpow_right₀ one_le_two (by omega))
    rw [hy]
    calc value p ≤ value (((0 : ℤ) + 1023).toNat * 2 ^ 52) :=
          value_strictMono.monotone (hp.le_power (by positivity) (by norm_num) hle)
      _ = 2 ^ (0 : ℤ) := value_power (by norm_num)
      _ = 1 := zpow_zero 2
  · rw [exp2?_of_lt hx (not_le.1 hlow)] at h
    rw [← Option.some.inj h, toRat_eq_zero (show pattern 0.0 = 0 by decide)]
    exact zero_le_one

/-- **`0 < exp2? x` if `-1074 ≤ toRat x < 0`.** -/
theorem exp2?_pos {x y : Float} (hx : x.isFinite = true) (hneg : toRat x < 0)
    (hlow : -1074 ≤ toRat x) (h : exp2? x = some y) : 0 < toRat y := by
  have hfloor : -1074 ≤ ⌊toRat x⌋ := Int.le_floor.2 (by exact_mod_cast hlow)
  obtain ⟨k, -, hk, heq⟩ := exp2?_of_neg hx hneg (by omega)
  rw [heq] at h
  obtain ⟨p, hp, -, hy⟩ := exists_isPattern_of_ofRatio? (Nat.two_pow_pos _) h
  rw [hy]
  refine value_pos (hp.pos ?_)
  exact (zpow_le_zpow_right₀ one_le_two (by omega)).trans (le_powerOfFraction_div _ _ k)

/-- **`exp2? x = 0` if `toRat x ≤ -1075`.** -/
theorem exp2?_eq_zero {x y : Float} (hx : x.isFinite = true) (hle : toRat x ≤ -1075)
    (h : exp2? x = some y) : toRat y = 0 := by
  by_cases hlow : -1100 ≤ ⌊toRat x⌋
  · obtain ⟨k, -, hk, heq⟩ := exp2?_of_neg hx (by linarith) hlow
    rw [heq] at h
    obtain ⟨p, hp, -, hy⟩ := exists_isPattern_of_ofRatio? (Nat.two_pow_pos _) h
    -- half of the smallest double is rounded to zero, the even neighbour
    have hsmall : (powerOfFraction (fractionPlaces x) (fractionPart x) : ℚ) /
        (2 ^ (workingPlaces + k) : ℕ) ≤ 2 ^ (-1075 : ℤ) := by
      have hfloor := Int.floor_le (toRat x)
      rw [hk] at hfloor
      have hk1075 : 1075 ≤ k := by
        have hcast : (1075 : ℚ) ≤ k := by
          push_cast at hfloor
          linarith
        exact_mod_cast hcast
      rcases hk1075.eq_or_lt with rfl | hlt
      · -- the exponent is `-1075` itself
        have hinteger : toRat x = ⌊toRat x⌋ := by
          rw [hk]
          push_cast at hfloor ⊢
          linarith
        rw [fractionPart_eq_zero hinteger]
        exact powerOfFraction_zero_div_le _ 1075
      · exact (powerOfFraction_div_le k (fractionPart_lt x)).trans
          (zpow_le_zpow_right₀ one_le_two (by omega))
    rw [hy, hp.eq_zero (by positivity) hsmall, value_zero]
  · -- further down the power is zero without being computed
    rw [exp2?_of_lt hx (not_le.1 hlow)] at h
    rw [← Option.some.inj h]
    exact toRat_eq_zero (by decide)

end Monochord.Binary64
