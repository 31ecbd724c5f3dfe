import Monochord.Proofs.Binary64.Exponential

/-! # Numbers that are doubles

Integers of up to 53 binary places, multiplied by a power of two, have patterns of their own.
Rounding cannot lead past such a number, which bounds a rounded number from both sides.

* **`exists_value_eq`** — the numbers that have patterns of their own.
* **`Rounds.toRat_le_value`**, **`Rounds.value_le_toRat`** — rounding does not lead past them.
* **`Rounds.isFinite_iff`** — the numbers that are rounded to infinity, from **`overflowBound`** on,
  which is above all powers of two that are doubles (`two_pow_lt_overflowBound`);
  **`exists_ofRat?`**, **`ofRat?_eq_none`**: rational numbers have doubles below it, and none from
  there on. -/

namespace Monochord.Binary64

/-! ## Patterns of their own -/

/-- `value ((u + 1074) * 2 ^ 52 + k) = k * 2 ^ u`, if `k` has a leading one or `u` is the smallest
unit. -/
theorem value_add_mantissa {u : ℤ} {k : ℕ} (hu : -1074 ≤ u) (hk : k < 2 ^ 53)
    (hlong : u = -1074 ∨ 2 ^ 52 ≤ k) : value ((u + 1074).toNat * 2 ^ 52 + k) = k * 2 ^ u := by
  obtain ⟨n, hn⟩ := Int.eq_ofNat_of_zero_le (show 0 ≤ u + 1074 by omega)
  rw [hn, Int.toNat_natCast, value]
  rcases lt_or_ge (n * 2 ^ 52 + k) (2 ^ 52) with h | h
  · obtain ⟨hm, hs⟩ := mantissa_scale_of_lt h
    rw [hm, hs, show n = 0 by omega, show u = -1074 by omega, Nat.zero_mul, Nat.zero_add]
  · obtain ⟨hm, hs⟩ := mantissa_scale_of_le h
    rw [hm, hs, show 2 ^ 52 + (n * 2 ^ 52 + k) % 2 ^ 52 = k by omega]
    congr 2
    omega

/-- **`m * 2 ^ e` has a pattern of its own if `m < 2 ^ 53`.** -/
theorem exists_value_eq {m : ℕ} {e : ℤ} (hm : m < 2 ^ 53) (he : -1074 ≤ e) :
    ∃ p, value p = m * 2 ^ e := by
  have hr : (0 : ℚ) ≤ m * 2 ^ e := by positivity
  -- the unit near the number is no greater than `2 ^ e`, so the number is a multiple of it
  have hunit : unit ((m : ℚ) * 2 ^ e) ≤ e := by
    rw [unit]
    split
    · exact he
    · next hne =>
      have hpos : 0 < (m : ℚ) * 2 ^ e := hr.lt_of_ne' hne
      have hlog : Int.log 2 ((m : ℚ) * 2 ^ e) < 53 + e := by
        refine (Int.lt_zpow_iff_log_lt (R := ℚ) one_lt_two hpos).1 ?_
        rw [Nat.cast_ofNat, zpow_add₀ two_ne_zero]
        have hm' : (m : ℚ) < 2 ^ (53 : ℤ) := by exact_mod_cast hm
        gcongr
      omega
  obtain ⟨k, hk⟩ := Int.eq_ofNat_of_zero_le (sub_nonneg.2 hunit)
  have hquotient : (m : ℚ) * 2 ^ e / 2 ^ unit ((m : ℚ) * 2 ^ e) = (m * 2 ^ k : ℕ) := by
    rw [mul_div_assoc, ← zpow_sub₀ two_ne_zero, hk, zpow_natCast]
    push_cast
    rfl
  have hlt := div_unit_lt hr
  rw [hquotient] at hlt
  refine ⟨_, (value_add_mantissa (le_unit ((m : ℚ) * 2 ^ e)) (by exact_mod_cast hlt)
    ?_).trans ?_⟩
  · rcases (le_unit ((m : ℚ) * 2 ^ e)).eq_or_lt with heq | hgt
    · exact .inl heq.symm
    · have hlong := le_div_unit hr hgt
      rw [hquotient] at hlong
      exact .inr (by exact_mod_cast hlong)
  · rw [← hquotient, div_mul_cancel₀ _ (by positivity)]

/-- `value p * 2 ^ w` has a pattern of its own, though perhaps above `infinityPattern`. -/
theorem exists_value_mul_pow (p w : ℕ) : ∃ t, value t = value p * 2 ^ w := by
  have hscale := le_scale p
  obtain ⟨t, ht⟩ := exists_value_eq (e := scale p + w) (mantissa_lt p) (by omega)
  refine ⟨t, ht.trans ?_⟩
  rw [value, zpow_add₀ two_ne_zero, zpow_natCast, mul_assoc]

/-- **`toRat x ≤ value t` if `r ≤ value t`**: rounding does not lead upwards past a number with a
pattern. -/
theorem Rounds.toRat_le_value {r : ℚ} {x : Float} {t : ℕ} (h : Rounds r x)
    (hx : x.isFinite = true) (hr : r ≤ value t) : toRat x ≤ value t := by
  obtain ⟨p, hp, hxp⟩ := h.exists_toRat_eq hx
  rw [hxp]
  split
  · linarith [value_nonneg p, value_nonneg t]
  · next hnonneg =>
    rw [abs_of_nonneg (not_lt.1 hnonneg)] at hp
    exact value_strictMono.monotone (hp.le (isPattern_value t) (not_lt.1 hnonneg) hr)

/-- **`value t ≤ toRat x` if `value t ≤ r`**: rounding does not lead downwards past a number with a
pattern. -/
theorem Rounds.value_le_toRat {r : ℚ} {x : Float} {t : ℕ} (h : Rounds r x)
    (hx : x.isFinite = true) (hr : value t ≤ r) : value t ≤ toRat x := by
  obtain ⟨p, hp, hxp⟩ := h.exists_toRat_eq hx
  have hnonneg := (value_nonneg t).trans hr
  rw [abs_of_nonneg hnonneg] at hp
  rw [hxp, if_neg hnonneg.not_gt]
  exact value_strictMono.monotone (hp.le_of_value_le hr)

/-! ## Overflow -/

/-- From `2 ^ 1024 - 2 ^ 970` on, half a unit above the greatest finite double, a number is rounded
to infinity. -/
def overflowBound : ℚ := 2 ^ 1024 - 2 ^ 970

/-- `overflowBound` is a multiple of half a unit of the greatest finite double. -/
theorem overflowBound_eq : overflowBound = (2 ^ 53 - 1 / 2) * 2 ^ (971 : ℤ) := by
  have hhalf : (2 : ℚ) ^ (971 : ℤ) = 2 ^ 970 * 2 := by
    rw [← pow_succ]
    exact zpow_natCast 2 971
  have hwhole : (2 : ℚ) ^ 1024 = 2 ^ 970 * 2 ^ 54 := by rw [← pow_add]
  rw [overflowBound, hhalf, hwhole]
  generalize (2 : ℚ) ^ 970 = half
  ring

/-- `0 < overflowBound`. -/
theorem overflowBound_pos : 0 < overflowBound := by
  rw [overflowBound_eq]
  exact mul_pos (by norm_num) (by positivity)

/-- `2 ^ k < overflowBound` for `k ≤ 1023`. -/
theorem two_pow_lt_overflowBound {k : ℕ} (hk : k ≤ 1023) : (2 : ℚ) ^ k < overflowBound := by
  have hle : (2 : ℚ) ^ k ≤ 2 ^ 1023 := pow_le_pow_right₀ one_le_two hk
  have hlast : (2 : ℚ) ^ 1023 = 2 ^ 970 * 2 ^ 53 := by rw [← pow_add]
  have hwhole : (2 : ℚ) ^ 1024 = 2 ^ 970 * 2 ^ 54 := by rw [← pow_add]
  have hpos : (0 : ℚ) < 2 ^ 970 := by positivity
  rw [overflowBound, hwhole]
  rw [hlast] at hle
  generalize (2 : ℚ) ^ 970 = half at hle hpos
  linarith only [hle, hpos]

/-- `10 ^ 400` is beyond `overflowBound`. -/
theorem overflowBound_le_tenPow : overflowBound ≤ |((10 ^ 400 : ℤ) : ℚ)| := by
  have hcast : |((10 ^ 400 : ℤ) : ℚ)| = 10 ^ 400 := by
    rw [Int.cast_pow, Int.cast_ofNat]
    exact abs_of_pos (by positivity)
  rw [hcast]
  calc overflowBound ≤ 2 ^ 1024 := sub_le_self _ (by positivity)
    _ ≤ 2 ^ (3 * 400) := pow_le_pow_right₀ one_le_two (by norm_num)
    _ = 8 ^ 400 := by rw [pow_mul]; norm_num
    _ ≤ 10 ^ 400 := pow_le_pow_left₀ (by norm_num) (by norm_num) 400

/-- The last unit before infinity is `2 ^ 971`. -/
theorem unit_overflowBound : unit overflowBound = 971 := by
  have hlow : (2 : ℚ) ^ (1023 : ℤ) = 2 ^ 52 * 2 ^ (971 : ℤ) := by
    rw [show (1023 : ℤ) = 52 + 971 from rfl, zpow_add₀ two_ne_zero]
    rfl
  have hhigh : (2 : ℚ) ^ ((1023 : ℤ) + 1) = 2 ^ 53 * 2 ^ (971 : ℤ) := by
    rw [show (1023 : ℤ) + 1 = 53 + 971 from rfl, zpow_add₀ two_ne_zero]
    rfl
  have hlast : (0 : ℚ) < 2 ^ (971 : ℤ) := by positivity
  have hpos := overflowBound_pos
  have hlog : Int.log 2 overflowBound = 1023 := by
    refine log_eq_of_zpow_le hpos ?_ ?_
    · rw [overflowBound_eq, hlow]
      refine mul_le_mul_of_nonneg_right ?_ hlast.le
      norm_num
    · rw [overflowBound_eq, hhigh]
      refine mul_lt_mul_of_pos_right ?_ hlast
      norm_num
  rw [unit, if_neg hpos.ne', hlog]
  rfl

/-- `overflowBound` itself is rounded to infinity, whose mantissa is even. -/
theorem isPattern_overflowBound : IsPattern overflowBound infinityPattern := by
  refine ⟨2 ^ 53, ?_, ?_⟩
  · rw [unit_overflowBound, overflowBound_eq, mul_div_cancel_right₀ _ (by positivity)]
    exact ⟨by norm_num, by norm_num, fun _ => by norm_num⟩
  · rw [unit_overflowBound]
    rfl

/-- **`r` has a pattern below `infinityPattern` exactly if `r < overflowBound`.** -/
theorem IsPattern.lt_infinityPattern_iff {r : ℚ} {p : ℕ} (h : IsPattern r p) (hr : 0 ≤ r) :
    p < infinityPattern ↔ r < overflowBound := by
  constructor
  · intro hp
    by_contra hle
    exact hp.not_ge (isPattern_overflowBound.le h overflowBound_pos.le (not_lt.1 hle))
  · intro hlt
    have hunit := unit_mono hr hlt.le
    rw [unit_overflowBound] at hunit
    obtain ⟨k, hk, rfl⟩ := h
    have hcarry := hk.le_of_unit hr
    have hinf := infinityPattern_eq
    rcases hunit.eq_or_lt with heq | hsmall
    · -- half a unit is missing
      have hbelow := hk.below
      rw [heq] at hbelow
      have hquotient : r / 2 ^ (971 : ℤ) < 2 ^ 53 - 1 / 2 := by
        rw [div_lt_iff₀ (by positivity), ← overflowBound_eq]
        exact hlt
      have hk53 : (k : ℚ) < 2 ^ 53 := by linarith only [hbelow, hquotient]
      have hk53' : k < 2 ^ 53 := by exact_mod_cast hk53
      omega
    · omega

/-- **`x.isFinite` exactly if `|r| < overflowBound`**, where `Rounds r x`. -/
theorem Rounds.isFinite_iff {r : ℚ} {x : Float} (h : Rounds r x) :
    x.isFinite = true ↔ |r| < overflowBound := by
  obtain ⟨p, hp, hx⟩ := h.pattern
  rw [Binary64.isFinite_iff, ← hp.lt_infinityPattern_iff (abs_nonneg r), hx]
  omega

/-- `0.0 < x` if `Rounds r x` and `r` is at least a positive double. -/
theorem Rounds.zero_lt {r : ℚ} {x : Float} {t : ℕ} (h : Rounds r x) (ht : 0 < t)
    (hr : value t ≤ r) : 0.0 < x := by
  by_cases hx : x.isFinite = true
  · exact (toRat_pos hx).2 ((value_pos ht).trans_le (h.value_le_toRat hx hr))
  · exact (h.isInfinity ((value_pos ht).trans_le hr) hx).zero_lt

/-- `n < overflowBound` if `n < 2 ^ 53`. -/
theorem natCast_lt_overflowBound {n : ℕ} (hn : n < 2 ^ 53) : |(n : ℚ)| < overflowBound := by
  have hle : (n : ℚ) ≤ 2 ^ 53 := by exact_mod_cast hn.le
  rw [abs_of_nonneg (Nat.cast_nonneg n)]
  exact hle.trans_lt (two_pow_lt_overflowBound (by decide))

/-- **`toRat x = n` if `Rounds n x` and `n < 2 ^ 53`**: such an integer is not rounded. -/
theorem Rounds.toRat_eq {n : ℕ} {x : Float} (h : Rounds n x) (hn : n < 2 ^ 53) :
    x.isFinite = true ∧ toRat x = n := by
  have hfinite := h.isFinite_iff.2 (natCast_lt_overflowBound hn)
  obtain ⟨t, ht⟩ := exists_value_eq (e := 0) hn (by decide)
  rw [zpow_zero, mul_one] at ht
  refine ⟨hfinite, le_antisymm ?_ ?_⟩
  · exact (h.toRat_le_value hfinite ht.ge).trans ht.le
  · exact ht.ge.trans (h.value_le_toRat hfinite ht.le)

/-- `pattern x = 0` if `Rounds 0 x`. -/
theorem Rounds.pattern_eq_zero {x : Float} (h : Rounds 0 x) : Binary64.pattern x = 0 := by
  obtain ⟨p, hp, hx⟩ := h.pattern
  rw [abs_zero] at hp
  rw [hx, hp.unique le_rfl isPattern_zero, Nat.zero_min]

/-- `pattern x = 0` or `0.0 < x` if `Rounds r x` and `0 ≤ r`. -/
theorem Rounds.zero_or_pos {r : ℚ} {x : Float} (h : Rounds r x) (hr : 0 ≤ r) :
    Binary64.pattern x = 0 ∨ 0.0 < x := by
  rcases hr.eq_or_lt with rfl | hr
  · exact .inl h.pattern_eq_zero
  · by_cases hx : x.isFinite = true
    · rcases Nat.eq_zero_or_pos (Binary64.pattern x) with h0 | h0
      · exact .inl h0
      · exact .inr ((zero_lt_iff (Binary64.isFinite_iff.1 hx)).2 ⟨h.positive hr, h0⟩)
    · exact .inr (h.isInfinity hr hx).zero_lt

/-! ## Rational numbers -/

/-- `nearestPattern` of the numerator and the denominator is the pattern of `|q|`. -/
theorem isPattern_abs (q : ℚ) : IsPattern |q| (nearestPattern q.num.natAbs q.den) := by
  have hquotient : (q.num.natAbs : ℚ) / q.den = |q| := by
    calc (q.num.natAbs : ℚ) / q.den = |(q.num : ℚ) / q.den| := by
          rw [abs_div, Nat.abs_cast, Nat.cast_natAbs, Int.cast_abs]
      _ = |q| := by rw [Rat.num_div_den]
  rw [← hquotient]
  exact isPattern_nearestPattern _ _ q.den_pos

/-- **`ofRat? q = some x` with `Rounds q x` if `|q| < overflowBound`.** -/
theorem exists_ofRat? {q : ℚ} (h : |q| < overflowBound) :
    ∃ x, ofRat? q = some x ∧ x.isFinite = true ∧ Rounds q x := by
  have hlt := ((isPattern_abs q).lt_infinityPattern_iff (abs_nonneg q)).2 h
  have hrounds := rounds_of_bits
    (toNat_toBits_ofPattern (decide (q.num < 0)) (nearestPattern q.num.natAbs q.den))
    (isPattern_abs q) (fun hneg => decide_eq_true (Rat.num_neg.2 hneg))
    (fun hpos => decide_eq_false (Rat.num_pos.2 hpos).not_gt)
  exact ⟨_, if_pos hlt, hrounds.isFinite_iff.2 h, hrounds⟩

/-- **`ofRat? q = none` if `overflowBound ≤ |q|`.** -/
theorem ofRat?_eq_none {q : ℚ} (h : overflowBound ≤ |q|) : ofRat? q = none := by
  have hlt := (isPattern_abs q).lt_infinityPattern_iff (abs_nonneg q)
  exact if_neg fun hp => h.not_gt (hlt.1 hp)

end Monochord.Binary64
