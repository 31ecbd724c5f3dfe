import Monochord.Proofs.Resolution

/-! # Which tones can be compared

The two tones of an interval lie in the same octave above their fundamental. Their distance in cents
is therefore a number, unless only one of the two is beyond the range of doubles: then the quotient
is infinite or zero, and zero has no logarithm.

* **`TonesAbove.zero_lt`** — tones above a positive fundamental are positive.
* **`TonesAbove.exists_compareTones_iff`** — they can be compared exactly if the equal-tempered one
  is finite or the other one is not. -/

namespace Monochord

open Binary64

variable {f : Float} {p : PureTone × TemperedTone}

/-! ## Products with ratios -/

/-- `1 ≤ toRat x` if `Between x w`. -/
theorem Between.one_le {x : Float} {w : ℕ} (h : Between x w) : 1 ≤ toRat x :=
  (one_le_pow₀ one_le_two).trans h.le

/-- `0.0 < x` if `Between x w`. -/
theorem Between.zero_lt {x : Float} {w : ℕ} (h : Between x w) : 0.0 < x :=
  (toRat_pos h.finite).2 (one_pos.trans_le h.one_le)

/-- `0.0 < f * x` if `Between x w` and `0.0 < f`. -/
theorem Between.zero_lt_mul {x : Float} {w : ℕ} (h : Between x w) (hf : 0.0 < f) :
    0.0 < f * x := by
  rcases zero_lt_cases hf with hfinite | hinfinite
  · have hpattern := ((zero_lt_iff (isFinite_iff.1 hfinite)).1 hf).2
    refine (rounds_mul hfinite h.finite).zero_lt hpattern ?_
    rw [← abs_toRat, abs_of_pos ((toRat_pos hfinite).1 hf)]
    exact le_mul_of_one_le_right ((toRat_pos hfinite).1 hf).le h.one_le
  · exact (isInfinity_mul hinfinite h.finite h.zero_lt).zero_lt

/-- `f * x` is zero if `f` is zero. -/
theorem Between.pattern_mul {x : Float} {w : ℕ} (h : Between x w) (hf : pattern f = 0) :
    pattern (f * x) = 0 := by
  have hfinite : f.isFinite = true := isFinite_iff.2 (hf ▸ by decide)
  have hrounds := rounds_mul hfinite h.finite
  rw [toRat_eq_zero hf, zero_mul] at hrounds
  exact hrounds.pattern_eq_zero

/-- If `f * x` is finite and `Between x w`, it lies between `f * 2 ^ w` and `f * 2 ^ (w + 1)`, since
doubling is exact. -/
theorem Between.mul_mem {x : Float} {w : ℕ} (h : Between x w) (hf : 0.0 < f)
    (hx : (f * x).isFinite = true) :
    toRat f * 2 ^ w ≤ toRat (f * x) ∧ toRat (f * x) ≤ toRat f * 2 ^ (w + 1) := by
  have hfinite := (isFinite_of_mul hx).1
  have hpos := (toRat_pos hfinite).1 hf
  have hrounds := rounds_mul hfinite h.finite
  have hvalue (k : ℕ) : ∃ t, value t = toRat f * 2 ^ k := by
    obtain ⟨t, ht⟩ := exists_value_mul_pow (pattern f) k
    refine ⟨t, ?_⟩
    rw [ht, ← abs_toRat, abs_of_pos hpos]
  obtain ⟨s, hs⟩ := hvalue w
  obtain ⟨t, ht⟩ := hvalue (w + 1)
  constructor
  · rw [← hs]
    refine hrounds.value_le_toRat hx ?_
    rw [hs]
    exact mul_le_mul_of_nonneg_left h.le hpos.le
  · rw [← ht]
    refine hrounds.toRat_le_value hx ?_
    rw [ht]
    exact mul_le_mul_of_nonneg_left h.le_succ hpos.le

/-! ## Quotients -/

/-- `cents` of two doubles is `1200.0` times the logarithm of their quotient, if there is one. -/
theorem cents_float (a b : Float) :
    cents (.float a) (.float b) = if b == 0.0 then .error .divisionByZero
      else logarithm (a / b) >>= fun l => .ok (1200.0 * l) := by
  have hdiv : (Quantity.float a).div (.float b) =
      if b == 0.0 then .error .divisionByZero else .ok (a / b) := rfl
  rw [cents, hdiv]
  split <;> rfl

/-- A positive double is not equal to `0.0`. -/
theorem not_beq_zero {x : Float} (h : 0.0 < x) : ¬(x == 0.0) = true := by
  rw [beq_zero_iff]
  intro hzero
  have hfinite : x.isFinite = true := isFinite_iff.2 (hzero ▸ by decide)
  rw [toRat_pos hfinite, toRat_eq_zero hzero] at h
  exact lt_irrefl 0 h

/-- `cents` of `a` and a positive `b` exists exactly if `a / b` is positive, or not a number. -/
theorem exists_cents_iff {a b : Float} (hb : 0.0 < b) :
    (∃ c, cents (.float a) (.float b) = .ok c) ↔ (a / b).isNaN = true ∨ 0.0 < a / b := by
  rw [cents_float, if_neg (not_beq_zero hb), ← exists_logarithm_iff]
  constructor
  · rintro ⟨c, hc⟩
    obtain ⟨l, hl, -⟩ := bind_eq_ok_iff.1 hc
    exact ⟨l, hl⟩
  · rintro ⟨l, hl⟩
    rw [hl]
    exact ⟨_, rfl⟩

/-! ## Tones -/

namespace TonesAbove

/-- The frequencies and the ratio of tones above a positive fundamental are positive. -/
theorem zero_lt (h : TonesAbove f p) (hf : 0.0 < f) :
    0.0 < p.1.frequency ∧ 0.0 < p.1.ratio ∧ 0.0 < p.2.frequency := by
  obtain ⟨w, t, hr, ht, hpure, htempered⟩ := h
  rw [hpure, htempered]
  exact ⟨hr.zero_lt_mul hf, hr.zero_lt, ht.zero_lt_mul hf⟩

/-- `compareTones` of tones above zero fails with `.divisionByZero`, since they are zero. -/
theorem compareTones_eq_error (h : TonesAbove f p) (hf : pattern f = 0) :
    compareTones p.1 p.2 = .error .divisionByZero := by
  obtain ⟨w, t, -, ht, -, htempered⟩ := h
  have hdivisor : (p.2.frequency == 0.0) = true :=
    beq_zero_iff.2 (htempered ▸ ht.pattern_mul hf)
  rw [compareTones, cents_float, if_pos hdivisor, error_bind]

/-- `0.0 < p.1.frequency / p.2.frequency` for finite tones above a positive fundamental: they are in
the same octave. -/
theorem zero_lt_div (h : TonesAbove f p) (hf : 0.0 < f) (hpure : p.1.frequency.isFinite = true)
    (htempered : p.2.frequency.isFinite = true) : 0.0 < p.1.frequency / p.2.frequency := by
  obtain ⟨-, -, hpos⟩ := h.zero_lt hf
  obtain ⟨w, t, hr, ht, hp, hq⟩ := h
  rw [hp] at hpure ⊢
  rw [hq] at htempered hpos ⊢
  obtain ⟨hlow, -⟩ := hr.mul_mem hf hpure
  obtain ⟨-, hhigh⟩ := ht.mul_mem hf htempered
  have hdivisor := (toRat_pos htempered).1 hpos
  obtain ⟨s, hs⟩ := exists_value_eq (m := 1) (e := -1) (by norm_num) (by norm_num)
  refine (rounds_div hpure htempered ?_).zero_lt (t := s) ?_ ?_
  · exact ((zero_lt_iff (isFinite_iff.1 htempered)).1 hpos).2
  · refine pos_of_value_pos ?_
    rw [hs]
    norm_num
  · rw [hs, le_div_iff₀ hdivisor, Nat.cast_one, one_mul, zpow_neg_one]
    calc 2⁻¹ * toRat (f * t) ≤ 2⁻¹ * (toRat f * 2 ^ (w + 1)) :=
          mul_le_mul_of_nonneg_left hhigh (by norm_num)
      _ = toRat f * 2 ^ w := by ring
      _ ≤ toRat (f * p.1.ratio) := hlow

/-- **`compareTones` of the tones of an interval exists exactly if the equal-tempered one is not the
only one beyond the range of doubles.** -/
theorem exists_compareTones_iff (h : TonesAbove f p) (hf : 0.0 < f) :
    (∃ c, compareTones p.1 p.2 = .ok c) ↔
      (p.1.frequency.isFinite = true → p.2.frequency.isFinite = true) := by
  have hcents : (∃ c, compareTones p.1 p.2 = .ok c) ↔
      ∃ c, cents (.float p.1.frequency) (.float p.2.frequency) = .ok c := by
    rw [compareTones]
    cases cents (.float p.1.frequency) (.float p.2.frequency) with
    | error e =>
      exact iff_of_false (fun ⟨_, h⟩ => absurd h (by simp)) fun ⟨_, h⟩ => absurd h (by simp)
    | ok c => exact iff_of_true ⟨_, rfl⟩ ⟨c, rfl⟩
  obtain ⟨hpure, -, htempered⟩ := h.zero_lt hf
  rw [hcents, exists_cents_iff htempered]
  rcases zero_lt_cases htempered with hfinite | hinfinite
  · refine iff_of_true (.inr ?_) fun _ => hfinite
    rcases zero_lt_cases hpure with hfinite' | hinfinite'
    · exact h.zero_lt_div hf hfinite' hfinite
    · exact (isInfinity_div hinfinite' hfinite htempered).zero_lt
  · rcases zero_lt_cases hpure with hfinite' | hinfinite'
    · -- the quotient is zero
      refine iff_of_false ?_ fun h => hinfinite.not_finite (h hfinite')
      have hzero := pattern_div_infinity hfinite' hpure hinfinite
      rintro (hnan | hpos)
      · rw [isNaN_of_isFinite (isFinite_iff.2 (hzero ▸ by decide))] at hnan
        exact Bool.false_ne_true hnan
      · exact not_beq_zero hpos (beq_zero_iff.2 hzero)
    · exact iff_of_true (.inl (isNaN_div_infinity hinfinite' hinfinite))
        fun h => absurd h hinfinite'.not_finite

end TonesAbove

end Monochord
