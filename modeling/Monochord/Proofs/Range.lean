import Monochord.NoteName
import Monochord.Proofs.Interval
import Monochord.Proofs.Quantity

/-! # Which notes and intervals are in range

A note and an interval become frequencies by two to the power of a twelfth of their semitones, and a
double holds that power below 1024 octaves only. Inside this range both ratios of an interval lie in
the same octave.

* **`semitonePower`** — the ratio of some semitones; **`semitonePower_eq_error`**,
  **`exists_semitonePower`**: where it overflows and where it exists.
* **`Between`** — a double between two neighbouring powers of two.
* **`Interval.Reduced`** — the intervals that have symbols; **`Interval.Reduced.exists_ratios`**,
  **`Interval.Reduced.frequencyRatio_eq_error`**: both ratios exist below 1024 octaves, and none
  does from there on. -/

namespace Monochord

open Binary64

/-! ## Semitones -/

/-- Two to the power of a twelfth of a number of semitones. -/
def semitonePower (n : ℤ) : Except Failure Float := do power (← (Number.int n).div (.int 12))

/-- `n / 12` of an integer is rounded once, or overflows. -/
theorem div_twelve (n : ℤ) : (Number.int n).div (.int 12) =
    (ofRat? ((n : ℚ) / 12)).elim (.error .overflow) .ok := by
  rw [Number.div_int n (by decide), Int.cast_ofNat]

/-- **`semitonePower n` overflows from 1024 octaves on**, and if `n / 12` is so low that it is no
double. -/
theorem semitonePower_eq_error {n : ℤ} (h : 12288 ≤ n ∨ (n : ℚ) / 12 ≤ -overflowBound) :
    semitonePower n = .error .overflow := by
  rw [semitonePower, div_twelve]
  by_cases hbound : |(n : ℚ) / 12| < overflowBound
  · obtain ⟨x, hx, hfinite, hrounds⟩ := exists_ofRat? hbound
    -- the quotient is a double, and so it is not below 1024
    have hhigh : 12288 ≤ n := h.resolve_right (by linarith [(abs_lt.1 hbound).1])
    obtain ⟨t, ht⟩ := exists_value_eq (m := 1024) (e := 0) (by norm_num) (by norm_num)
    have hle : (1024 : ℚ) ≤ n / 12 := by
      rw [le_div_iff₀ (by norm_num)]
      exact_mod_cast hhigh
    have hvalue := hrounds.value_le_toRat hfinite (t := t) (by rw [ht]; norm_num; exact hle)
    rw [ht] at hvalue
    norm_num at hvalue
    rw [hx]
    show power x = _
    rw [power, (exp2?_eq_none_iff hfinite).2 hvalue]
  · rw [ofRat?_eq_none (not_lt.1 hbound)]
    rfl

/-- `1024 < overflowBound`. -/
theorem lt_overflowBound : 1024 < overflowBound := by
  have hpower := two_pow_lt_overflowBound (show 10 ≤ 1023 by decide)
  norm_num at hpower
  exact hpower

/-- `n / 12` is a finite double between `-overflowBound` and 1024. -/
theorem exists_twelfth {n : ℤ} (hlow : -overflowBound < (n : ℚ) / 12) (hhigh : n < 12288) :
    ∃ x, (Number.int n).div (.int 12) = .ok x ∧ x.isFinite = true ∧ Rounds ((n : ℚ) / 12) x := by
  have hlt : (n : ℚ) / 12 < overflowBound := by
    refine lt_trans ?_ lt_overflowBound
    rw [div_lt_iff₀ (by norm_num)]
    exact_mod_cast hhigh
  exact Number.exists_div_int (by decide) (abs_lt.2 ⟨hlow, hlt⟩)

/-- Eleven twelfths above an integer `m` are rounded to a double below `m + 1`, since fifteen
sixteenths are a double. -/
theorem toRat_lt_of_rounds {r : ℚ} {x : Float} {m : ℕ} (h : Rounds r x) (hx : x.isFinite = true)
    (hm : m < 2 ^ 48) (hr : r ≤ m + 11 / 12) : toRat x < m + 1 := by
  obtain ⟨t, ht⟩ := exists_value_eq (m := 16 * m + 15) (e := -4) (by omega) (by norm_num)
  have hvalue : value t = m + 15 / 16 := by
    rw [ht]
    push_cast
    ring
  have hle := h.toRat_le_value hx (t := t) (by linarith)
  linarith

/-- **`semitonePower n` is a ratio below 1024 octaves**, that is for `n < 12288`. -/
theorem exists_semitonePower {n : ℤ} (hlow : -overflowBound < (n : ℚ) / 12) (hhigh : n < 12288) :
    ∃ y, semitonePower n = .ok y := by
  obtain ⟨x, hx, hfinite, hrounds⟩ := exists_twelfth hlow hhigh
  have hlast : (n : ℚ) / 12 ≤ (1023 : ℕ) + 11 / 12 := by
    rw [div_le_iff₀ (by norm_num)]
    have hn : (n : ℚ) ≤ 12287 := by exact_mod_cast Int.le_of_lt_add_one hhigh
    norm_num
    linarith
  have hlt := toRat_lt_of_rounds hrounds hfinite (by norm_num) hlast
  norm_num at hlt
  rw [semitonePower, hx]
  show ∃ y, power x = .ok y
  rw [power]
  cases hpower : exp2? x with
  | none => exact absurd ((exp2?_eq_none_iff hfinite).1 hpower) (not_le.2 hlt)
  | some y => exact ⟨y, rfl⟩

/-- `semitonePower n = .ok y` only for `n` in this range. -/
theorem semitones_mem_of_semitonePower {n : ℤ} {y : Float} (h : semitonePower n = .ok y) :
    -overflowBound < (n : ℚ) / 12 ∧ n < 12288 := by
  constructor
  · by_contra hle
    rw [semitonePower_eq_error (.inr (not_lt.1 hle))] at h
    exact absurd h (by simp)
  · by_contra hle
    rw [semitonePower_eq_error (.inl (not_lt.1 hle))] at h
    exact absurd h (by simp)

/-- If `semitonePower n = .ok y`, then `y` is `exp2?` of a double that is `n / 12`, rounded. -/
theorem exists_exponent {n : ℤ} {y : Float} (h : semitonePower n = .ok y) :
    ∃ x, x.isFinite = true ∧ Rounds ((n : ℚ) / 12) x ∧ exp2? x = some y := by
  obtain ⟨hlow, hhigh⟩ := semitones_mem_of_semitonePower h
  obtain ⟨x, hx, hfinite, hrounds⟩ := exists_twelfth hlow hhigh
  refine ⟨x, hfinite, hrounds, ?_⟩
  rw [semitonePower, hx, ok_bind, power] at h
  split at h
  · next z hz => rw [hz, Except.ok.inj h]
  · exact absurd h (by simp)

/-- A ratio `semitonePower n = .ok y` is finite and not negative. -/
theorem semitonePower_nonneg {n : ℤ} {y : Float} (h : semitonePower n = .ok y) :
    y.isFinite = true ∧ 0 ≤ toRat y := by
  obtain ⟨x, hx, -, hpower⟩ := exists_exponent h
  exact exp2?_nonneg hx hpower

/-! ## Octaves -/

/-- A finite double between a power of two and the next one. -/
structure Between (x : Float) (w : ℕ) : Prop where
  /-- The double is finite. -/
  finite : x.isFinite = true
  /-- It is at least the power. -/
  le : 2 ^ w ≤ toRat x
  /-- It is at most the next power. -/
  le_succ : toRat x ≤ 2 ^ (w + 1)

/-- **`semitonePower n` lies in the octave `n / 12`**: `Between y (n / 12)`. -/
theorem exists_semitonePower_between {n : ℕ} (h : n < 12288) :
    ∃ y, semitonePower n = .ok y ∧ Between y (n / 12) := by
  have hnonneg : (0 : ℚ) ≤ ((n : ℤ) : ℚ) / 12 := by positivity
  obtain ⟨x, hx, hfinite, hrounds⟩ := exists_twelfth (n := n)
    ((neg_neg_of_pos overflowBound_pos).trans_le hnonneg) (by exact_mod_cast h)
  have hsplit : 12 * (n / 12) + n % 12 = n := Nat.div_add_mod n 12
  have hmod : n % 12 < 12 := Nat.mod_lt n (by norm_num)
  generalize hw : n / 12 = w at hsplit
  -- the octaves are a double, and the rest does not lead to the next one
  obtain ⟨t, ht⟩ := exists_value_eq (m := w) (e := 0) (by omega) (by norm_num)
  rw [zpow_zero, mul_one] at ht
  have hlow : (w : ℚ) ≤ toRat x := by
    rw [← ht]
    refine hrounds.value_le_toRat hfinite ?_
    rw [ht, le_div_iff₀ (by norm_num)]
    exact_mod_cast (show w * 12 ≤ n by omega)
  have hhigh : toRat x < w + 1 := by
    refine toRat_lt_of_rounds hrounds hfinite (by omega) ?_
    rw [div_le_iff₀ (by norm_num), add_mul]
    norm_num
    exact_mod_cast (show n ≤ w * 12 + 11 by omega)
  have hfloor : ⌊toRat x⌋ = w := by
    rw [Int.floor_eq_iff]
    push_cast
    exact ⟨hlow, hhigh⟩
  have hwhole : (w : ℚ) + 1 ≤ 1024 := by exact_mod_cast (show w + 1 ≤ 1024 by omega)
  obtain ⟨y, hy, hyfinite, hle, hle'⟩ := exp2?_bounds hfinite ((Nat.cast_nonneg w).trans hlow)
    (hhigh.trans_le hwhole)
  rw [hfloor] at hle hle'
  refine ⟨y, ?_, hyfinite, ?_, ?_⟩
  · rw [semitonePower, hx]
    show power x = _
    rw [power, hy]
  · exact_mod_cast hle
  · exact_mod_cast hle'

/-! ## Intervals -/

namespace Interval

/-- An interval whose simple part is below the octave, or the octave itself. Only such intervals
have symbols. -/
def Reduced (i : Interval) : Prop := i.simple = .octave → i.octaves = 0

/-- `SimpleInterval.ofSymbol? s` is not the octave if `s.degree ≤ 7`. -/
theorem simple_ne_octave {s : Symbol} {i : SimpleInterval} (h : SimpleInterval.ofSymbol? s = some i)
    (hs : s.degree ≤ 7) : i ≠ .octave := by
  rintro rfl
  unfold SimpleInterval.ofSymbol? at h
  split at h <;> simp_all

/-- **`i.Reduced` if `ofSymbol text = .ok i`.** -/
theorem reduced_of_ofSymbol {text : String} {i : Interval} (h : ofSymbol text = .ok i) :
    i.Reduced := by
  unfold ofSymbol ofTrimmed at h
  split at h
  · exact absurd h (by simp [complain])
  · split at h
    · split at h
      · obtain rfl := Except.ok.inj h
        exact fun _ => rfl
      · exact absurd h (by simp [complain])
    · dsimp only at h
      split at h
      · next i hi =>
        obtain rfl := Except.ok.inj h
        refine fun hoctave => absurd hoctave (simple_ne_octave hi ?_)
        show _ % octaveSpan + 1 ≤ 7
        have hmod := Nat.mod_lt (‹Symbol›.degree - 1) (show 0 < octaveSpan by decide)
        exact hmod
      · exact absurd h (by simp [complain])

/-- The whole octaves in an interval. -/
def whole (i : Interval) : ℕ := i.semitones / 12

/-- A simple interval other than the octave has less than twelve semitones, and a ratio from `1` to
`243 / 128`. -/
theorem simple_mem {i : SimpleInterval} (h : i ≠ .octave) :
    i.semitones < 12 ∧ 1 ≤ i.ratio ∧ i.ratio ≤ 243 / 128 := by
  cases i <;> first | exact absurd rfl h | norm_num [SimpleInterval.semitones, SimpleInterval.ratio]

/-- A reduced interval is the octave itself, or `i.whole = i.octaves` and its ratio is at most
`243 / 128` above them. -/
theorem Reduced.whole_cases {i : Interval} (h : i.Reduced) :
    (i.octaves = 0 ∧ i.whole = 1 ∧ i.ratio = 2) ∨
      (i.whole = i.octaves ∧ 2 ^ i.octaves ≤ i.ratio ∧ i.ratio ≤ 243 / 128 * 2 ^ i.octaves) := by
  by_cases hs : i.simple = .octave
  · refine .inl ⟨h hs, ?_, ?_⟩
    · rw [whole, semitones, hs, h hs]
      rfl
    · rw [ratio, hs, h hs, pow_zero, mul_one]
      rfl
  · obtain ⟨hsemitones, hlow, hhigh⟩ := simple_mem hs
    refine .inr ⟨?_, ?_, ?_⟩
    · rw [whole, semitones]
      omega
    · exact le_mul_of_one_le_left (by positivity) hlow
    · exact mul_le_mul_of_nonneg_right hhigh (by positivity)

/-- The ratio of a reduced interval is from `2 ^ i.whole` to `243 / 128 * 2 ^ i.whole`. -/
theorem Reduced.ratio_mem {i : Interval} (h : i.Reduced) :
    2 ^ i.whole ≤ i.ratio ∧ i.ratio ≤ 243 / 128 * 2 ^ i.whole := by
  rcases h.whole_cases with ⟨-, hw, hr⟩ | ⟨hw, hlow, hhigh⟩
  · rw [hw, hr]
    norm_num
  · rw [hw]
    exact ⟨hlow, hhigh⟩

/-- `i.ratio < overflowBound` below 1024 octaves. -/
theorem Reduced.ratio_lt {i : Interval} (h : i.Reduced) (hi : i.octaves < 1024) :
    i.ratio < overflowBound := by
  have hwhole : i.whole ≤ 1023 := by
    rcases h.whole_cases with ⟨-, hw, -⟩ | ⟨hw, -, -⟩
    · omega
    · omega
  have hpow : (2 : ℚ) ^ 1023 = 2 ^ 52 * 2 ^ (971 : ℤ) := by
    rw [show 1023 = 52 + 971 from rfl, pow_add]
    rfl
  calc i.ratio ≤ 243 / 128 * 2 ^ i.whole := h.ratio_mem.2
    _ ≤ 243 / 128 * 2 ^ 1023 := by
        refine mul_le_mul_of_nonneg_left ?_ (by norm_num)
        exact pow_le_pow_right₀ one_le_two hwhole
    _ = 243 / 128 * 2 ^ 52 * 2 ^ (971 : ℤ) := by rw [hpow, mul_assoc]
    _ < (2 ^ 53 - 1 / 2) * 2 ^ (971 : ℤ) := by
        refine mul_lt_mul_of_pos_right ?_ (by positivity)
        norm_num
    _ = overflowBound := overflowBound_eq.symm

/-- **A reduced interval below 1024 octaves has both ratios**, `frequencyRatio` and `temperedRatio`,
and both lie in the octave `i.whole`. -/
theorem Reduced.exists_ratios {i : Interval} (h : i.Reduced) (hi : i.octaves < 1024) :
    ∃ r t, i.frequencyRatio = .ok r ∧ i.temperedRatio = .ok t ∧ Between r i.whole ∧
      Between t i.whole := by
  have hsemitones : i.semitones < 12288 := by
    rcases h.whole_cases with ⟨-, hw, -⟩ | ⟨hw, -, -⟩
    · rw [whole] at hw
      omega
    · rw [whole] at hw
      omega
  obtain ⟨t, ht, hbetween⟩ := exists_semitonePower_between hsemitones
  obtain ⟨r, hr, hfinite, hrounds⟩ := exists_ofRat? (q := i.ratio) (by
    rw [abs_of_pos i.ratio_pos]
    exact h.ratio_lt hi)
  obtain ⟨hlow, hhigh⟩ := h.ratio_mem
  have hpower (w : ℕ) : ∃ p, value p = 2 ^ w := by
    obtain ⟨p, hp⟩ := exists_value_eq (m := 1) (e := w) (by norm_num) (by omega)
    exact ⟨p, by rw [hp, Nat.cast_one, one_mul, zpow_natCast]⟩
  refine ⟨r, t, ?_, ht, ⟨hfinite, ?_, ?_⟩, hbetween⟩
  · rw [frequencyRatio, if_neg (by omega), hr]
  · obtain ⟨p, hp⟩ := hpower i.whole
    rw [← hp] at hlow ⊢
    exact hrounds.value_le_toRat hfinite hlow
  · obtain ⟨p, hp⟩ := hpower (i.whole + 1)
    rw [← hp]
    refine hrounds.toRat_le_value hfinite (hhigh.trans ?_)
    rw [hp, pow_succ, mul_comm]
    refine mul_le_mul_of_nonneg_left ?_ (by positivity)
    norm_num

/-- **`i.frequencyRatio = .error .overflow` from 1024 octaves on.** -/
theorem Reduced.frequencyRatio_eq_error {i : Interval} (h : i.Reduced) (hi : 1024 ≤ i.octaves) :
    i.frequencyRatio = .error .overflow := by
  have hnone : ofRat? i.ratio = none := by
    refine ofRat?_eq_none ?_
    rw [abs_of_pos i.ratio_pos]
    rcases h.whole_cases with ⟨hzero, -, -⟩ | ⟨-, hlow, -⟩
    · omega
    · calc overflowBound ≤ 2 ^ 1024 := sub_le_self _ (by positivity)
        _ ≤ 2 ^ i.octaves := pow_le_pow_right₀ one_le_two hi
        _ ≤ i.ratio := hlow
  rw [frequencyRatio, hnone, ite_self]

end Interval

end Monochord
