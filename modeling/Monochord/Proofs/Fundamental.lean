import Monochord.Proofs.Binary64.Underflow
import Monochord.Proofs.Resolution

/-! # Which fundamentals have a frequency

A fundamental is a note name or a number. A number is accepted only if it is finite and positive,
but the frequency of a note is taken as it comes: high up it is beyond every double, and far down it
is rounded to zero.

* **`IsUsable`** — a frequency that is finite and positive.
* **`frequencyAbove`** — the frequency at some semitones from the reference pitch;
  **`isUsable_frequencyAbove_iff`**: where it is usable.
* **`Value.IsFundamental`**, **`Value.Resolves`** — the values that stand for a fundamental, and
  what should become of every value.
* **`Value.resolves_text_iff`**, **`Value.resolves_int_iff`**, **`Value.resolves_float`** — which texts
  and numbers are resolved as they should be.
* **`Value.InRange`**, **`resolves_iff`** — this for all values. -/

namespace Monochord

open Binary64 Text

/-! ## Frequencies -/

/-- A frequency that can be used: a finite positive double. -/
def IsUsable (r : Except Failure Float) : Prop := ∃ x, r = .ok x ∧ x.isFinite = true ∧ 0.0 < x

@[simp] theorem isUsable_ok {x : Float} :
    IsUsable (.ok x) ↔ x.isFinite = true ∧ 0.0 < x := by
  simp [IsUsable]

@[simp] theorem not_isUsable_error {e : Failure} : ¬IsUsable (.error e) := by
  simp [IsUsable]

instance : DecidablePred IsUsable := fun r =>
  match r with
  | .ok _ => decidable_of_iff _ isUsable_ok.symm
  | .error _ => isFalse not_isUsable_error

/-- The frequency at a number of semitones from the reference pitch. -/
def frequencyAbove (n : ℤ) : Except Failure Float := do
  return referenceFrequency * (← semitonePower n)

/-- If `noteSemitones note = .ok n`, then `noteFrequency note = frequencyAbove n`, unless the octave
has too many digits. -/
theorem noteFrequency_of_semitones {note : String} {n : ℤ} (h : noteSemitones note = .ok n) :
    noteFrequency note =
      if exceedsDigitLimit note.toList then .error .tooManyDigits else frequencyAbove n := by
  rw [noteFrequency_eq, h]
  rfl

/-- `toRat referenceFrequency = 440`. -/
theorem toRat_referenceFrequency :
    referenceFrequency.isFinite = true ∧ toRat referenceFrequency = 440 := by
  have hpattern : pattern referenceFrequency = 1031 * 2 ^ 52 + 440 * 2 ^ 44 - 2 ^ 52 := rfl
  have hm : mantissa (pattern referenceFrequency) = 440 * 2 ^ 44 := rfl
  have hs : scale (pattern referenceFrequency) = -44 := rfl
  have hsign : isNegative referenceFrequency = false := by decide
  refine ⟨by decide, ?_⟩
  rw [toRat, hsign, if_neg Bool.false_ne_true, value, hm, hs]
  norm_num

/-- `referenceFrequency * r` is `440 * toRat r`, rounded. -/
theorem rounds_frequency {r : Float} (hr : r.isFinite = true) :
    Rounds (440 * toRat r) (referenceFrequency * r) := by
  obtain ⟨hfinite, hrat⟩ := toRat_referenceFrequency
  rw [← hrat]
  exact rounds_mul hfinite hr

/-- `0.0 < referenceFrequency * r` for a positive ratio. -/
theorem zero_lt_frequency {r : Float} (hr : r.isFinite = true) (hpos : 0 < toRat r) :
    0.0 < referenceFrequency * r := by
  have hpattern : 0 < pattern r := ((zero_lt_iff (isFinite_iff.1 hr)).1 ((toRat_pos hr).2 hpos)).2
  refine (rounds_frequency hr).zero_lt hpattern ?_
  rw [← abs_toRat, abs_of_pos hpos]
  linarith

/-- `referenceFrequency * r` is finite exactly if `440 * toRat r < overflowBound`. -/
theorem isFinite_frequency_iff {r : Float} (hr : r.isFinite = true) (hpos : 0 ≤ toRat r) :
    (referenceFrequency * r).isFinite = true ↔ 440 * toRat r < overflowBound := by
  rw [(rounds_frequency hr).isFinite_iff, abs_of_nonneg (by positivity)]

/-! ## The range of notes -/

/-- **`semitonePower n` is zero for `n ≤ -12900`**, from 1075 octaves downwards. -/
theorem semitonePower_eq_zero {n : ℤ} {r : Float} (hn : n ≤ -12900)
    (h : semitonePower n = .ok r) : toRat r = 0 := by
  obtain ⟨x, hx, hrounds, hpower⟩ := exists_exponent h
  obtain ⟨t, ht⟩ := exists_value_eq (m := 1075) (e := 0) (by norm_num) (by norm_num)
  have hcast : (n : ℚ) ≤ -12900 := by exact_mod_cast hn
  norm_num at ht
  refine exp2?_eq_zero hx ?_ hpower
  rw [← ht]
  refine hrounds.toRat_le_neg_value hx (pos_of_value_pos (by rw [ht]; norm_num)) ?_
  rw [ht, div_le_iff₀ (by norm_num)]
  linarith

/-- **`semitonePower n` is positive for `-12888 ≤ n`**, and not above one for `n < 0`. -/
theorem semitonePower_mem_of_neg {n : ℤ} {r : Float} (hlow : -12888 ≤ n) (hneg : n < 0)
    (h : semitonePower n = .ok r) : 0 < toRat r ∧ toRat r ≤ 1 := by
  obtain ⟨x, hx, hrounds, hpower⟩ := exists_exponent h
  have hxlow : -1074 ≤ toRat x := by
    obtain ⟨t, ht⟩ := exists_value_eq (m := 1074) (e := 0) (by norm_num) (by norm_num)
    have hn : (-12888 : ℚ) ≤ n := by exact_mod_cast hlow
    norm_num at ht
    rw [← ht]
    refine hrounds.neg_value_le_toRat hx ?_
    rw [ht, le_div_iff₀ (by norm_num)]
    linarith
  have hxneg : toRat x < 0 := by
    -- a twelfth of a negative integer is not near zero
    obtain ⟨t, ht⟩ := exists_value_eq (m := 1) (e := -4) (by norm_num) (by norm_num)
    have hn : (n : ℚ) ≤ -1 := by exact_mod_cast Int.le_sub_one_of_lt hneg
    norm_num at ht
    have hle := hrounds.toRat_le_neg_value hx (pos_of_value_pos (by rw [ht]; norm_num)) (by
      rw [ht, div_le_iff₀ (by norm_num)]
      linarith)
    rw [ht] at hle
    linarith
  exact ⟨exp2?_pos hx hxneg hxlow hpower, exp2?_le_one hx hxneg hpower⟩

/-- `frequencyAbove n` is usable exactly if `referenceFrequency * r` is finite and positive, if
`semitonePower n = .ok r`. -/
theorem isUsable_frequencyAbove_of_ok {n : ℤ} {r : Float} (h : semitonePower n = .ok r) :
    IsUsable (frequencyAbove n) ↔
      (referenceFrequency * r).isFinite = true ∧ 0.0 < referenceFrequency * r := by
  rw [frequencyAbove, h]
  exact isUsable_ok

/-- `frequencyAbove n` is not usable for `n ≤ -12900`, from 1075 octaves downwards. -/
theorem not_isUsable_of_le {n : ℤ} (hn : n ≤ -12900) : ¬IsUsable (frequencyAbove n) := by
  cases h : semitonePower n with
  | error e =>
    rw [frequencyAbove, h]
    exact not_isUsable_error
  | ok r =>
    have hrounds := rounds_frequency (semitonePower_nonneg h).1
    rw [semitonePower_eq_zero hn h, mul_zero] at hrounds
    have hfinite : (referenceFrequency * r).isFinite = true := by
      rw [hrounds.isFinite_iff, abs_zero]
      exact overflowBound_pos
    rw [isUsable_frequencyAbove_of_ok h, toRat_pos hfinite, toRat_eq_zero hrounds.pattern_eq_zero]
    exact fun hpos => lt_irrefl 0 hpos.2

/-- `frequencyAbove n` is usable for `-12888 ≤ n < 0`, down to 1074 octaves. -/
theorem isUsable_of_neg {n : ℤ} (hlow : -12888 ≤ n) (hneg : n < 0) :
    IsUsable (frequencyAbove n) := by
  have hbound : -overflowBound < (n : ℚ) / 12 := by
    have hn : (-12888 : ℚ) ≤ n := by exact_mod_cast hlow
    have hlarge := two_pow_lt_overflowBound (show 11 ≤ 1023 by decide)
    rw [lt_div_iff₀ (by norm_num)]
    norm_num at hlarge
    linarith
  obtain ⟨r, h⟩ := exists_semitonePower hbound (by omega)
  obtain ⟨hpos, hle⟩ := semitonePower_mem_of_neg hlow hneg h
  have hfinite := (semitonePower_nonneg h).1
  rw [isUsable_frequencyAbove_of_ok h, isFinite_frequency_iff hfinite hpos.le]
  refine ⟨?_, zero_lt_frequency hfinite hpos⟩
  calc 440 * toRat r ≤ 2 ^ 9 := by linarith
    _ < overflowBound := two_pow_lt_overflowBound (by decide)

/-- `frequencyAbove n` is usable for `0 ≤ n < 12180`, up to 1015 octaves. -/
theorem isUsable_of_nonneg {n : ℕ} (hn : n < 12180) : IsUsable (frequencyAbove n) := by
  obtain ⟨r, h, hbetween⟩ := exists_semitonePower_between (show n < 12288 by omega)
  have hpos : 0 < toRat r := lt_of_lt_of_le (by positivity) hbetween.le
  rw [isUsable_frequencyAbove_of_ok h, isFinite_frequency_iff hbetween.finite hpos.le]
  refine ⟨?_, zero_lt_frequency hbetween.finite hpos⟩
  have hpow : (2 : ℚ) ^ (n / 12 + 1) ≤ 2 ^ 1015 := pow_le_pow_right₀ one_le_two (by omega)
  -- the product is below seven eighths of the power after the last one that is a double
  have hsplit : (2 : ℚ) ^ 1015 = 2 ^ 970 * 2 ^ 45 := by rw [← pow_add]
  have hwhole : (2 : ℚ) ^ 1024 = 2 ^ 970 * 2 ^ 54 := by rw [← pow_add]
  have hle := hbetween.le_succ.trans hpow
  have hunit : (0 : ℚ) < 2 ^ 970 := by positivity
  rw [hsplit] at hle
  rw [overflowBound, hwhole]
  generalize (2 : ℚ) ^ 970 = unit at hle hunit ⊢
  linarith only [hle, hunit]

/-- `frequencyAbove n` is not usable for `12192 ≤ n`, from 1016 octaves upwards. -/
theorem not_isUsable_of_ge {n : ℤ} (hn : 12192 ≤ n) : ¬IsUsable (frequencyAbove n) := by
  by_cases hlarge : 12288 ≤ n
  · rw [frequencyAbove, semitonePower_eq_error (.inl hlarge)]
    exact not_isUsable_error
  · obtain ⟨k, rfl⟩ := Int.eq_ofNat_of_zero_le (show 0 ≤ n by omega)
    obtain ⟨r, h, hbetween⟩ := exists_semitonePower_between (show k < 12288 by omega)
    have hpos : 0 < toRat r := lt_of_lt_of_le (by positivity) hbetween.le
    rw [isUsable_frequencyAbove_of_ok h, isFinite_frequency_iff hbetween.finite hpos.le]
    rintro ⟨hlt, -⟩
    have hpow : (2 : ℚ) ^ 1016 ≤ 2 ^ (k / 12) := pow_le_pow_right₀ one_le_two (by omega)
    have hsplit : (2 : ℚ) ^ 1016 * 2 ^ 8 = 2 ^ 1024 := by rw [← pow_add]
    have hbound : overflowBound ≤ 2 ^ 1024 := sub_le_self _ (by positivity)
    have hle := hpow.trans hbetween.le
    have hunit : (0 : ℚ) < 2 ^ 1016 := by positivity
    rw [← hsplit] at hbound
    generalize (2 : ℚ) ^ 1016 = unit at hle hunit hbound
    linarith only [hle, hunit, hbound, hlt]

/-- In the octave in which the ratio becomes zero, the eleven frequencies above `-12900` are checked
one by one. -/
theorem isUsable_lowest : ∀ k : Fin 11, IsUsable (frequencyAbove (-12899 + (k : ℕ))) := by
  decide +kernel

/-- In the octave in which the frequency leaves the range of doubles, three of twelve are usable. -/
theorem isUsable_highest_iff :
    ∀ k : Fin 12, IsUsable (frequencyAbove (12180 + (k : ℕ))) ↔ (k : ℕ) < 3 := by
  decide +kernel

/-- **`frequencyAbove n` is usable exactly if `-12900 < n < 12183`**: from a semitone above 1075
octaves below the reference pitch up to two semitones above 1015 octaves over it. -/
theorem isUsable_frequencyAbove_iff {n : ℤ} :
    IsUsable (frequencyAbove n) ↔ -12900 < n ∧ n < 12183 := by
  rcases le_or_gt n (-12900) with hn | hn
  · exact iff_of_false (not_isUsable_of_le hn) (by omega)
  rcases lt_or_ge n (-12888) with hn' | hn'
  · obtain ⟨k, hk⟩ := Int.eq_ofNat_of_zero_le (show 0 ≤ n + 12899 by omega)
    have husable := isUsable_lowest ⟨k, by omega⟩
    rw [show -12899 + ((k : ℕ) : ℤ) = n by omega] at husable
    exact iff_of_true husable (by omega)
  rcases lt_or_ge n 0 with hneg | hnonneg
  · exact iff_of_true (isUsable_of_neg hn' hneg) (by omega)
  rcases lt_or_ge n 12180 with hlow | hhigh
  · obtain ⟨k, rfl⟩ := Int.eq_ofNat_of_zero_le hnonneg
    exact iff_of_true (isUsable_of_nonneg (by omega)) (by omega)
  rcases lt_or_ge n 12192 with hlast | hlast
  · obtain ⟨k, hk⟩ := Int.eq_ofNat_of_zero_le (show 0 ≤ n - 12180 by omega)
    have husable := isUsable_highest_iff ⟨k, by omega⟩
    rw [show 12180 + ((k : ℕ) : ℤ) = n by omega] at husable
    rw [husable]
    dsimp only
    omega
  · exact iff_of_false (not_isUsable_of_ge hlast) (by omega)

/-! ## What should become of a value -/

/-- A value that stands for a fundamental: a note name, a text with a finite positive number at its
start, or a finite positive number that is not beyond the range of doubles. -/
def Value.IsFundamental : Value → Prop
  | .text s => (∃ n, noteSemitones s = .ok n) ∨ Accepted (leadingNumber? s)
  | .quantity q => ∃ r, q.value? = some r ∧ 0 < r ∧ r < overflowBound
  | _ => False

/-- A text or a number as messages show it. -/
def Value.shown : Value → String
  | .text s => s
  | .quantity q => q.text
  | _ => ""

/-- **What should become of a value**: it has a usable frequency if it stands for a fundamental, and
any other value is complained about as the text that shows it. -/
def Value.Resolves (v : Value) : Prop :=
  v.IsFundamental ∧ IsUsable (fundamentalFrequency v) ∨
    ¬v.IsFundamental ∧ fundamentalFrequency v =
      .error (.diagnosed (Cause.fundamentalInvalid v.shown).diagnostic)

/-- `acceptFrequency shown x` is usable if `Accepted x`, and otherwise a complaint. -/
theorem acceptFrequency_cases (shown : String) (x : Option Float) :
    Accepted x ∧ IsUsable (acceptFrequency shown x) ∨
      ¬Accepted x ∧ acceptFrequency shown x =
        .error (.diagnosed (Cause.fundamentalInvalid shown).diagnostic) := by
  cases x with
  | none => exact .inr ⟨fun ⟨y, hy, _⟩ => absurd hy (by simp), rfl⟩
  | some y =>
    by_cases h : y.isFinite = true ∧ 0.0 < y
    · have haccept : acceptFrequency shown (some y) = .ok y := if_pos (by simpa using h)
      exact .inl ⟨⟨y, rfl, h⟩, haccept ▸ isUsable_ok.2 h⟩
    · refine .inr ⟨?_, if_neg (by simpa using h)⟩
      rintro ⟨z, hz, hgood⟩
      obtain rfl := Option.some.inj hz
      exact h hgood

/-- If `fundamentalFrequency v` is `acceptFrequency` of a number, then `v.Resolves` if
`v.IsFundamental` exactly when that number is accepted. -/
theorem Value.resolves_of_accepted_iff {v : Value} {x : Option Float}
    (h : fundamentalFrequency v = acceptFrequency v.shown x)
    (hx : v.IsFundamental ↔ Accepted x) : v.Resolves := by
  rw [Resolves, h, hx]
  exact acceptFrequency_cases v.shown x

/-! ## Texts -/

/-- `frequencyAbove` fails with `.overflow` only, which is no complaint. -/
theorem frequencyAbove_eq_error {n : ℤ} {e : Failure} (h : frequencyAbove n = .error e) :
    e = .overflow := by
  rcases bind_eq_error_iff.1 h with h | ⟨r, -, h⟩
  · rcases bind_eq_error_iff.1 h with h | ⟨x, -, h⟩
    · rw [div_twelve] at h
      cases hx : ofRat? ((n : ℚ) / 12) with
      | none =>
        rw [hx] at h
        exact (Except.error.inj h).symm
      | some x =>
        rw [hx] at h
        exact absurd h (by simp)
    · rw [power] at h
      split at h
      · exact absurd h (by simp)
      · exact (Except.error.inj h).symm
  · exact absurd h (by simp)

/-- `fundamentalOfText s = noteFrequency s` for a note name: its frequency is not checked any
further. -/
theorem fundamentalOfText_of_semitones {s : String} {n : ℤ} (h : noteSemitones s = .ok n) :
    fundamentalOfText s = noteFrequency s := by
  rw [fundamentalOfText, noteFrequency_of_semitones h]
  split
  · next x hx => exact hx.symm
  · next d hd =>
    split at hd
    · exact absurd hd (by simp)
    · exact absurd (frequencyAbove_eq_error hd) (by simp)
  · next e he => exact he.symm

/-- **`(Value.text s).Resolves` unless `s` names a note out of range**, or its octave has too many
digits. -/
theorem Value.resolves_text_iff {s : String} :
    (Value.text s).Resolves ↔ ∀ n, noteSemitones s = .ok n →
      exceedsDigitLimit s.toList = false ∧ -12900 < n ∧ n < 12183 := by
  cases hn : noteSemitones s with
  | error d =>
    refine iff_of_true (resolves_of_accepted_iff (x := leadingNumber? s) ?_ ?_) ?_
    · rw [fundamentalFrequency, fundamentalOfText, noteFrequency_eq, hn]
      rfl
    · rw [IsFundamental, hn]
      simp
    · exact fun n h => absurd h (by simp)
  | ok n =>
    have hname : (Value.text s).IsFundamental := .inl ⟨n, hn⟩
    rw [Resolves, fundamentalFrequency, fundamentalOfText_of_semitones hn,
      noteFrequency_of_semitones hn]
    simp only [hname, true_and, not_true_eq_false, false_and, or_false, Except.ok.injEq,
      forall_eq']
    cases hdigits : exceedsDigitLimit s.toList with
    | true => simp
    | false => simp [isUsable_frequencyAbove_iff]

/-! ## Numbers -/

/-- An integer is rounded to a positive double exactly if it is positive: `0.0 < x ↔ 0 < n`. -/
theorem zero_lt_of_rounds_int {n : ℤ} {x : Float} (h : Rounds n x) (hx : x.isFinite = true) :
    0.0 < x ↔ 0 < n := by
  constructor
  · intro hpos
    by_contra hle
    have hn : (n : ℚ) ≤ value 0 := by
      rw [value_zero]
      exact_mod_cast not_lt.1 hle
    have hzero := h.toRat_le_value hx hn
    rw [value_zero] at hzero
    exact hzero.not_gt ((toRat_pos hx).1 hpos)
  · intro hpos
    obtain ⟨t, ht⟩ := exists_value_eq (m := 1) (e := 0) (by norm_num) (by norm_num)
    norm_num at ht
    refine h.zero_lt (pos_of_value_pos (by rw [ht]; exact one_pos)) ?_
    rw [ht]
    exact_mod_cast hpos

/-- `(Value.quantity q).Resolves` if `q` counts as an integer below `overflowBound`. -/
theorem Value.resolves_of_number_int {q : Quantity} {n : ℤ} (hq : q.number = .ok (.int n))
    (hbound : |(n : ℚ)| < overflowBound) : (Value.quantity q).Resolves := by
  obtain ⟨x, hx, hfinite, hrounds⟩ := Number.exists_toFloat (a := .int n) rfl hbound
  have hpos := zero_lt_of_rounds_int hrounds hfinite
  have hvalue : q.value? = some (n : ℚ) :=
    Quantity.value?_eq_some_iff.2 ⟨.int n, hq, rfl⟩
  refine resolves_of_accepted_iff (x := some x) ?_ ?_
  · rw [fundamentalFrequency, hq, ok_bind, hx, ok_bind]
    rfl
  · constructor
    · rintro ⟨r, hr, h0, -⟩
      obtain rfl := Option.some.inj (hvalue.symm.trans hr)
      exact ⟨x, rfl, hfinite, hpos.2 (by exact_mod_cast h0)⟩
    · rintro ⟨y, hy, -, h0⟩
      obtain rfl := Option.some.inj hy
      exact ⟨n, hvalue, by exact_mod_cast hpos.1 h0, (abs_lt.1 hbound).2⟩

/-- **`(Value.quantity (.int n)).Resolves` exactly if `|n| < overflowBound`.** -/
theorem Value.resolves_int_iff {n : ℤ} :
    (Value.quantity (.int n)).Resolves ↔ |(n : ℚ)| < overflowBound := by
  by_cases hbound : |(n : ℚ)| < overflowBound
  · exact iff_of_true (resolves_of_number_int rfl hbound) hbound
  · refine iff_of_false ?_ hbound
    rw [Resolves, fundamentalFrequency, Quantity.number, ok_bind,
      Number.toFloat_int_eq_error (not_lt.1 hbound)]
    simp

/-- `(Value.quantity (.truth b)).Resolves`, since `b` counts as an integer. -/
theorem Value.resolves_truth (b : Bool) : (Value.quantity (.truth b)).Resolves := by
  refine resolves_of_number_int rfl ?_
  have hone : (1 : ℚ) < overflowBound := two_pow_lt_overflowBound (k := 0) (by decide)
  cases b with
  | false => simpa using overflowBound_pos
  | true => simpa using hone

/-- **`(Value.quantity (.float x)).Resolves` for every double.** -/
theorem Value.resolves_float (x : Float) : (Value.quantity (.float x)).Resolves := by
  refine resolves_of_accepted_iff (x := some x) rfl ?_
  constructor
  · rintro ⟨r, hr, h0, -⟩
    obtain ⟨hfinite, rfl⟩ := Number.value?_float_eq_some_iff.1 hr
    exact ⟨x, rfl, hfinite, (toRat_pos hfinite).2 h0⟩
  · rintro ⟨y, hy, hfinite, h0⟩
    obtain rfl := Option.some.inj hy
    exact ⟨toRat x, Number.value?_float_eq_some_iff.2 ⟨hfinite, rfl⟩, (toRat_pos hfinite).1 h0,
      (abs_lt.1 ((rounds_toRat hfinite).isFinite_iff.1 hfinite)).2⟩

/-! ## All values -/

/-- `v` does not resolve if `fundamentalFrequency v = .error .wrongType`, which is no complaint. -/
theorem Value.not_resolves_of_wrongType {v : Value} (h : fundamentalFrequency v = .error .wrongType)
    (hv : ¬v.IsFundamental) : ¬v.Resolves := by
  rw [Resolves, h]
  simp [hv]

/-- `.absent` is no fundamental. -/
theorem Value.not_isFundamental_absent : ¬(Value.quantity .absent).IsFundamental := by
  rintro ⟨r, hr, -⟩
  exact absurd hr (by simp [Quantity.value?, Quantity.number])

/-- The values that are not out of range: texts, unless they name a note whose octave has too many
digits or whose frequency is rounded to zero or to infinity; integers in the range of doubles; all
doubles and truth values. What is neither a text nor a number has no range. -/
def Value.InRange : Value → Prop
  | .text s => ∀ n, noteSemitones s = .ok n →
    exceedsDigitLimit s.toList = false ∧ -12900 < n ∧ n < 12183
  | .quantity (.int n) => |(n : ℚ)| < 2 ^ 1024 - 2 ^ 970
  | .quantity (.float _) | .quantity (.truth _) => True
  | .quantity .absent | .list _ | .object _ => False

/-- **`v.Resolves` exactly if `v.InRange`.** A value in range has a usable frequency if it is a note
name, a text with a finite positive number at its start, or a finite positive number, and is
complained about otherwise. Out of range are the notes outside `-12900 < n < 12183`, the integers
beyond every double, and what is neither a text nor a number. -/
theorem resolves_iff (v : Value) : v.Resolves ↔ v.InRange := by
  cases v with
  | text s => exact Value.resolves_text_iff
  | quantity q =>
    cases q with
    | absent =>
      exact iff_of_false
        (Value.not_resolves_of_wrongType rfl Value.not_isFundamental_absent) id
    | truth b => exact iff_of_true (Value.resolves_truth b) trivial
    | int n => exact Value.resolves_int_iff
    | float x => exact iff_of_true (Value.resolves_float x) trivial
  | list items => exact iff_of_false (Value.not_resolves_of_wrongType rfl id) id
  | object fields => exact iff_of_false (Value.not_resolves_of_wrongType rfl id) id

/-- The lowest note and the highest one with a usable frequency. -/
theorem resolves_iff_outermost :
    (Value.text "Bb-1071").Resolves ∧ (Value.text "B1019").Resolves := by
  have hlow : noteSemitones "Bb-1071" = .ok (-12899) := by decide
  have hhigh : noteSemitones "B1019" = .ok 12182 := by decide
  constructor
  · refine (resolves_iff _).2 fun n hn => ?_
    obtain rfl := Except.ok.inj (hlow.symm.trans hn)
    exact ⟨by decide, by decide, by decide⟩
  · refine (resolves_iff _).2 fun n hn => ?_
    obtain rfl := Except.ok.inj (hhigh.symm.trans hn)
    exact ⟨by decide, by decide, by decide⟩

/-- A note further down has the frequency zero. For one further up, and for a great integer, the
failure of the arithmetic goes through. -/
theorem not_resolves_distantOctave :
    (fundamentalFrequency (.text "C-9999") = .ok 0.0 ∧
      ¬(Value.text "C-9999").Resolves) ∧
    (fundamentalFrequency (.text "C9999") = .error .overflow ∧
      ¬(Value.text "C9999").Resolves) ∧
    (fundamentalFrequency (.quantity (.int (10 ^ 400))) = .error .overflow ∧
      ¬(Value.quantity (.int (10 ^ 400))).Resolves) := by
  have hlow : noteSemitones "C-9999" = .ok (-120045) := by decide
  have hhigh : noteSemitones "C9999" = .ok 119931 := by decide
  refine ⟨⟨by decide +kernel, fun h => ?_⟩, ⟨by decide +kernel, fun h => ?_⟩, ?_, fun h => ?_⟩
  · exact absurd (Value.resolves_text_iff.1 h _ hlow).2.1 (by decide)
  · exact absurd (Value.resolves_text_iff.1 h _ hhigh).2.2 (by decide)
  · rw [fundamentalFrequency, Quantity.number, ok_bind, Number.toFloat_int_eq_error overflowBound_le_tenPow]
    rfl
  · exact (Value.resolves_int_iff.1 h).not_ge overflowBound_le_tenPow

end Monochord
