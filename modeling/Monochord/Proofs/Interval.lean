import Mathlib.Algebra.Order.Field.Power
import Mathlib.Tactic.FieldSimp
import Mathlib.Tactic.Linarith
import Mathlib.Tactic.NormNum
import Mathlib.Tactic.Ring
import Monochord.Interval
import Monochord.Proofs.Outcome

/-! # Two readings of an interval

An interval symbol is read twice: as an exact ratio in Pythagorean tuning, and as a number of
semitones in equal temperament. Both readings come from one stack of pure fifths and octaves, which
is why they cannot drift apart.

* **`SimpleInterval.fifths`**, **`Interval.twos`** — how often the primes three and two divide a
  ratio; **`Interval.ratio_eq`**, **`Interval.semitones_eq`**: both readings in these terms.
* **`comma`** — what twelve fifths exceed seven octaves by; **`Interval.ratio_pow_twelve`**: by how
  many twelfths of it a ratio misses its semitones.
* **`Interval.semitones_nearest`** — the semitones are the nearest ones to the ratio.
* **`Interval.lt_iff`**, **`Interval.eq_iff`** — both readings put intervals in the same order.
* **`Interval.readings_agree`** — all this for the texts that name intervals. -/

namespace Monochord

/-! ## Fifths and octaves -/

/-- The pure fifths that make up a simple interval, downwards ones counted as negative. -/
def SimpleInterval.fifths : SimpleInterval → ℤ
  | unison => 0
  | minorSecond => -5
  | majorSecond => 2
  | minorThird => -3
  | majorThird => 4
  | perfectFourth => -1
  | tritone => 6
  | perfectFifth => 1
  | minorSixth => -4
  | majorSixth => 3
  | minorSeventh => -2
  | majorSeventh => 5
  | octave => 0

/-- The power of two in the ratio of a simple interval: a fifth takes one factor two away, and the
octaves that bring the stack of fifths back into the scale change it further. -/
def SimpleInterval.twos : SimpleInterval → ℤ
  | unison => 0
  | minorSecond => 8
  | majorSecond => -3
  | minorThird => 5
  | majorThird => -6
  | perfectFourth => 2
  | tritone => -9
  | perfectFifth => -1
  | minorSixth => 7
  | majorSixth => -4
  | minorSeventh => 4
  | majorSeventh => -7
  | octave => 1

/-- `i.fifths` is from `-5` to `6`: the stack of fifths reaches from five downwards to six upwards.
-/
theorem SimpleInterval.fifths_mem (i : SimpleInterval) : -5 ≤ i.fifths ∧ i.fifths ≤ 6 := by
  cases i <;> decide

/-- `i.ratio = 2 ^ i.twos * 3 ^ i.fifths` for a simple interval. -/
theorem SimpleInterval.ratio_eq (i : SimpleInterval) : i.ratio = 2 ^ i.twos * 3 ^ i.fifths := by
  cases i <;> norm_num [ratio, twos, fifths]

/-- `i.semitones = 12 * i.twos + 19 * i.fifths` for a simple interval. -/
theorem SimpleInterval.semitones_eq (i : SimpleInterval) :
    (i.semitones : ℤ) = 12 * i.twos + 19 * i.fifths := by
  cases i <;> rfl

namespace Interval

/-- The power of two in the ratio of an interval. -/
def twos (i : Interval) : ℤ := i.simple.twos + i.octaves

/-- **`i.ratio = 2 ^ i.twos * 3 ^ i.simple.fifths`**: the ratio of an interval has no prime factors
but two and three. -/
theorem ratio_eq (i : Interval) : i.ratio = 2 ^ i.twos * 3 ^ i.simple.fifths := by
  have hpow : i.ratio = i.simple.ratio * 2 ^ i.octaves := rfl
  rw [hpow, i.simple.ratio_eq, twos, zpow_add₀ two_ne_zero, zpow_natCast]
  ring

/-- **`i.semitones = 12 * i.twos + 19 * i.simple.fifths`**: a factor two is twelve semitones, and a
factor three is nineteen. -/
theorem semitones_eq (i : Interval) :
    (i.semitones : ℤ) = 12 * i.twos + 19 * i.simple.fifths := by
  have hsimple := i.simple.semitones_eq
  rw [semitones, twos]
  push_cast
  omega

/-- `0 < i.ratio`. -/
theorem ratio_pos (i : Interval) : 0 < i.ratio := by
  rw [ratio_eq]
  positivity

end Interval

/-! ## The comma -/

/-- The Pythagorean comma: twelve fifths over seven octaves. -/
def comma : ℚ := 3 ^ 12 / 2 ^ 19

/-- `comma ^ 12 < 2`: twelve commas are less than an octave. -/
theorem comma_pow_lt : comma ^ 12 < 2 := by
  rw [comma]
  norm_num

/-- `1 < comma`. -/
theorem one_lt_comma : 1 < comma := by
  rw [comma]
  norm_num

/-- `comma ^ n` stays inside an octave in either direction for `-12 ≤ n ≤ 12`. -/
theorem comma_zpow_mem {n : ℤ} (hlow : -12 ≤ n) (hhigh : n ≤ 12) :
    2⁻¹ < comma ^ n ∧ comma ^ n < 2 := by
  have hpos : 0 < comma := one_pos.trans one_lt_comma
  have htwelve : comma ^ (12 : ℤ) < 2 := by exact_mod_cast comma_pow_lt
  constructor
  · calc (2 : ℚ)⁻¹ < (comma ^ (12 : ℤ))⁻¹ := by
          rw [inv_lt_inv₀ two_pos (by positivity)]
          exact htwelve
      _ = comma ^ (-12 : ℤ) := (zpow_neg comma 12).symm
      _ ≤ comma ^ n := zpow_le_zpow_right₀ one_lt_comma.le hlow
  · exact (zpow_le_zpow_right₀ one_lt_comma.le hhigh).trans_lt htwelve

namespace Interval

/-- **`i.ratio ^ 12 = 2 ^ i.semitones * comma ^ i.simple.fifths`**: twelve times an interval is its
semitones in octaves, and a comma for each fifth. -/
theorem ratio_pow_twelve (i : Interval) :
    i.ratio ^ 12 = 2 ^ i.semitones * comma ^ i.simple.fifths := by
  have hoctaves : (2 : ℚ) ^ i.semitones = 2 ^ (12 * i.twos + 19 * i.simple.fifths) := by
    rw [← i.semitones_eq, zpow_natCast]
  rw [hoctaves, ratio_eq, comma, mul_pow, div_zpow, zpow_add₀ two_ne_zero, ← zpow_natCast,
    ← zpow_natCast, ← zpow_natCast, ← zpow_natCast, ← zpow_mul, ← zpow_mul, ← zpow_mul,
    ← zpow_mul]
  push_cast
  rw [mul_comm i.twos, mul_comm i.simple.fifths]
  field_simp

/-- **`i.semitones` are the nearest ones to `i.ratio`**: twenty-four times the interval misses twice
its semitones by less than an octave. -/
theorem semitones_nearest (i : Interval) :
    2 ^ (2 * (i.semitones : ℤ) - 1) < i.ratio ^ 24 ∧
      i.ratio ^ 24 < 2 ^ (2 * (i.semitones : ℤ) + 1) := by
  have hpow : i.ratio ^ 24 = 2 ^ (2 * (i.semitones : ℤ)) * comma ^ (2 * i.simple.fifths) := by
    calc i.ratio ^ 24 = (i.ratio ^ 12) ^ 2 := by ring
      _ = _ := by
        rw [ratio_pow_twelve, mul_pow, ← zpow_natCast, ← zpow_natCast, ← zpow_natCast, ← zpow_mul,
          ← zpow_mul, mul_comm (i.semitones : ℤ), mul_comm i.simple.fifths]
        norm_cast
  have hmem := i.simple.fifths_mem
  have hcomma := comma_zpow_mem (n := 2 * i.simple.fifths) (by omega) (by omega)
  rw [hpow, zpow_sub₀ two_ne_zero, zpow_add₀ two_ne_zero, zpow_one, div_eq_mul_inv]
  exact ⟨mul_lt_mul_of_pos_left hcomma.1 (by positivity),
    mul_lt_mul_of_pos_left hcomma.2 (by positivity)⟩

/-! ## Order -/

/-- `i.ratio < j.ratio` if `i.semitones < j.semitones`. -/
theorem ratio_lt_of_semitones_lt {i j : Interval} (h : i.semitones < j.semitones) :
    i.ratio < j.ratio := by
  have hstep : 2 * (i.semitones : ℤ) + 1 ≤ 2 * (j.semitones : ℤ) - 1 := by omega
  have hpow : i.ratio ^ 24 < j.ratio ^ 24 :=
    calc i.ratio ^ 24 < 2 ^ (2 * (i.semitones : ℤ) + 1) := i.semitones_nearest.2
      _ ≤ 2 ^ (2 * (j.semitones : ℤ) - 1) := zpow_le_zpow_right₀ one_le_two hstep
      _ < j.ratio ^ 24 := j.semitones_nearest.1
  exact lt_of_pow_lt_pow_left₀ 24 j.ratio_pos.le hpow

/-- `i.ratio = j.ratio` if `i.semitones = j.semitones`. -/
theorem ratio_eq_of_semitones_eq {i j : Interval} (h : i.semitones = j.semitones) :
    i.ratio = j.ratio := by
  have hi := i.semitones_eq
  have hj := j.semitones_eq
  have himem := i.simple.fifths_mem
  have hjmem := j.simple.fifths_mem
  -- the stacks of fifths differ by a multiple of twelve, and both lie within eleven
  have hfifths : i.simple.fifths = j.simple.fifths := by omega
  have htwos : i.twos = j.twos := by omega
  rw [i.ratio_eq, j.ratio_eq, hfifths, htwos]

/-- **`semitones` and `ratio` put intervals in the same order.** -/
theorem lt_iff (i j : Interval) : i.semitones < j.semitones ↔ i.ratio < j.ratio := by
  refine ⟨ratio_lt_of_semitones_lt, fun h => ?_⟩
  by_contra hle
  rcases (not_lt.1 hle).eq_or_lt with heq | hlt
  · exact h.ne (ratio_eq_of_semitones_eq heq.symm)
  · exact h.not_gt (ratio_lt_of_semitones_lt hlt)

/-- **`semitones` and `ratio` tell the same intervals apart.** -/
theorem eq_iff (i j : Interval) : i.semitones = j.semitones ↔ i.ratio = j.ratio := by
  refine ⟨ratio_eq_of_semitones_eq, fun h => ?_⟩
  by_contra hne
  rcases Ne.lt_or_gt hne with hlt | hlt
  · exact (ratio_lt_of_semitones_lt hlt).ne h
  · exact (ratio_lt_of_semitones_lt hlt).ne' h

/-! ## Texts -/

/-- The exact ratio that a text names. -/
def ratioOf (text : String) : Except Failure ℚ := (read text).map ratio

/-- The semitones that a text names. -/
def semitonesOf (text : String) : Except Failure ℕ := (read text).map semitones

/-- `read` refuses a text with `.tooManyDigits`, or with a complaint of the kind `.invalidInterval`
or `.unknownInterval`. -/
theorem read_eq_error {text : String} {e : Failure} (h : read text = .error e) :
    e = .tooManyDigits ∨ ∃ d, e = .diagnosed d ∧ d.family = .symbol ∧
      (d.kind = .invalidInterval ∨ d.kind = .unknownInterval) := by
  unfold read at h
  split at h
  · exact .inl (Except.error.inj h).symm
  refine .inr ?_
  -- the three complaints about a symbol, one after another
  unfold ofSymbol ofTrimmed at h
  split at h
  · exact ⟨_, (Except.error.inj h).symm, rfl, .inl rfl⟩
  · split at h
    · split at h
      · exact absurd h (by simp)
      · exact ⟨_, (Except.error.inj h).symm, rfl, .inr rfl⟩
    · dsimp only at h
      split at h
      · exact absurd h (by simp)
      · exact ⟨_, (Except.error.inj h).symm, rfl, .inr rfl⟩

/-- If `ratioOf text = .ok r` and `semitonesOf text = .ok s`, then `r` and `s` are those of one
interval. -/
theorem exists_of_ratioOf {text : String} {r : ℚ} {s : ℕ} (hr : ratioOf text = .ok r)
    (hs : semitonesOf text = .ok s) : ∃ i : Interval, i.ratio = r ∧ i.semitones = s := by
  obtain ⟨i, hi, rfl⟩ := map_eq_ok_iff.1 hr
  obtain ⟨j, hj, rfl⟩ := map_eq_ok_iff.1 hs
  rw [hi] at hj
  rw [Except.ok.inj hj]
  exact ⟨j, rfl, rfl⟩

/-- **The two readings of interval symbols never drift apart.** Every text is refused by `ratioOf`
and `semitonesOf` for the same reason, or has both a ratio `r` and semitones `s`. These come from
one stack of at most five fifths downwards or six upwards: `r = 2 ^ a * 3 ^ b` and
`s = 12 * a + 19 * b`, so that `r ^ 12` misses `2 ^ s` by a comma for each fifth, and `s` is the
nearest number of semitones. Any two texts are ordered alike by either reading. -/
theorem readings_agree :
    (∀ text : String,
      (∃ e, ratioOf text = .error e ∧ semitonesOf text = .error e ∧
        (e = .tooManyDigits ∨ ∃ d, e = .diagnosed d ∧ d.family = .symbol ∧
          (d.kind = .invalidInterval ∨ d.kind = .unknownInterval))) ∨
      ∃ (r : ℚ) (s : ℕ), ratioOf text = .ok r ∧ semitonesOf text = .ok s ∧
        (∃ a b : ℤ, -5 ≤ b ∧ b ≤ 6 ∧ r = 2 ^ a * 3 ^ b ∧ (s : ℤ) = 12 * a + 19 * b ∧
          r ^ 12 = 2 ^ s * (3 ^ 12 / 2 ^ 19) ^ b) ∧
        2 ^ (2 * (s : ℤ) - 1) < r ^ 24 ∧ r ^ 24 < 2 ^ (2 * (s : ℤ) + 1)) ∧
    ∀ (t u : String) (r q : ℚ) (m n : ℕ), ratioOf t = .ok r → semitonesOf t = .ok m →
      ratioOf u = .ok q → semitonesOf u = .ok n → (m < n ↔ r < q) ∧ (m = n ↔ r = q) := by
  refine ⟨fun text => ?_, fun t u r q m n hr hm hq hn => ?_⟩
  · cases h : read text with
    | error e =>
      refine .inl ⟨e, ?_, ?_, read_eq_error h⟩
      · rw [ratioOf, h]
        rfl
      · rw [semitonesOf, h]
        rfl
    | ok i =>
      have hmem := i.simple.fifths_mem
      refine .inr ⟨i.ratio, i.semitones, ?_, ?_, ⟨i.twos, i.simple.fifths, hmem.1, hmem.2,
        i.ratio_eq, i.semitones_eq, i.ratio_pow_twelve⟩, i.semitones_nearest⟩
      · rw [ratioOf, h]
        rfl
      · rw [semitonesOf, h]
        rfl
  · obtain ⟨i, rfl, rfl⟩ := exists_of_ratioOf hr hm
    obtain ⟨j, rfl, rfl⟩ := exists_of_ratioOf hq hn
    exact ⟨i.lt_iff j, i.eq_iff j⟩

/-- An augmented fourth lies below the diminished fifth two octaves higher, in either reading. -/
theorem readings_agree_tritone :
    ratioOf "#4" = .ok (729 / 512) ∧ semitonesOf "#4" = .ok 6 ∧
      ratioOf " b19\n" = .ok (729 / 128) ∧ semitonesOf " b19\n" = .ok 30 ∧
      ((6 < 30 ↔ (729 / 512 : ℚ) < 729 / 128) ∧ (6 = 30 ↔ (729 / 512 : ℚ) = 729 / 128)) := by
  have hr : ratioOf "#4" = .ok (729 / 512) := by decide +kernel
  have hm : semitonesOf "#4" = .ok 6 := by decide +kernel
  have hq : ratioOf " b19\n" = .ok (729 / 128) := by decide +kernel
  have hn : semitonesOf " b19\n" = .ok 30 := by decide +kernel
  exact ⟨hr, hm, hq, hn, readings_agree.2 _ _ _ _ _ _ hr hm hq hn⟩

end Interval

end Monochord
