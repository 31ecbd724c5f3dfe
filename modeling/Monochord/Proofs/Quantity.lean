import Monochord.Proofs.Binary64.Exact
import Monochord.Proofs.Outcome
import Monochord.Quantity

/-! # Arithmetic on doubles

Arithmetic on numbers fails where a double has no answer. For doubles it is decided here which
operations succeed.

* **`isFinite_add_half`** — adding one half never leads to infinity.
* **`floorHalfUp_float_eq_ok_iff`** — a double has a nearest integer exactly if it is finite.
* **`Number.value?`**, **`Quantity.value?`** — the rational number that a number is, and that a
  quantity counts as; **`Number.exists_toFloat`**: below the bound it is rounded to a double.
* **`Number.exists_div_int`** — so is the quotient of two integers.
* **`Number.isPositive_and_finite_iff`**, **`Number.isFinite_cases`** — the numbers that are finite
  and positive, and those of which this is not known.
* **`exists_toFloat_int`** — an integer of bounded size is rounded to a bounded double.
* **`isFinite_of_logarithm`** — only positive finite doubles have a finite logarithm. -/

namespace Monochord

open Binary64

/-! ## Adding one half -/

/-- The greatest finite double and one half are below `overflowBound`. -/
theorem value_greatest_add_half : value (infinityPattern - 1) + 1 / 2 < overflowBound := by
  have hlast : (1 : ℚ) < 2 ^ (971 : ℤ) := one_lt_zpow₀ one_lt_two (by norm_num)
  rw [value_greatest, overflowBound_eq]
  generalize (2 : ℚ) ^ (971 : ℤ) = last at hlast ⊢
  norm_num
  linarith only [hlast]

/-- **`x + 0.5` is finite exactly if `x` is.** -/
theorem isFinite_add_half {x : Float} : (x + 0.5).isFinite = true ↔ x.isFinite = true := by
  constructor
  · exact fun h => (isFinite_of_add h).1
  · intro h
    have hhalf : (0.5 : Float).isFinite = true := rfl
    have hrat : |toRat 0.5| = 1 / 2 := by
      have hpattern : pattern 0.5 = ((-1 : ℤ) + 1023).toNat * 2 ^ 52 := rfl
      rw [abs_toRat, hpattern, value_power (by norm_num)]
      norm_num
    have hx : |toRat x| ≤ value (infinityPattern - 1) := by
      rw [abs_toRat]
      exact value_strictMono.monotone (Nat.le_sub_one_of_lt (isFinite_iff.1 h))
    rw [(rounds_add h hhalf).isFinite_iff]
    calc |toRat x + toRat 0.5| ≤ |toRat x| + |toRat 0.5| := abs_add_le _ _
      _ ≤ value (infinityPattern - 1) + 1 / 2 := add_le_add hx hrat.le
      _ < overflowBound := value_greatest_add_half

/-- `floorHalfUp (.float x)` is the integer below `x + 0.5`. -/
theorem floorHalfUp_float (x : Float) :
    floorHalfUp (.float x : Number) = Number.integerOr (x + 0.5) (floor? (x + 0.5)) := rfl

/-- **`floorHalfUp (.float x) = .ok n` exactly if `x` is finite and `n = ⌊toRat (x + 0.5)⌋`.** -/
theorem floorHalfUp_float_eq_ok_iff {x : Float} {n : ℤ} :
    floorHalfUp (.float x : Number) = .ok n ↔
      x.isFinite = true ∧ n = ⌊toRat (x + 0.5)⌋ := by
  rw [floorHalfUp_float]
  constructor
  · intro h
    have hfinite : (x + 0.5).isFinite = true := by
      by_contra hnot
      rw [floor?, if_neg hnot] at h
      exact absurd h (by simp [Number.integerOr])
    rw [floor?_eq hfinite] at h
    exact ⟨isFinite_add_half.1 hfinite, (Except.ok.inj h).symm⟩
  · rintro ⟨hx, rfl⟩
    rw [floor?_eq (isFinite_add_half.2 hx)]
    rfl

/-! ## Rational numbers -/

/-- The rational number that a number is. Infinities and what is not a number are none. -/
def Number.value? : Number → Option ℚ
  | .int n => some n
  | .float x => if x.isFinite then some (toRat x) else none

/-- The rational number that a quantity counts as. -/
def Quantity.value? (q : Quantity) : Option ℚ :=
  match q.number with
  | .ok a => a.value?
  | .error _ => none

/-- `q.value? = some r` exactly if `q.number = .ok a` with `a.value? = some r`. -/
theorem Quantity.value?_eq_some_iff {q : Quantity} {r : ℚ} :
    q.value? = some r ↔ ∃ a, q.number = .ok a ∧ a.value? = some r := by
  rw [value?]
  cases q.number with
  | error f => simp
  | ok a => simp

/-- `(.float x).value? = some r` exactly if `x` is finite and `toRat x = r`. -/
theorem Number.value?_float_eq_some_iff {x : Float} {r : ℚ} :
    (Number.float x).value? = some r ↔ x.isFinite = true ∧ toRat x = r := by
  rw [Number.value?]
  split
  · next hx => simp [hx]
  · next hx => simp [hx]

/-- `ofInt? n = ofRat? n`. -/
theorem ofInt?_eq (n : ℤ) : ofInt? n = ofRat? n := by
  rw [ofInt?, ofRat?, Rat.num_intCast, Rat.den_intCast]

/-- **`a.toFloat` is a finite double with `Rounds r x`**, if `a.value? = some r` and
`|r| < overflowBound`. -/
theorem Number.exists_toFloat {a : Number} {r : ℚ} (h : a.value? = some r)
    (hr : |r| < overflowBound) : ∃ x, a.toFloat = .ok x ∧ x.isFinite = true ∧ Rounds r x := by
  cases a with
  | int n =>
    obtain rfl := Option.some.inj h
    obtain ⟨x, hx, hfinite, hrounds⟩ := exists_ofRat? hr
    refine ⟨x, ?_, hfinite, hrounds⟩
    rw [Number.toFloat, ofInt?_eq, hx]
  | float x =>
    obtain ⟨hfinite, rfl⟩ := value?_float_eq_some_iff.1 h
    exact ⟨x, rfl, hfinite, rounds_toRat hfinite⟩

/-- `(.int n).toFloat = .error .overflow` if `overflowBound ≤ |n|`. -/
theorem Number.toFloat_int_eq_error {n : ℤ} (h : overflowBound ≤ |(n : ℚ)|) :
    (Number.int n).toFloat = .error .overflow := by
  rw [Number.toFloat, ofInt?_eq, ofRat?_eq_none h]

/-- `(.int a).div (.int b)` is `ofRat?` of the quotient in ℚ, if `0 < b`. -/
theorem Number.div_int (a : ℤ) {b : ℤ} (hb : 0 < b) : (Number.int a).div (.int b) =
    (ofRat? ((a : ℚ) / b)).elim (.error .overflow) .ok := by
  obtain ⟨n, rfl⟩ := Int.eq_ofNat_of_zero_le hb.le
  have hrat : mkRat (a * (n : ℤ).sign) (n : ℤ).natAbs = (a : ℚ) / (n : ℤ) := by
    rw [Int.sign_eq_one_of_pos hb, mul_one, Int.natAbs_natCast, Rat.mkRat_eq_div, Int.cast_natCast]
  rw [Number.div, if_neg hb.ne', hrat]
  cases ofRat? ((a : ℚ) / (n : ℤ)) <;> rfl

/-- **`(.int a).div (.int b)` is a finite double with `Rounds (a / b) x`**, if
`|a / b| < overflowBound`. -/
theorem Number.exists_div_int {a b : ℤ} (hb : 0 < b) (h : |(a : ℚ) / b| < overflowBound) :
    ∃ x, (Number.int a).div (.int b) = .ok x ∧ x.isFinite = true ∧ Rounds ((a : ℚ) / b) x := by
  obtain ⟨x, hx, hfinite, hrounds⟩ := exists_ofRat? h
  rw [Number.div_int a hb, hx]
  exact ⟨x, rfl, hfinite, hrounds⟩

/-- **`a` is finite and positive exactly if `a.value? = some r` with `0 < r < overflowBound`.** -/
theorem Number.isPositive_and_finite_iff {a : Number} :
    ((∃ x, a.toFloat = .ok x ∧ x.isFinite = true) ∧ a.isPositive = true) ↔
      ∃ r, a.value? = some r ∧ 0 < r ∧ r < overflowBound := by
  cases a with
  | int n =>
    have hpositive : (Number.int n).isPositive = true ↔ (0 : ℚ) < n := by
      rw [Number.isPositive, decide_eq_true_iff, Int.cast_pos]
    rw [hpositive]
    constructor
    · rintro ⟨⟨x, hx, -⟩, hpos⟩
      refine ⟨n, rfl, hpos, ?_⟩
      by_contra hle
      rw [Number.toFloat_int_eq_error ((not_lt.1 hle).trans (le_abs_self _))] at hx
      exact absurd hx (by simp)
    · rintro ⟨r, hr, hpos, hlt⟩
      obtain rfl := Option.some.inj hr
      obtain ⟨x, hx, hfinite, -⟩ := Number.exists_toFloat hr ((abs_of_pos hpos).trans_lt hlt)
      exact ⟨⟨x, hx, hfinite⟩, hpos⟩
  | float x =>
    have hpositive : (Number.float x).isPositive = true ↔ 0.0 < x := decide_eq_true_iff
    rw [hpositive]
    constructor
    · rintro ⟨⟨y, hy, hfinite⟩, hpos⟩
      obtain rfl := Except.ok.inj hy
      have hlt := (rounds_toRat hfinite).isFinite_iff.1 hfinite
      exact ⟨toRat x, value?_float_eq_some_iff.2 ⟨hfinite, rfl⟩, (toRat_pos hfinite).1 hpos,
        (le_abs_self _).trans_lt hlt⟩
    · rintro ⟨r, hr, hpos, -⟩
      obtain ⟨hfinite, rfl⟩ := value?_float_eq_some_iff.1 hr
      exact ⟨⟨x, rfl, hfinite⟩, (toRat_pos hfinite).2 hpos⟩

/-- **Whether a number is finite and positive**: `a.isFinite` overflows for the integers `n` with
`overflowBound ≤ |n|`, and of every other number it is known. -/
theorem Number.isFinite_cases (a : Number) :
    (∃ n, a = .int n ∧ overflowBound ≤ |(n : ℚ)| ∧ a.isFinite = .error .overflow) ∨
      (∀ n, a = .int n → |(n : ℚ)| < overflowBound) ∧ ∃ finite, a.isFinite = .ok finite ∧
        ((finite && a.isPositive) = true ↔ ∃ r, a.value? = some r ∧ 0 < r) := by
  cases a with
  | int n =>
    rcases le_or_gt overflowBound |(n : ℚ)| with hbeyond | hbound
    · refine .inl ⟨n, rfl, hbeyond, ?_⟩
      rw [Number.isFinite, Number.toFloat_int_eq_error hbeyond]
      rfl
    · obtain ⟨x, hx, hfinite, -⟩ := Number.exists_toFloat (a := .int n) rfl hbound
      refine .inr ⟨fun m hm => Number.int.inj hm ▸ hbound, x.isFinite, ?_, ?_⟩
      · rw [Number.isFinite, hx]
        rfl
      · simp [hfinite, Number.isPositive, Number.value?]
  | float x =>
    refine .inr ⟨fun n hn => absurd hn (by simp), x.isFinite, rfl, ?_⟩
    simp only [value?_float_eq_some_iff, Bool.and_eq_true_iff, Number.isPositive, decide_eq_true_iff]
    constructor
    · rintro ⟨hfinite, hpos⟩
      exact ⟨_, ⟨hfinite, rfl⟩, (toRat_pos hfinite).1 hpos⟩
    · rintro ⟨r, ⟨hfinite, rfl⟩, hpos⟩
      exact ⟨hfinite, (toRat_pos hfinite).2 hpos⟩

/-! ## Rounding integers -/

/-- **`(.int n).toFloat = .ok x` with `Within x k` if `|n| ≤ 2 ^ k`.** -/
theorem exists_toFloat_int {n : ℤ} {k : ℕ} (hn : |n| ≤ 2 ^ k) (hk : k ≤ 1023) :
    ∃ x, (Number.int n).toFloat = .ok x ∧ Within x k := by
  have hle : |(n : ℚ)| ≤ 2 ^ k := by exact_mod_cast hn
  obtain ⟨x, hx, -, hrounds⟩ := Number.exists_toFloat (a := .int n) rfl
    (hle.trans_lt (two_pow_lt_overflowBound hk))
  exact ⟨x, hx, hrounds.within hle hk⟩

/-- `toRat x = n` if `(.int n).toFloat = .ok x` and `n < 2 ^ 53`. -/
theorem toRat_of_toFloat {n : ℕ} {x : Float} (h : (Number.int n).toFloat = .ok x)
    (hn : n < 2 ^ 53) : x.isFinite = true ∧ toRat x = n := by
  have hvalue : (Number.int n).value? = some (n : ℚ) := by
    rw [Number.value?, Int.cast_natCast]
  obtain ⟨y, hy, -, hrounds⟩ := Number.exists_toFloat hvalue (natCast_lt_overflowBound hn)
  obtain rfl := Except.ok.inj (h.symm.trans hy)
  exact hrounds.toRat_eq hn

/-! ## Logarithms -/

/-- `logarithm x = .ok (log2 x)` for a positive finite double. -/
theorem logarithm_of_isFinite {x : Float} (hx : x.isFinite = true) (hpos : 0.0 < x) :
    logarithm x = .ok (log2 x) := by
  rw [logarithm, isNaN_of_isFinite hx, if_neg Bool.false_ne_true, if_pos hpos, if_pos hx]

/-- `logarithm x` succeeds exactly if `x` is positive or not a number. -/
theorem exists_logarithm_iff {x : Float} :
    (∃ l, logarithm x = .ok l) ↔ x.isNaN = true ∨ 0.0 < x := by
  unfold logarithm
  by_cases hnan : x.isNaN = true
  · rw [if_pos hnan]
    exact iff_of_true ⟨x, rfl⟩ (.inl hnan)
  · rw [if_neg hnan]
    by_cases hpos : 0.0 < x
    · rw [if_pos hpos]
      exact iff_of_true ⟨_, rfl⟩ (.inr hpos)
    · rw [if_neg hpos]
      refine iff_of_false (fun ⟨l, hl⟩ => absurd hl (by simp)) ?_
      exact fun h => h.elim hnan hpos

/-- **`logarithm x` is finite only if `x` is positive and finite.** -/
theorem isFinite_of_logarithm {x l : Float} (h : logarithm x = .ok l) (hl : l.isFinite = true) :
    x.isFinite = true ∧ 0.0 < x := by
  unfold logarithm at h
  split at h
  · next hnan =>
    rw [← Except.ok.inj h] at hl
    rw [isNaN_of_isFinite hl] at hnan
    exact absurd hnan Bool.false_ne_true
  · split at h
    · next hpos =>
      split at h
      · next hx => exact ⟨hx, hpos⟩
      · next hx =>
        rw [← Except.ok.inj h] at hl
        exact absurd hl hx
    · exact absurd h (by simp)

end Monochord
