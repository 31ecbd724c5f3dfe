import Monochord.Proofs.Binary64.Operations
import Monochord.Proofs.Binary64.Shortest

/-! # Bounds on doubles

A formula on doubles stays finite as long as its steps stay below powers of two, which are doubles
themselves. Beyond them the results are infinities, whose arithmetic is described here too.

* **`value_power`** — powers of two are numbers behind patterns.
* **`Within`** — a finite double of bounded magnitude, with a lemma for each operation.
* **`rounds_sub`** — a difference is rounded once.
* **`zero_lt_cases`** — a positive double is finite or **`IsInfinity`**.
* **`beq_zero_iff`**, **`not_isFinite_div`** — which doubles equal zero, and dividing by them.
* **`isInfinity_mul`**, **`isInfinity_div`**, **`pattern_div_infinity`** — products and quotients
  with infinity. -/

namespace Monochord.Binary64

open Float.Model (Format UnpackedFloat)

/-! ## Powers of two -/

/-- **`value ((w + 1023) * 2 ^ 52) = 2 ^ w`.** The pattern of `2 ^ 1024` is that of infinity. -/
theorem value_power {w : ℤ} (hw : -1022 ≤ w) : value ((w + 1023).toNat * 2 ^ 52) = 2 ^ w := by
  obtain ⟨k, hk⟩ := Int.eq_ofNat_of_zero_le (show 0 ≤ w + 1022 by omega)
  have hexponent : (w + 1023).toNat = k + 1 := by omega
  obtain ⟨hmantissa, hscale⟩ := mantissa_scale_of_le (p := (k + 1) * 2 ^ 52) (by omega)
  rw [hexponent, value, hmantissa, hscale, Nat.mul_mod_left, Nat.mul_div_cancel _ (by positivity)]
  rw [Nat.add_zero, Nat.cast_pow, Nat.cast_ofNat, ← zpow_natCast, ← zpow_add₀ two_ne_zero]
  congr 1
  push_cast
  omega

/-- `(w + 1023) * 2 ^ 52 < infinityPattern` for `w ≤ 1023`. -/
theorem power_lt_infinityPattern {w : ℤ} (hw : w ≤ 1023) :
    (w + 1023).toNat * 2 ^ 52 < infinityPattern := by
  have hinf := infinityPattern_eq
  omega

/-- `r ≤ 2 ^ w` has a pattern of at most `(w + 1023) * 2 ^ 52`. -/
theorem IsPattern.le_power {r : ℚ} {p : ℕ} {w : ℤ} (h : IsPattern r p) (hr : 0 ≤ r)
    (hw : -1022 ≤ w) (hle : r ≤ 2 ^ w) : p ≤ (w + 1023).toNat * 2 ^ 52 := by
  have hpower := isPattern_value ((w + 1023).toNat * 2 ^ 52)
  rw [value_power hw] at hpower
  exact h.le hpower hr hle

/-! ## Bounded doubles -/

/-- A finite double with `|toRat x| ≤ 2 ^ k`. -/
structure Within (x : Float) (k : ℕ) : Prop where
  /-- The double is finite. -/
  finite : x.isFinite = true
  /-- Its magnitude is bounded. -/
  le : |toRat x| ≤ 2 ^ k

/-- **`Within x k` if `Rounds r x` and `|r| ≤ 2 ^ k`.** -/
theorem Rounds.within {r : ℚ} {x : Float} {k : ℕ} (h : Rounds r x) (hr : |r| ≤ 2 ^ k)
    (hk : k ≤ 1023) : Within x k := by
  obtain ⟨p, hp, hx⟩ := h.pattern
  have hpower := hp.le_power (w := k) (abs_nonneg r) (by omega) (by exact_mod_cast hr)
  have hlt := power_lt_infinityPattern (w := k) (by omega)
  have hxp : Binary64.pattern x = p := by omega
  refine ⟨isFinite_iff.2 (by omega), ?_⟩
  rw [abs_toRat, hxp]
  calc value p ≤ value (((k : ℤ) + 1023).toNat * 2 ^ 52) := value_strictMono.monotone hpower
    _ = 2 ^ (k : ℤ) := value_power (by omega)
    _ = 2 ^ k := zpow_natCast 2 k

namespace Within

variable {x y : Float} {k l : ℕ}

/-- `Within x l` if `Within x k` and `k ≤ l`. -/
theorem mono (h : Within x k) (hkl : k ≤ l) : Within x l :=
  ⟨h.finite, h.le.trans (pow_le_pow_right₀ one_le_two hkl)⟩

/-- `Within (x + y) (k + 1)`. -/
theorem add (hx : Within x k) (hy : Within y k) (hk : k + 1 ≤ 1023) : Within (x + y) (k + 1) := by
  refine (rounds_add hx.finite hy.finite).within ?_ hk
  calc |toRat x + toRat y| ≤ |toRat x| + |toRat y| := abs_add_le _ _
    _ ≤ 2 ^ k + 2 ^ k := add_le_add hx.le hy.le
    _ = 2 ^ (k + 1) := by ring

/-- `Within (x * y) (k + l)`. -/
theorem mul (hx : Within x k) (hy : Within y l) (hk : k + l ≤ 1023) :
    Within (x * y) (k + l) := by
  refine (rounds_mul hx.finite hy.finite).within ?_ hk
  rw [abs_mul, pow_add]
  exact mul_le_mul hx.le hy.le (abs_nonneg _) (by positivity)

/-- `Within (x / y) k` for a divisor of magnitude at least one. -/
theorem div (hx : Within x k) (hy : y.isFinite = true) (hone : 1 ≤ |toRat y|) (hk : k ≤ 1023) :
    Within (x / y) k := by
  have hpos : 0 < pattern y := by
    rw [Nat.pos_iff_ne_zero]
    intro hzero
    rw [toRat_eq_zero hzero, abs_zero] at hone
    exact absurd hone (by norm_num)
  refine (rounds_div hx.finite hy hpos).within ?_ hk
  rw [abs_div]
  exact (div_le_self (abs_nonneg _) hone).trans hx.le

end Within

/-! ## Differences -/

/-- The double with the other sign. -/
def opposite (x : Float) : Float := ofPattern (!isNegative x) (pattern x)

/-- `opposite x` has the other sign: `toRat (opposite x) = -toRat x`. -/
theorem opposite_spec {x : Float} (h : x.isFinite = true) :
    pattern (opposite x) = pattern x ∧ isNegative (opposite x) = !isNegative x ∧
      (opposite x).isFinite = true ∧ toRat (opposite x) = -toRat x := by
  have hlt := isFinite_iff.1 h
  have hpattern : pattern (opposite x) = pattern x := by
    rw [opposite, pattern_ofPattern, min_eq_left hlt.le]
  have hsign : isNegative (opposite x) = !isNegative x := isNegative_ofPattern _ _
  refine ⟨hpattern, hsign, isFinite_iff.2 (hpattern ▸ hlt), ?_⟩
  rw [toRat, toRat, hpattern, hsign]
  cases isNegative x <;> simp

/-- `signOf (!b) = -signOf b`. -/
theorem signOf_not (b : Bool) : signOf (!b) = -signOf b := by
  cases b <;> rfl

/-- `x - y = x + opposite y`. -/
theorem sub_eq_add_opposite {x y : Float} (hx : x.isFinite = true) (hy : y.isFinite = true) :
    x - y = x + opposite y := by
  obtain ⟨hpattern, hsign, hfinite, -⟩ := opposite_spec hy
  have hxlt := isFinite_iff.1 hx
  have hylt := isFinite_iff.1 hy
  have hbits : (x - y).toBits.toNat = (UnpackedFloat.pack Format.binary64
      (UnpackedFloat.sub Format.binary64 x.toModel.unpack y.toModel.unpack)).toNat := rfl
  apply float_ext
  rw [hbits, toNat_toBits_add]
  congr 2
  rcases Nat.eq_zero_or_pos (pattern y) with hy0 | hy0
  · rw [unpack_eq_zero hy0, unpack_eq_zero (hpattern.trans hy0), hsign, signOf_not]
    rcases Nat.eq_zero_or_pos (pattern x) with hx0 | hx0
    · rw [unpack_eq_zero hx0]
      rfl
    · rw [unpack_eq_finite hxlt hx0]
      rfl
  · rw [unpack_eq_finite hylt hy0, unpack_eq_finite (isFinite_iff.1 hfinite) (by omega)]
    rcases Nat.eq_zero_or_pos (pattern x) with hx0 | hx0
    · rw [unpack_eq_zero hx0]
      exact finite_congr (by rw [hsign, signOf_not]) (by rw [hpattern]) (by rw [hpattern])
    · rw [unpack_eq_finite hxlt hx0, UnpackedFloat.sub, UnpackedFloat.add]
      simp only [hpattern, hsign, signOf_not]
      cases signOf (isNegative y) <;>
        simp [UnpackedFloat.Sign.apply, sub_eq_add_neg]

/-- **`Rounds (toRat x - toRat y) (x - y)`**: a difference is rounded once. -/
theorem rounds_sub {x y : Float} (hx : x.isFinite = true) (hy : y.isFinite = true) :
    Rounds (toRat x - toRat y) (x - y) := by
  obtain ⟨-, -, hfinite, hrat⟩ := opposite_spec hy
  rw [sub_eq_add_opposite hx hy, sub_eq_add_neg, ← hrat]
  exact rounds_add hx hfinite

/-- `Within (x - y) (k + 1)`. -/
theorem Within.sub {x y : Float} {k : ℕ} (hx : Within x k) (hy : Within y k) (hk : k + 1 ≤ 1023) :
    Within (x - y) (k + 1) := by
  refine (rounds_sub hx.finite hy.finite).within ?_ hk
  calc |toRat x - toRat y| ≤ |toRat x| + |toRat y| := abs_sub _ _
    _ ≤ 2 ^ k + 2 ^ k := add_le_add hx.le hy.le
    _ = 2 ^ (k + 1) := by ring

/-! ## Zero and infinity -/

/-- Positive infinity. -/
def IsInfinity (x : Float) : Prop := pattern x = infinityPattern ∧ isNegative x = false

/-- Infinity unpacks to `.infinity .positive`. -/
theorem IsInfinity.unpack {x : Float} (h : IsInfinity x) :
    x.toModel.unpack = .infinity .positive := by
  rw [unpack_eq_infinity h.1, h.2]
  rfl

/-- `IsInfinity x` only if `x` is not finite. -/
theorem IsInfinity.not_finite {x : Float} (h : IsInfinity x) : ¬x.isFinite = true := by
  rw [isFinite_iff, h.1]
  exact lt_irrefl _

/-- `IsInfinity x` if `x` has the bits of `.infinity .positive`. -/
theorem isInfinity_of_bits {x : Float}
    (h : x.toBits.toNat = (UnpackedFloat.pack Format.binary64 (.infinity .positive)).toNat) :
    IsInfinity x := by
  have hbits : x.toBits.toNat = bitsOf false infinityPattern := h
  obtain ⟨hpattern, hsign⟩ := pattern_isNegative_of_bits hbits
  exact ⟨hpattern.trans (min_self _), hsign⟩

/-- A positive finite double unpacks to `.finite .positive m e`. -/
theorem unpack_of_pos {x : Float} (hx : x.isFinite = true) (hpos : 0.0 < x) :
    ∃ (m : ℕ) (e : ℤ) (hm : 0 < m), x.toModel.unpack = .finite .positive m e hm := by
  have hlt := isFinite_iff.1 hx
  obtain ⟨hplus, h0⟩ := (zero_lt_iff hlt).1 hpos
  have hunpack := unpack_eq_finite hlt h0
  rw [hplus] at hunpack
  exact ⟨_, _, _, hunpack⟩

/-- **`0.0 < x` only if `x.isFinite` or `IsInfinity x`.** -/
theorem zero_lt_cases {x : Float} (h : 0.0 < x) : x.isFinite = true ∨ IsInfinity x := by
  rcases lt_trichotomy (pattern x) infinityPattern with hlt | heq | hgt
  · exact .inl (isFinite_iff.2 hlt)
  · refine .inr ⟨heq, ?_⟩
    -- zero is not below the negative infinity
    rw [lt_iff, unpack_eq_infinity heq] at h
    cases hsign : isNegative x with
    | false => rfl
    | true =>
      rw [hsign] at h
      exact absurd h (by decide)
  · rw [lt_iff, unpack_eq_notANumber hgt] at h
    exact absurd h (by decide)

/-- `0.0 < x` if `IsInfinity x`. -/
theorem IsInfinity.zero_lt {x : Float} (h : IsInfinity x) : 0.0 < x := by
  rw [lt_iff, h.unpack]
  rfl

/-- `0.0 < x` exactly if `0 < toRat x`, for a finite double. -/
theorem toRat_pos {x : Float} (hx : x.isFinite = true) : 0.0 < x ↔ 0 < toRat x := by
  rw [zero_lt_iff (isFinite_iff.1 hx), toRat]
  cases isNegative x with
  | false =>
    simp only [Bool.false_eq_true, if_false, true_and]
    refine ⟨value_pos, fun h => Nat.pos_of_ne_zero fun h0 => ?_⟩
    rw [h0, value_zero] at h
    exact lt_irrefl 0 h
  | true =>
    simp only [Bool.true_eq_false, false_and, if_true, false_iff, not_lt]
    linarith [value_nonneg (pattern x)]

/-- `x == 0.0` exactly if `pattern x = 0`. -/
theorem beq_zero_iff {x : Float} : (x == 0.0) = true ↔ pattern x = 0 := by
  have hzero : (0.0 : Float).toModel.unpack = .zero .positive := by
    rw [unpack_eq_zero rfl, show isNegative 0.0 = false by rfl]
    rfl
  have hbeq : (x == 0.0) = x.toModel.unpack.beq (.zero .positive) := by
    rw [← hzero]
    rfl
  rw [hbeq]
  constructor
  · intro h
    by_contra hne
    rcases lt_trichotomy (pattern x) infinityPattern with hlt | heq | hgt
    · rw [unpack_eq_finite hlt (Nat.pos_of_ne_zero hne)] at h
      cases hs : isNegative x <;> rw [hs] at h <;>
        exact absurd h (by simp [UnpackedFloat.beq, UnpackedFloat.compare, signOf])
    · rw [unpack_eq_infinity heq] at h
      cases hs : isNegative x <;> rw [hs] at h <;>
        exact absurd h (by simp [UnpackedFloat.beq, UnpackedFloat.compare, signOf])
    · rw [unpack_eq_notANumber hgt] at h
      exact absurd h (by simp [UnpackedFloat.beq, UnpackedFloat.compare])
  · intro h
    rw [unpack_eq_zero h]
    rfl

/-- `x / y` is not finite if `pattern y = 0`. -/
theorem not_isFinite_div {x y : Float} (h : pattern y = 0) : ¬(x / y).isFinite = true := by
  intro hfinite
  have hquotient := isFinite_of_bits (toNat_toBits_div x y) hfinite
  rw [unpack_eq_zero h] at hquotient
  revert hquotient
  cases x.toModel.unpack <;> simp [UnpackedFloat.div, UnpackedFloat.isFinite]

/-- `IsInfinity (x * y)` for infinity and a positive finite double. -/
theorem isInfinity_mul {x y : Float} (hx : IsInfinity x) (hy : y.isFinite = true)
    (hpos : 0.0 < y) : IsInfinity (x * y) := by
  obtain ⟨m, e, hm, hunpack⟩ := unpack_of_pos hy hpos
  have hbits := toNat_toBits_mul x y
  rw [hx.unpack, hunpack] at hbits
  exact isInfinity_of_bits hbits

/-- `IsInfinity (x / y)` for infinity and a positive finite double. -/
theorem isInfinity_div {x y : Float} (hx : IsInfinity x) (hy : y.isFinite = true)
    (hpos : 0.0 < y) : IsInfinity (x / y) := by
  obtain ⟨m, e, hm, hunpack⟩ := unpack_of_pos hy hpos
  have hbits := toNat_toBits_div x y
  rw [hx.unpack, hunpack] at hbits
  exact isInfinity_of_bits hbits

/-- Infinity over infinity is not a number. -/
theorem isNaN_div_infinity {x y : Float} (hx : IsInfinity x) (hy : IsInfinity y) :
    (x / y).isNaN = true := by
  have hbits := toNat_toBits_div x y
  rw [hx.unpack, hy.unpack] at hbits
  have hpattern : infinityPattern < pattern (x / y) := by
    rw [pattern, hbits]
    decide
  show (x / y).toModel.unpack.isNaN = true
  rw [unpack_eq_notANumber hpattern]
  rfl

/-- `pattern (x / y) = 0` for a positive finite double over infinity. -/
theorem pattern_div_infinity {x y : Float} (hx : x.isFinite = true) (hpos : 0.0 < x)
    (hy : IsInfinity y) : pattern (x / y) = 0 := by
  obtain ⟨m, e, hm, hunpack⟩ := unpack_of_pos hx hpos
  have hbits := toNat_toBits_div x y
  rw [hunpack, hy.unpack] at hbits
  rw [pattern, hbits]
  show (UnpackedFloat.pack Format.binary64 (.zero .positive)).toNat % twoPow 63 = 0
  rfl

/-- `IsInfinity x` if `Rounds r x` with `0 < r`, and `x` is not finite. -/
theorem Rounds.isInfinity {r : ℚ} {x : Float} (h : Rounds r x) (hr : 0 < r)
    (hx : ¬x.isFinite = true) : IsInfinity x := by
  obtain ⟨p, -, hpattern⟩ := h.pattern
  rw [isFinite_iff] at hx
  exact ⟨by omega, h.positive hr⟩

end Monochord.Binary64
