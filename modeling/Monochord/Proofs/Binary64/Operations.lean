import Monochord.Proofs.Binary64.Locating

/-! # Operations on doubles

The sum, the product and the quotient of two finite doubles are the exact ones, rounded once.
Rounding preserves order, so that bounds can be carried through a formula from one operation to the
next.

* **`toRat`** — the rational number that a finite double is.
* **`Rounds`** — a double is a rational number, rounded; **`Rounds.le`**: rounding preserves order.
* **`rounds_add`**, **`rounds_mul`**, **`rounds_div`** — operations round their exact results.
* **`isFinite_of_add`**, **`isFinite_of_mul`**, **`isFinite_of_div`** — what is not finite stays so.
* **`lt_iff_toRat`**, **`floor?_eq`** — comparing and cutting off are exact. -/

namespace Monochord.Binary64

open Float.Model (Format UnpackedFloat totalExponent)

open Float.Model.UnpackedFloat (decreaseExponent divCore)

/-! ## Doubles as rational numbers -/

/-- The rational number that a finite double is. -/
def toRat (x : Float) : ℚ := if isNegative x then -value (pattern x) else value (pattern x)

/-- `toRat x = 0` if `pattern x = 0`. -/
theorem toRat_eq_zero {x : Float} (h : pattern x = 0) : toRat x = 0 := by
  rw [toRat, h, value_zero, neg_zero, ite_self]

/-- `0 ≤ toRat x` if `isNegative x = false`. -/
theorem toRat_nonneg {x : Float} (h : isNegative x = false) : 0 ≤ toRat x := by
  rw [toRat, h, if_neg Bool.false_ne_true]
  exact value_nonneg _

/-- `|toRat x| = value (pattern x)`. -/
theorem abs_toRat (x : Float) : |toRat x| = value (pattern x) := by
  rw [toRat]
  split
  · rw [abs_neg, abs_of_nonneg (value_nonneg _)]
  · rw [abs_of_nonneg (value_nonneg _)]

/-- `isNegative x = true` if `toRat x < 0`. -/
theorem isNegative_of_toRat_neg {x : Float} (h : toRat x < 0) : isNegative x = true := by
  rw [toRat] at h
  split at h
  · assumption
  · exact absurd (value_nonneg _) (not_le.2 h)

/-- `isNegative x = false` if `0 < toRat x`. -/
theorem isNegative_of_toRat_pos {x : Float} (h : 0 < toRat x) : isNegative x = false := by
  rw [toRat] at h
  split at h
  · exact absurd (value_nonneg (pattern x)) (by linarith)
  · exact Bool.eq_false_iff.2 ‹_›

/-! ## Rounded numbers -/

/-- `x` is the number `r`, rounded: its pattern is that of `|r|`, but at most `infinityPattern`, and
its sign is that of `r`, if `r ≠ 0`. -/
structure Rounds (r : ℚ) (x : Float) : Prop where
  /-- The pattern is that of the magnitude. -/
  pattern : ∃ p, IsPattern |r| p ∧ Binary64.pattern x = min p infinityPattern
  /-- A negative number stays negative. -/
  negative : r < 0 → isNegative x = true
  /-- A positive number stays positive. -/
  positive : 0 < r → isNegative x = false

/-- `Rounds r x` if `x` has the bits of the sign and the pattern of `r`. -/
theorem rounds_of_bits {r : ℚ} {x : Float} {negative : Bool} {p : ℕ}
    (h : x.toBits.toNat = bitsOf negative p) (hp : IsPattern |r| p)
    (hneg : r < 0 → negative = true) (hpos : 0 < r → negative = false) : Rounds r x := by
  obtain ⟨hpattern, hsign⟩ := pattern_isNegative_of_bits h
  exact ⟨⟨p, hp, hpattern⟩, fun hr => hsign.trans (hneg hr), fun hr => hsign.trans (hpos hr)⟩

/-- `Rounds 0 x` if `x` has the bits of a zero, whatever its sign is. -/
theorem rounds_zero_of_pack (negative : Bool) {x : Float} (h : x.toBits.toNat =
    (UnpackedFloat.pack Format.binary64 (.zero (signOf negative))).toNat) : Rounds 0 x := by
  rw [toNat_pack_zero] at h
  refine rounds_of_bits h ?_ (fun hr => absurd hr (lt_irrefl 0)) (fun hr => absurd hr (lt_irrefl 0))
  rw [abs_zero]
  exact isPattern_zero

/-- `Rounds (toRat x) x` for a finite double. -/
theorem rounds_toRat {x : Float} (h : x.isFinite = true) : Rounds (toRat x) x := by
  refine ⟨⟨pattern x, ?_, (min_eq_left (isFinite_iff.1 h).le).symm⟩, isNegative_of_toRat_neg,
    isNegative_of_toRat_pos⟩
  rw [abs_toRat]
  exact isPattern_value _

/-- `toRat x` is `±value p` for the pattern `p` of `|r|`, if `Rounds r x` and `x` is finite. -/
theorem Rounds.exists_toRat_eq {r : ℚ} {x : Float} (h : Rounds r x) (hx : x.isFinite = true) :
    ∃ p, IsPattern |r| p ∧ toRat x = if r < 0 then -value p else value p := by
  obtain ⟨p, hp, hpattern⟩ := h.pattern
  have hlt := isFinite_iff.1 hx
  have hxp : Binary64.pattern x = p := by omega
  refine ⟨p, hp, ?_⟩
  rw [toRat, hxp]
  rcases lt_trichotomy r 0 with hr | rfl | hr
  · rw [h.negative hr, if_pos rfl, if_pos hr]
  · -- zero may have either sign
    rw [abs_zero] at hp
    rw [hp.unique le_rfl isPattern_zero, value_zero, neg_zero, ite_self, ite_self]
  · rw [h.positive hr, if_neg Bool.false_ne_true, if_neg hr.not_gt]

/-- **`toRat x ≤ toRat y` if `r ≤ s`, `Rounds r x` and `Rounds s y`.** -/
theorem Rounds.le {r s : ℚ} {x y : Float} (hx : Rounds r x) (hy : Rounds s y)
    (hfx : x.isFinite = true) (hfy : y.isFinite = true) (h : r ≤ s) : toRat x ≤ toRat y := by
  obtain ⟨p, hp, hxp⟩ := hx.exists_toRat_eq hfx
  obtain ⟨t, ht, hyt⟩ := hy.exists_toRat_eq hfy
  rw [hxp, hyt]
  by_cases hr : r < 0
  · rw [if_pos hr]
    by_cases hs : s < 0
    · -- of two negative numbers the smaller one has the greater magnitude
      rw [if_pos hs, neg_le_neg_iff]
      refine value_strictMono.monotone (ht.le hp (abs_nonneg s) ?_)
      rw [abs_of_neg hr, abs_of_neg hs]
      linarith
    · rw [if_neg hs]
      linarith [value_nonneg p, value_nonneg t]
  · have hs : ¬ s < 0 := by linarith
    rw [if_neg hr, if_neg hs]
    refine value_strictMono.monotone (hp.le ht (abs_nonneg r) ?_)
    rw [abs_of_nonneg (not_lt.1 hr), abs_of_nonneg (not_lt.1 hs)]
    exact h

/-! ## Products -/

/-- `signOf a * signOf b = signOf (a != b)`. -/
theorem signOf_mul (a b : Bool) : signOf a * signOf b = signOf (a != b) := by
  cases a <;> cases b <;> rfl

/-- The sign of `toRat x * toRat y` is that of the signs of `x` and `y`. -/
theorem toRat_mul_sign {x y : Float} :
    (toRat x * toRat y < 0 → (isNegative x != isNegative y) = true) ∧
      (0 < toRat x * toRat y → (isNegative x != isNegative y) = false) := by
  have hx := value_nonneg (pattern x)
  have hy := value_nonneg (pattern y)
  have hxy := mul_nonneg hx hy
  rw [toRat, toRat]
  cases isNegative x <;> cases isNegative y
  · exact ⟨fun h => absurd hxy h.not_ge, fun _ => rfl⟩
  · exact ⟨fun _ => rfl, fun h => absurd hxy (by simpa using h)⟩
  · exact ⟨fun _ => rfl, fun h => absurd hxy (by simpa using h)⟩
  · exact ⟨fun h => absurd hxy (by simpa using h), fun _ => rfl⟩

/-- `e ≤ unit r` if `2 ^ 52 * 2 ^ e ≤ r`, or if `e` is at most the smallest unit. -/
theorem le_unit_of_le {r : ℚ} {e : ℤ} (h : e ≤ -1074 ∨ 2 ^ 52 * 2 ^ e ≤ r) : e ≤ unit r := by
  rcases h with h | h
  · exact h.trans (le_unit r)
  · have hr : 0 < r := lt_of_lt_of_le (by positivity) h
    have hlog : 52 + e ≤ Int.log 2 r := by
      refine (Int.zpow_le_iff_le_log (R := ℚ) one_lt_two hr).1 ?_
      rw [Nat.cast_ofNat, zpow_add₀ two_ne_zero]
      exact_mod_cast h
    rw [unit, if_neg hr.ne']
    omega

/-- `scale p + scale t ≤ unit (value p * value t)`. -/
theorem scale_add_scale_le_unit {p t : ℕ} (hp : 0 < p) (ht : 0 < t) :
    scale p + scale t ≤ unit (value p * value t) := by
  have hm : (1 : ℚ) ≤ mantissa p := by exact_mod_cast mantissa_pos hp
  have hk : (1 : ℚ) ≤ mantissa t := by exact_mod_cast mantissa_pos ht
  refine le_unit_of_le ?_
  rw [value, value, mul_mul_mul_comm, ← zpow_add₀ two_ne_zero]
  -- unless both numbers are tiny, one of the mantissas has its leading one
  rcases (le_scale p).eq_or_lt with hps | hps
  · rcases (le_scale t).eq_or_lt with hts | hts
    · exact .inl (by omega)
    · have hlong : (2 : ℚ) ^ 52 ≤ mantissa t := by exact_mod_cast le_mantissa hts
      exact .inr (by gcongr; nlinarith)
  · have hlong : (2 : ℚ) ^ 52 ≤ mantissa p := by exact_mod_cast le_mantissa hps
    exact .inr (by gcongr; nlinarith)

/-- `x * y` has the bits of `UnpackedFloat.mul`. -/
theorem toNat_toBits_mul (x y : Float) :
    (x * y).toBits.toNat = (UnpackedFloat.pack Format.binary64
      (UnpackedFloat.mul Format.binary64 x.toModel.unpack y.toModel.unpack)).toNat := rfl

/-- **`Rounds (toRat x * toRat y) (x * y)`**: a product is rounded once. -/
theorem rounds_mul {x y : Float} (hx : x.isFinite = true) (hy : y.isFinite = true) :
    Rounds (toRat x * toRat y) (x * y) := by
  have hbits := toNat_toBits_mul x y
  rw [isFinite_iff] at hx hy
  -- a factor that is zero leaves a zero, and otherwise the product of the mantissas is exact
  rcases Nat.eq_zero_or_pos (pattern x) with hx0 | hx0
  · rw [toRat_eq_zero hx0, zero_mul]
    rcases Nat.eq_zero_or_pos (pattern y) with hy0 | hy0
    · rw [unpack_eq_zero hx0, unpack_eq_zero hy0, UnpackedFloat.mul, signOf_mul] at hbits
      exact rounds_zero_of_pack _ hbits
    · rw [unpack_eq_zero hx0, unpack_eq_finite hy hy0, UnpackedFloat.mul, signOf_mul] at hbits
      exact rounds_zero_of_pack _ hbits
  · rcases Nat.eq_zero_or_pos (pattern y) with hy0 | hy0
    · rw [unpack_eq_finite hx hx0, unpack_eq_zero hy0, UnpackedFloat.mul, signOf_mul] at hbits
      rw [toRat_eq_zero hy0, mul_zero]
      exact rounds_zero_of_pack _ hbits
    · rw [unpack_eq_finite hx hx0, unpack_eq_finite hy hy0, UnpackedFloat.mul, signOf_mul] at hbits
      have habs : |toRat x * toRat y| = value (pattern x) * value (pattern y) := by
        rw [abs_mul, abs_toRat, abs_toRat]
      obtain ⟨p, hp⟩ := exists_isPattern (abs_nonneg (toRat x * toRat y))
      have hlocates : Locates (mantissa (pattern x) * mantissa (pattern y)) .exact
          (|toRat x * toRat y| / 2 ^ (scale (pattern x) + scale (pattern y))) := by
        rw [habs, value, value, mul_mul_mul_comm, ← zpow_add₀ two_ne_zero,
          mul_div_cancel_right₀ _ (by positivity)]
        exact (Nat.cast_mul _ _).symm
      rw [toNat_pack_roundWithAccuracy _ (abs_nonneg _) hlocates
        (by rw [habs]; exact scale_add_scale_le_unit hx0 hy0) hp] at hbits
      exact rounds_of_bits hbits hp toRat_mul_sign.1 toRat_mul_sign.2

/-! ## Quotients -/

/-- `signOf a / signOf b = signOf (a != b)`. -/
theorem signOf_div (a b : Bool) : signOf a / signOf b = signOf (a != b) := by
  cases a <;> cases b <;> rfl

/-- `x / y` has the bits of `UnpackedFloat.div`. -/
theorem toNat_toBits_div (x y : Float) :
    (x / y).toBits.toNat = (UnpackedFloat.pack Format.binary64
      (UnpackedFloat.div Format.binary64 x.toModel.unpack y.toModel.unpack)).toNat := rfl

/-- The exponent that the lengths of the mantissas suggest is at most `unit (value p / value t)`. -/
theorem targetExponent_le_unit {p t : ℕ} (hp : 0 < p) (ht : 0 < t) :
    Format.binary64.targetExponent
        (totalExponent (mantissa p) (scale p) - totalExponent (mantissa t) (scale t)) ≤
      unit (value p / value t) := by
  have hlow : (2 : ℚ) ^ ((mantissa p).log2 : ℤ) ≤ mantissa p := by
    rw [zpow_natCast]
    exact_mod_cast Nat.log2_self_le (mantissa_pos hp).ne'
  have hhigh : (mantissa t : ℚ) ≤ 2 ^ (((mantissa t).log2 : ℤ) + 1) := by
    rw [← Nat.cast_succ, zpow_natCast]
    exact_mod_cast Nat.lt_log2_self.le
  have hr : 0 < value p / value t := div_pos (value_pos hp) (value_pos ht)
  have hlog : ((mantissa p).log2 : ℤ) + scale p - ((mantissa t).log2 + 1 + scale t) ≤
      Int.log 2 (value p / value t) := by
    refine (Int.zpow_le_iff_le_log (R := ℚ) one_lt_two hr).1 ?_
    rw [Nat.cast_ofNat, zpow_sub₀ two_ne_zero, value, value, zpow_add₀ two_ne_zero,
      zpow_add₀ two_ne_zero (_ + 1)]
    have hmt : (0 : ℚ) < mantissa t := by exact_mod_cast mantissa_pos ht
    gcongr
  rw [targetExponent_eq, totalExponent, totalExponent, unit, if_neg hr.ne']
  omega

/-- `divCore` locates `value p / value t`, since it shifts the first mantissa far enough. -/
theorem locates_divCore {p t : ℕ} (hp : 0 < p) (ht : 0 < t) :
    ∃ m e a, divCore Format.binary64 (mantissa p) (scale p) (mantissa t) (scale t) = (m, e, a) ∧
      Locates m a (value p / value t / 2 ^ e) ∧ e ≤ unit (value p / value t) := by
  refine ⟨_, _, _, rfl, ?_, (min_le_right _ _).trans (targetExponent_le_unit hp ht)⟩
  generalize hq : min (scale p - scale t) _ = q
  obtain ⟨n, hn⟩ := Int.eq_ofNat_of_zero_le (show 0 ≤ scale p - scale t - q by omega)
  rw [hn, Int.toNat_natCast, Nat.shiftLeft_eq]
  have hexact : value p / value t / 2 ^ q = ((mantissa p * 2 ^ n : ℕ) : ℚ) / mantissa t := by
    have hexponent : scale p = n + (q + scale t) := by omega
    rw [value, value, hexponent, zpow_add₀ two_ne_zero, zpow_add₀ two_ne_zero, zpow_natCast]
    push_cast
    field_simp
  rw [hexact]
  exact locates_accuracyOfFraction _ (mantissa_pos ht)

/-- **`Rounds (toRat x / toRat y) (x / y)`**: a quotient is rounded once, if the divisor is not
zero. -/
theorem rounds_div {x y : Float} (hx : x.isFinite = true) (hy : y.isFinite = true)
    (hy0 : 0 < pattern y) : Rounds (toRat x / toRat y) (x / y) := by
  have hbits := toNat_toBits_div x y
  rw [isFinite_iff] at hx hy
  rcases Nat.eq_zero_or_pos (pattern x) with hx0 | hx0
  · rw [unpack_eq_zero hx0, unpack_eq_finite hy hy0, UnpackedFloat.div, signOf_div] at hbits
    rw [toRat_eq_zero hx0, zero_div]
    exact rounds_zero_of_pack _ hbits
  · rw [unpack_eq_finite hx hx0, unpack_eq_finite hy hy0, UnpackedFloat.div, signOf_div] at hbits
    have habs : |toRat x / toRat y| = value (pattern x) / value (pattern y) := by
      rw [abs_div, abs_toRat, abs_toRat]
    obtain ⟨p, hp⟩ := exists_isPattern (abs_nonneg (toRat x / toRat y))
    -- the mantissas are divided with a remainder, which locates the quotient
    obtain ⟨m, e, a, hcore, hlocates, hunit⟩ := locates_divCore hx0 hy0
    rw [← habs] at hlocates hunit
    rw [hcore] at hbits
    dsimp only at hbits
    rw [toNat_pack_roundWithAccuracy _ (abs_nonneg _) hlocates hunit hp] at hbits
    refine rounds_of_bits hbits hp (fun h => ?_) (fun h => ?_)
    · exact toRat_mul_sign.1 (mul_neg_iff.2 (div_neg_iff.1 h))
    · exact toRat_mul_sign.2 (mul_pos_iff.2 (div_pos_iff.1 h))

/-! ## Sums -/

/-- `x + y` has the bits of `UnpackedFloat.add`. -/
theorem toNat_toBits_add (x y : Float) :
    (x + y).toBits.toNat = (UnpackedFloat.pack Format.binary64
      (UnpackedFloat.add Format.binary64 x.toModel.unpack y.toModel.unpack)).toNat := rfl

/-- `UnpackedFloat.round` of `m * 2 ^ e` packs its pattern. -/
theorem toNat_pack_round (negative : Bool) {m : ℕ} {e : ℤ} {p : ℕ} (hm : 0 < m)
    (hp : IsPattern (m * 2 ^ e) p) :
    (UnpackedFloat.pack Format.binary64
      (UnpackedFloat.round Format.binary64 (signOf negative) m e)).toNat = bitsOf negative p := by
  have hr : (0 : ℚ) ≤ m * 2 ^ e := by positivity
  have hlocates : Locates m .exact ((m * 2 ^ e : ℚ) / 2 ^ e) :=
    mul_div_cancel_right₀ _ (by positivity)
  have htarget := targetExponent_eq_unit_of_pos hlocates hm
  rw [UnpackedFloat.round, htarget, decreaseExponent]
  dsimp only
  refine toNat_pack_roundWithAccuracy negative hr ?_ (by omega) hp
  -- the mantissa grows by the places by which the exponent falls
  obtain ⟨n, hn⟩ : ∃ n : ℕ, (e - unit (m * 2 ^ e)).toNat = n := ⟨_, rfl⟩
  rw [hn, Nat.shiftLeft_eq, zpow_sub₀ two_ne_zero, zpow_natCast]
  show (m * 2 ^ e / (2 ^ e / 2 ^ n) : ℚ) = ((m * 2 ^ n : ℕ) : ℚ)
  push_cast
  field_simp

/-- `UnpackedFloat.normalize` of `m * 2 ^ e` packs the pattern of the magnitude, and the sign of
`m`. -/
theorem toNat_pack_normalize {m : ℤ} {e : ℤ} {p : ℕ} (hp : IsPattern |(m : ℚ) * 2 ^ e| p) :
    (UnpackedFloat.pack Format.binary64
      (UnpackedFloat.normalize Format.binary64 m e .positive)).toNat =
        bitsOf (decide (m < 0)) p := by
  rw [abs_mul, abs_of_pos (show (0 : ℚ) < 2 ^ e by positivity)] at hp
  rw [UnpackedFloat.normalize]
  rcases lt_trichotomy m 0 with hm | rfl | hm
  · obtain ⟨n, hn⟩ := Int.eq_ofNat_of_zero_le (show 0 ≤ -m by omega)
    have habs : |(m : ℚ)| = n := by
      rw [abs_of_neg (by exact_mod_cast hm)]
      exact_mod_cast hn
    rw [habs] at hp
    rw [compare_lt_iff_lt.2 hm, decide_eq_true hm, hn, Int.toNat_natCast]
    exact toNat_pack_round true (by omega) hp
  · rw [Int.cast_zero, abs_zero, zero_mul] at hp
    rw [hp.unique le_rfl isPattern_zero]
    exact toNat_pack_zero false
  · obtain ⟨n, rfl⟩ := Int.eq_ofNat_of_zero_le hm.le
    rw [Int.cast_natCast, abs_of_nonneg (Nat.cast_nonneg n)] at hp
    rw [compare_gt_iff_gt.2 hm, decide_eq_false (not_lt.2 hm.le), Int.toNat_natCast]
    exact toNat_pack_round false (by omega) hp

/-- `decreaseExponent` does not change the number. -/
theorem apply_decreaseExponent (negative : Bool) {p : ℕ} {e : ℤ} (he : e ≤ scale p) :
    (((signOf negative).apply (decreaseExponent (mantissa p) (scale p) e).1 : ℤ) : ℚ) * 2 ^ e =
      if negative then -value p else value p := by
  obtain ⟨n, hn⟩ := Int.eq_ofNat_of_zero_le (sub_nonneg.2 he)
  have hscale : scale p = n + e := by omega
  have hvalue : value p = ((mantissa p * 2 ^ n : ℕ) : ℚ) * 2 ^ e := by
    rw [value, hscale, zpow_add₀ two_ne_zero, zpow_natCast]
    push_cast
    ring
  rw [decreaseExponent, hn, Int.toNat_natCast, Nat.shiftLeft_eq, hvalue]
  cases negative with
  | false => rfl
  | true =>
    show ((-((mantissa p * 2 ^ n : ℕ) : ℤ) : ℤ) : ℚ) * 2 ^ e = _
    rw [if_pos rfl]
    push_cast
    ring

/-- `pack` undoes `unpack` for a number. -/
theorem toNat_pack_unpack {x : Float} (h : pattern x ≤ infinityPattern) :
    (UnpackedFloat.pack Format.binary64 x.toModel.unpack).toNat = x.toBits.toNat :=
  congrArg BitVec.toNat (pack_unpack x.toBits.toBitVec h)

/-- **`Rounds (toRat x + toRat y) (x + y)`**: a sum is rounded once. -/
theorem rounds_add {x y : Float} (hx : x.isFinite = true) (hy : y.isFinite = true) :
    Rounds (toRat x + toRat y) (x + y) := by
  have hbits := toNat_toBits_add x y
  have hxlt := isFinite_iff.1 hx
  have hylt := isFinite_iff.1 hy
  rcases Nat.eq_zero_or_pos (pattern x) with hx0 | hx0
  · rcases Nat.eq_zero_or_pos (pattern y) with hy0 | hy0
    · rw [unpack_eq_zero hx0, unpack_eq_zero hy0, UnpackedFloat.add] at hbits
      rw [toRat_eq_zero hx0, toRat_eq_zero hy0, add_zero]
      -- two zeros with the same sign keep it
      split at hbits
      · exact rounds_zero_of_pack _ hbits
      · exact rounds_zero_of_pack false hbits
    · -- adding zero changes nothing
      have hself : (x + y).toBits.toNat = y.toBits.toNat := by
        rw [hbits, ← toNat_pack_unpack hylt.le, unpack_eq_zero hx0, unpack_eq_finite hylt hy0]
        rfl
      rw [toRat_eq_zero hx0, zero_add, float_ext hself]
      exact rounds_toRat hy
  · rcases Nat.eq_zero_or_pos (pattern y) with hy0 | hy0
    · have hself : (x + y).toBits.toNat = x.toBits.toNat := by
        rw [hbits, ← toNat_pack_unpack hxlt.le, unpack_eq_zero hy0, unpack_eq_finite hxlt hx0]
        rfl
      rw [toRat_eq_zero hy0, add_zero, float_ext hself]
      exact rounds_toRat hx
    · rw [unpack_eq_finite hxlt hx0, unpack_eq_finite hylt hy0, UnpackedFloat.add] at hbits
      dsimp only at hbits
      -- both mantissas at the smaller exponent are integers, and their sum is exact
      have hxm := apply_decreaseExponent (isNegative x) (min_le_left (scale (pattern x))
        (scale (pattern y)))
      have hym := apply_decreaseExponent (isNegative y) (min_le_right (scale (pattern x))
        (scale (pattern y)))
      generalize min (scale (pattern x)) (scale (pattern y)) = e at hbits hxm hym
      generalize hm : (signOf (isNegative x)).apply _ + (signOf (isNegative y)).apply _ = m at hbits
      have hsum : toRat x + toRat y = (m : ℚ) * 2 ^ e := by
        rw [toRat, toRat, ← hxm, ← hym, ← hm]
        push_cast
        ring
      have he : (0 : ℚ) < 2 ^ e := by positivity
      obtain ⟨p, hp⟩ := exists_isPattern (abs_nonneg (toRat x + toRat y))
      rw [hsum] at hp ⊢
      rw [toNat_pack_normalize hp] at hbits
      refine rounds_of_bits hbits hp (fun h => decide_eq_true ?_) (fun h => decide_eq_false ?_)
      · exact_mod_cast neg_of_mul_neg_left h he.le
      · exact not_lt.2 (by exact_mod_cast ((mul_pos_iff_of_pos_right he).1 h).le)

/-! ## Doubles that are not finite -/

/-- `u.isFinite` if `x` has the bits of `u` and is finite. -/
theorem isFinite_of_bits {x : Float} {u : UnpackedFloat}
    (h : x.toBits.toNat = (UnpackedFloat.pack Format.binary64 u).toNat) (hx : x.isFinite = true) :
    u.isFinite = true := by
  rw [isFinite_iff, pattern, h] at hx
  -- infinities and what is not a number have patterns that are too large
  cases u with
  | finite s m e hm => rfl
  | zero s => rfl
  | notANumber => exact absurd hx (by decide)
  | infinity s => cases s <;> exact absurd hx (by decide)

/-- `x` and `y` are finite if `x + y` is. -/
theorem isFinite_of_add {x y : Float} (h : (x + y).isFinite = true) :
    x.isFinite = true ∧ y.isFinite = true := by
  have hsum := isFinite_of_bits (toNat_toBits_add x y) h
  show x.toModel.unpack.isFinite = true ∧ y.toModel.unpack.isFinite = true
  revert hsum
  cases x.toModel.unpack with
  | infinity s =>
    cases y.toModel.unpack with
    | infinity t => cases s <;> cases t <;> exact fun h => absurd h Bool.false_ne_true
    | _ => simp [UnpackedFloat.add, UnpackedFloat.isFinite]
  | _ => cases y.toModel.unpack <;> simp [UnpackedFloat.add, UnpackedFloat.isFinite]

/-- `x` and `y` are finite if `x * y` is. -/
theorem isFinite_of_mul {x y : Float} (h : (x * y).isFinite = true) :
    x.isFinite = true ∧ y.isFinite = true := by
  have hproduct := isFinite_of_bits (toNat_toBits_mul x y) h
  show x.toModel.unpack.isFinite = true ∧ y.toModel.unpack.isFinite = true
  revert hproduct
  cases x.toModel.unpack <;> cases y.toModel.unpack <;>
    simp [UnpackedFloat.mul, UnpackedFloat.isFinite]

/-- `x` is finite if `x / y` is. -/
theorem isFinite_of_div {x y : Float} (h : (x / y).isFinite = true) : x.isFinite = true := by
  have hquotient := isFinite_of_bits (toNat_toBits_div x y) h
  show x.toModel.unpack.isFinite = true
  revert hquotient
  cases x.toModel.unpack <;> cases y.toModel.unpack <;>
    simp [UnpackedFloat.div, UnpackedFloat.isFinite]

/-! ## Comparing and cutting off -/

/-- Comparing `scale` first and then `mantissa` compares patterns. -/
theorem compare_scale_then (p t : ℕ) :
    (compare (scale p) (scale t)).then (compare (mantissa p) (mantissa t)) = compare p t := by
  have hp := pattern_eq p
  have ht := pattern_eq t
  have hps := le_scale p
  have hts := le_scale t
  have hpm := mantissa_lt p
  have htm := mantissa_lt t
  rcases lt_trichotomy (scale p) (scale t) with h | h | h
  · -- a greater exponent has a leading one
    have hlong := le_mantissa (hps.trans_lt h)
    rw [compare_lt_iff_lt.2 h, eq_comm]
    exact compare_lt_iff_lt.2 (by omega)
  · rw [h, compare_eq_iff_eq.2 rfl, Ordering.eq_then]
    rw [h] at hp
    rcases lt_trichotomy (mantissa p) (mantissa t) with hm | hm | hm
    · rw [compare_lt_iff_lt.2 hm, eq_comm]
      exact compare_lt_iff_lt.2 (by omega)
    · rw [compare_eq_iff_eq.2 hm, eq_comm]
      exact compare_eq_iff_eq.2 (by omega)
    · rw [compare_gt_iff_gt.2 hm, eq_comm]
      exact compare_gt_iff_gt.2 (by omega)
  · have hlong := le_mantissa (hts.trans_lt h)
    rw [compare_gt_iff_gt.2 h, eq_comm]
    exact compare_gt_iff_gt.2 (by omega)

/-- **`x < y ↔ toRat x < toRat y` for finite doubles.** -/
theorem lt_iff_toRat {x y : Float} (hx : x.isFinite = true) (hy : y.isFinite = true) :
    x < y ↔ toRat x < toRat y := by
  rw [isFinite_iff] at hx hy
  rw [lt_iff]
  rcases Nat.eq_zero_or_pos (pattern x) with hx0 | hx0
  · rcases Nat.eq_zero_or_pos (pattern y) with hy0 | hy0
    · rw [unpack_eq_zero hx0, unpack_eq_zero hy0, toRat_eq_zero hx0, toRat_eq_zero hy0]
      exact ⟨fun h => absurd h Bool.false_ne_true, fun h => absurd h (lt_irrefl 0)⟩
    · have hpos := value_pos hy0
      rw [unpack_eq_zero hx0, unpack_eq_finite hy hy0, toRat_eq_zero hx0, toRat]
      cases isNegative y with
      | false => exact ⟨fun _ => hpos, fun _ => rfl⟩
      | true =>
        exact ⟨fun h => absurd h Bool.false_ne_true,
          fun h => absurd h (not_lt.2 (neg_nonpos.2 hpos.le))⟩
  · have hpos := value_pos hx0
    rcases Nat.eq_zero_or_pos (pattern y) with hy0 | hy0
    · rw [unpack_eq_finite hx hx0, unpack_eq_zero hy0, toRat_eq_zero hy0, toRat]
      cases isNegative x with
      | false => exact ⟨fun h => absurd h Bool.false_ne_true, fun h => absurd h hpos.not_gt⟩
      | true => exact ⟨fun _ => neg_lt_zero.2 hpos, fun _ => rfl⟩
    · have hpos' := value_pos hy0
      have hcompare := compare_scale_then (pattern x) (pattern y)
      rw [unpack_eq_finite hx hx0, unpack_eq_finite hy hy0, toRat, toRat]
      -- with equal signs the patterns decide, in reverse for negative numbers
      cases isNegative x <;> cases isNegative y
      · show (some (Ordering.then _ _) == some Ordering.lt) = true ↔ value _ < value _
        rw [hcompare, value_strictMono.lt_iff_lt, ← compare_lt_iff_lt, beq_iff_eq,
          Option.some.injEq]
      · refine ⟨fun h => absurd h Bool.false_ne_true, fun h => absurd h (not_lt.2 ?_)⟩
        show -value _ ≤ value _
        linarith
      · refine ⟨fun _ => ?_, fun _ => rfl⟩
        show -value _ < value _
        linarith
      · show (some (Ordering.then _ _).swap == some Ordering.lt) = true ↔ -value _ < -value _
        rw [hcompare, neg_lt_neg_iff, value_strictMono.lt_iff_lt, ← compare_gt_iff_gt, beq_iff_eq,
          Option.some.injEq, Ordering.swap_eq_lt]

/-- `toRat x.abs = |toRat x|`. -/
theorem toRat_abs {x : Float} (h : x.isFinite = true) :
    x.abs.isFinite = true ∧ toRat x.abs = |toRat x| := by
  have hlt := isFinite_iff.1 h
  have hbits : x.abs.toBits.toNat =
      (UnpackedFloat.pack Format.binary64 x.toModel.unpack.abs).toNat := rfl
  have habs : x.abs.toBits.toNat = bitsOf false (pattern x) := by
    rcases Nat.eq_zero_or_pos (pattern x) with h0 | h0
    · rw [unpack_eq_zero h0] at hbits
      rw [hbits, h0]
      exact toNat_pack_zero false
    · rw [unpack_eq_finite hlt h0] at hbits
      have hpack := toNat_pack_finite false (mantissa_pos h0) (mantissa_lt _) (le_scale _)
        le_mantissa
      rw [← pattern_eq] at hpack
      exact hbits.trans hpack
  obtain ⟨hpattern, hsign⟩ := pattern_isNegative_of_bits habs
  rw [min_eq_left hlt.le] at hpattern
  refine ⟨isFinite_iff.2 (hpattern.trans_lt hlt), ?_⟩
  rw [abs_toRat, toRat, hpattern, hsign, if_neg Bool.false_ne_true]

/-- `⌈n / d⌉ = (n + d - 1) / d`. -/
theorem ceil_div (n : ℕ) {d : ℕ} (hd : 0 < d) : ⌈(n : ℚ) / d⌉ = ((n + d - 1) / d : ℕ) := by
  have hd' : (0 : ℚ) < d := by exact_mod_cast hd
  have hdiv := Nat.div_add_mod (n + d - 1) d
  have hmod := Nat.mod_lt (n + d - 1) hd
  rw [Int.ceil_eq_iff, lt_div_iff₀ hd', div_le_iff₀ hd', sub_mul, one_mul, sub_lt_iff_lt_add,
    Int.cast_natCast, mul_comm]
  constructor
  · exact_mod_cast (show d * ((n + d - 1) / d) < n + d by omega)
  · exact_mod_cast (show n ≤ d * ((n + d - 1) / d) by omega)

/-- **`floor? x = some ⌊toRat x⌋` for a finite double.** -/
theorem floor?_eq {x : Float} (h : x.isFinite = true) : floor? x = some ⌊toRat x⌋ := by
  have hd := ratio_snd_pos x
  have hvalue := ratio_div x
  rw [floor?, if_pos h]
  dsimp only
  congr 1
  rw [toRat, ← hvalue]
  split
  · rw [Int.floor_neg, ceil_div _ hd]
  · exact (Rat.floor_natCast_div_natCast _ _).symm

end Monochord.Binary64
