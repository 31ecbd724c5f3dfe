import Mathlib.Tactic.FieldSimp
import Monochord.Binary64.Decimal
import Monochord.Proofs.Binary64.Nearest

/-! # The shortest decimal of a double

A decimal is a rational number, and the double that it stands for is the one nearest to that number.
The shortest decimal of a double stands for that double.

* **`Decimal.value`** — the number behind a decimal.
* **`Decimal.exists_isPattern`**, **`Decimal.pattern_eq_iff`** — which double a decimal stands for,
  whatever shortcuts are taken for very large and very small numbers.
* **`Decimal.value_stripZeros`**, **`Decimal.stripZeros_mod`** — the zeros at the end of the digits
  can be taken away, and all of them are.
* **`isPattern_shortest`**, **`shortest_mod`** — the shortest decimal stands for its double and does
  not end in a zero. -/

namespace Monochord.Binary64

/-! ## Numbers behind decimals -/

/-- The number `digits * 10 ^ exponent` behind a decimal. -/
def Decimal.value (d : Decimal) : ℚ := d.digits * 10 ^ d.exponent

/-- `0 < tenPow n`. -/
theorem tenPow_pos (n : ℕ) : 0 < tenPow n := Nat.pow_pos (by decide)

/-- `d.value` as a fraction of natural numbers. -/
theorem Decimal.value_eq_div (d : Decimal) :
    d.value = if 0 ≤ d.exponent then ((d.digits * tenPow d.exponent.toNat : ℕ) : ℚ) / (1 : ℕ)
      else (d.digits : ℚ) / (tenPow (-d.exponent).toNat : ℕ) := by
  rw [value]
  split
  · next h =>
    obtain ⟨k, hk⟩ := Int.eq_ofNat_of_zero_le h
    rw [hk, Int.toNat_natCast, zpow_natCast, Nat.cast_one, div_one]
    exact_mod_cast rfl
  · next h =>
    obtain ⟨k, hk⟩ := Int.eq_ofNat_of_zero_le (show 0 ≤ -d.exponent by omega)
    have he : d.exponent = -k := by omega
    rw [he, neg_neg, Int.toNat_natCast, zpow_neg, zpow_natCast, ← div_eq_mul_inv]
    exact_mod_cast rfl

/-- The pattern of infinity stands for `2 ^ 1024`. -/
theorem value_infinityPattern : Binary64.value infinityPattern = 2 ^ (1024 : ℤ) := by
  have hm : mantissa infinityPattern = 2 ^ 52 := rfl
  have hs : scale infinityPattern = 972 := rfl
  rw [Binary64.value, hm, hs, Nat.cast_pow, Nat.cast_ofNat, ← zpow_natCast, ← zpow_add₀ two_ne_zero]
  rfl

/-- `p = 0` for the pattern of `r < 2 ^ -1075`, which is half of the smallest double. -/
theorem IsPattern.eq_zero_of_lt {r : ℚ} {p : ℕ} (h : IsPattern r p) (hr : 0 ≤ r)
    (hlt : r < 2 ^ (-1075 : ℤ)) : p = 0 := by
  obtain ⟨k, hk, rfl⟩ := h
  have hunit : unit r = -1074 := by
    rw [unit]
    split
    · rfl
    · next h0 =>
      have hlog : Int.log 2 r < -1075 :=
        (Int.lt_zpow_iff_log_lt (R := ℚ) one_lt_two (hr.lt_of_ne' h0)).1 (by exact_mod_cast hlt)
      omega
  have hhalf : r / 2 ^ unit r < 1 / 2 := by
    have hsplit : (2 : ℚ) ^ (-1075 : ℤ) = 1 / 2 * 2 ^ (-1074 : ℤ) := by
      rw [show (-1075 : ℤ) = -1 + -1074 by norm_num, zpow_add₀ two_ne_zero]
      norm_num
    rw [hunit, div_lt_iff₀ (by positivity), ← hsplit]
    exact hlt
  have hk1 : (k : ℚ) < 1 := by linarith [hk.below]
  have hk0 : k = 0 := by
    have : k < 1 := by exact_mod_cast hk1
    omega
  rw [hunit, hk0]
  rfl

/-- `infinityPattern ≤ p` for the pattern of `10 ^ 401 ≤ r`. -/
theorem IsPattern.infinityPattern_le {r : ℚ} {p : ℕ} (h : IsPattern r p)
    (hle : 10 ^ (401 : ℤ) ≤ r) : infinityPattern ≤ p := by
  refine h.le_of_value_le (le_trans ?_ hle)
  rw [value_infinityPattern]
  have hpow : (2 : ℕ) ^ 1024 ≤ 10 ^ 401 := by decide +kernel
  exact_mod_cast hpow

/-- Digits that `Decimal.pattern` cuts off as too small are below `2 ^ -1075`. -/
theorem Decimal.value_lt_of_small {d : Decimal}
    (h : (d.digits.log2 : ℤ) + 1100 < 3 * -d.exponent) : d.value < 2 ^ (-1075 : ℤ) := by
  have hdigits : (d.digits : ℚ) < 2 ^ ((d.digits.log2 : ℤ) + 1) := by
    rw [← Nat.cast_succ, zpow_natCast]
    exact_mod_cast Nat.lt_log2_self
  obtain ⟨k, hk⟩ := Int.eq_ofNat_of_zero_le (show 0 ≤ -d.exponent by omega)
  have he : d.exponent = -k := by omega
  have hten : (10 : ℚ) ^ d.exponent ≤ 2 ^ (3 * d.exponent) := by
    -- eight is less than ten
    rw [he, mul_neg, zpow_neg, zpow_neg, zpow_mul, zpow_natCast, zpow_natCast]
    gcongr
    norm_num
  calc d.value ≤ d.digits * 2 ^ (3 * d.exponent) :=
        mul_le_mul_of_nonneg_left hten (Nat.cast_nonneg _)
    _ < 2 ^ ((d.digits.log2 : ℤ) + 1) * 2 ^ (3 * d.exponent) :=
        mul_lt_mul_of_pos_right hdigits (by positivity)
    _ = 2 ^ ((d.digits.log2 : ℤ) + 1 + 3 * d.exponent) := (zpow_add₀ two_ne_zero _ _).symm
    _ ≤ 2 ^ (-1075 : ℤ) := zpow_le_zpow_right₀ one_le_two (by omega)

/-- `0 ≤ d.value`. -/
theorem Decimal.value_nonneg (d : Decimal) : 0 ≤ d.value := by
  rw [value]
  positivity

/-- **`d.pattern` is the pattern of `d.value`**, as far as it is below `infinityPattern`. The
shortcuts for very large and very small numbers do not change this. -/
theorem Decimal.exists_isPattern (d : Decimal) :
    ∃ p, IsPattern d.value p ∧ min d.pattern infinityPattern = min p infinityPattern := by
  obtain ⟨p, hp⟩ := Binary64.exists_isPattern d.value_nonneg
  refine ⟨p, hp, ?_⟩
  rw [pattern]
  split
  · next hdigits =>
    -- no digits: the number is zero
    have hzero : d.value = 0 := by rw [value, hdigits, Nat.cast_zero, zero_mul]
    rw [hp.eq_zero_of_lt hzero.ge (by rw [hzero]; positivity)]
  next hdigits =>
  split
  · next he =>
    split
    · next hlarge =>
      -- beyond every double: the number is at least `10 ^ 401`
      have hone : (1 : ℚ) ≤ d.digits := by exact_mod_cast Nat.pos_of_ne_zero hdigits
      have hvalue : (10 : ℚ) ^ (401 : ℤ) ≤ d.value := by
        calc (10 : ℚ) ^ (401 : ℤ) ≤ 10 ^ d.exponent :=
              zpow_le_zpow_right₀ (by norm_num) (by omega)
          _ ≤ d.value := le_mul_of_one_le_left (by positivity) hone
      rw [min_self, min_eq_right (hp.infinityPattern_le hvalue)]
    · rw [(nearestPattern_eq_iff one_pos).2 (by rwa [d.value_eq_div, if_pos he] at hp)]
  · next he =>
    split
    · next hsmall =>
      -- below half of the smallest double
      rw [hp.eq_zero_of_lt d.value_nonneg (d.value_lt_of_small hsmall)]
    · rw [(nearestPattern_eq_iff (tenPow_pos _)).2 (by rwa [d.value_eq_div, if_neg he] at hp)]

/-- `d.pattern = p` exactly if `IsPattern d.value p`, for `p < infinityPattern`. -/
theorem Decimal.pattern_eq_iff {d : Decimal} {p : ℕ} (hp : p < infinityPattern) :
    d.pattern = p ↔ IsPattern d.value p := by
  obtain ⟨t, ht, hmin⟩ := d.exists_isPattern
  constructor
  · intro h
    obtain rfl : p = t := by omega
    exact ht
  · intro h
    obtain rfl := h.unique d.value_nonneg ht
    omega

/-! ## Zeros at the end -/

/-- `(d.stripZeros fuel).value = d.value`. -/
theorem Decimal.value_stripZeros (fuel : ℕ) (d : Decimal) :
    (d.stripZeros fuel).value = d.value := by
  induction fuel generalizing d with
  | zero => rfl
  | succ fuel ih =>
    rw [stripZeros]
    split
    · next h =>
      simp only [Bool.and_eq_true, decide_eq_true_eq, beq_iff_eq] at h
      have hdigits : (d.digits : ℚ) = (d.digits / 10 : ℕ) * 10 := by
        exact_mod_cast (Nat.div_mul_cancel (Nat.dvd_of_mod_eq_zero h.2)).symm
      rw [ih, value, value, zpow_add₀ (by norm_num), zpow_one, hdigits]
      ring
    · rfl

/-- `d.stripZeros fuel` does not end in a zero, if `10 ^ fuel` does not divide the digits. -/
theorem Decimal.stripZeros_mod {fuel : ℕ} {d : Decimal} (h : ¬ 10 ^ fuel ∣ d.digits) :
    (d.stripZeros fuel).digits % 10 ≠ 0 := by
  induction fuel generalizing d with
  | zero => exact absurd (one_dvd _) h
  | succ fuel ih =>
    rw [stripZeros]
    split
    · next hzero =>
      -- one zero less, and one power of ten less that divides the digits
      simp only [Bool.and_eq_true, decide_eq_true_eq, beq_iff_eq] at hzero
      apply ih
      intro hdvd
      apply h
      rw [pow_succ, ← Nat.div_mul_cancel (Nat.dvd_of_mod_eq_zero hzero.2)]
      exact Nat.mul_dvd_mul_right hdvd 10
    · next hzero =>
      simp only [Bool.and_eq_true, decide_eq_true_eq, beq_iff_eq, not_and] at hzero
      apply hzero
      rintro h0
      exact h (h0 ▸ dvd_zero _)

/-! ## The exact decimal -/

/-- `(exactDecimal n (2 ^ k)).value = n / 2 ^ k`. -/
theorem value_exactDecimal (n k : ℕ) : (exactDecimal n (2 ^ k)).value = n / (2 ^ k : ℕ) := by
  have hten : (10 : ℚ) ^ k = 2 ^ k * 5 ^ k := by
    rw [← mul_pow]
    norm_num
  rw [exactDecimal, Nat.log2_two_pow, Decimal.value, Nat.pow_eq, zpow_neg, zpow_natCast, hten]
  push_cast
  field_simp

/-- `exactDecimal` of `ratio x` has the value `value (pattern x)`. -/
theorem value_exactDecimal_ratio (x : Float) :
    (exactDecimal (ratio x).1 (ratio x).2).value = value (pattern x) := by
  rw [← ratio_div]
  rcases ratio_cases x with ⟨k, -, hratio⟩ | ⟨k, -, hratio⟩
  · rw [hratio]
    exact value_exactDecimal _ 0
  · rw [hratio]
    exact value_exactDecimal _ k

/-- `exactDecimal` of a double other than zero ends in few zeros, since either the fives or the twos
in it come from its mantissa alone. -/
theorem not_dvd_exactDecimal {x : Float} (h0 : 0 < pattern x) :
    ¬ 10 ^ 400 ∣ (exactDecimal (ratio x).1 (ratio x).2).digits := by
  have hm0 := mantissa_pos h0
  have hm53 := mantissa_lt (pattern x)
  have hfewer : (2 ^ 54 * 5 ^ 54 : ℕ) ∣ 10 ^ 400 := by
    rw [← Nat.mul_pow]
    exact pow_dvd_pow 10 (by decide)
  intro hdvd
  replace hdvd := hfewer.trans hdvd
  rcases ratio_cases x with ⟨k, -, hratio⟩ | ⟨k, -, hratio⟩
  · -- an integer: all its fives are in the mantissa
    have hlog : Nat.log2 1 = 0 := rfl
    rw [hratio, exactDecimal, hlog, Nat.pow_eq, pow_zero, mul_one] at hdvd
    have hcoprime : Nat.Coprime (5 ^ 54) (2 ^ k) := Nat.Coprime.pow 54 k (by decide)
    have hle := Nat.le_of_dvd hm0
      (hcoprime.dvd_of_dvd_mul_right ((Nat.dvd_mul_left _ _).trans hdvd))
    omega
  · -- a fraction over a power of two: all its twos are in the mantissa
    rw [hratio, exactDecimal, Nat.log2_two_pow, Nat.pow_eq] at hdvd
    have hcoprime : Nat.Coprime (2 ^ 54) (5 ^ k) := Nat.Coprime.pow 54 k (by decide)
    have hle := Nat.le_of_dvd hm0
      (hcoprime.dvd_of_dvd_mul_right ((Nat.dvd_mul_right _ _).trans hdvd))
    omega

/-! ## The shortest decimal -/

/-- `decimalExponent n d` is at least `floorLog n d * 30103 / 100000 - 1`. -/
theorem le_decimalExponent (n d : ℕ) : floorLog n d * 30103 / 100000 - 1 ≤ decimalExponent n d := by
  rw [decimalExponent]
  cases h : [floorLog n d * 30103 / 100000 - 1, floorLog n d * 30103 / 100000,
      floorLog n d * 30103 / 100000 + 1].find? (belowPower n d) with
  | none =>
    rw [Option.getD_none]
    omega
  | some e =>
    have hmem := List.mem_of_find?_eq_some h
    simp only [List.mem_cons, List.not_mem_nil, or_false] at hmem
    rw [Option.getD_some]
    omega

/-- `(ratio x).1 < 2 ^ 53 * greatest` for a finite double. -/
theorem ratio_fst_lt {x : Float} (hp : pattern x < infinityPattern) {greatest : ℕ}
    (hgreatest : 2 ^ 971 ≤ greatest) : (ratio x).1 < 2 ^ 53 * greatest := by
  have hm53 := mantissa_lt (pattern x)
  rcases ratio_cases x with ⟨k, hk, hratio⟩ | ⟨k, hk, hratio⟩
  · have hinf := infinityPattern_eq
    have hcount := pattern_eq (pattern x)
    have hmantissa := le_mantissa (p := pattern x) (by omega)
    have hk971 : k ≤ 971 := by omega
    rw [hratio]
    calc mantissa (pattern x) * 2 ^ k < 2 ^ 53 * 2 ^ k :=
          Nat.mul_lt_mul_of_pos_right hm53 (Nat.two_pow_pos k)
      _ ≤ 2 ^ 53 * greatest := Nat.mul_le_mul_left _
          ((pow_le_pow_right₀ one_le_two hk971).trans hgreatest)
  · rw [hratio]
    exact hm53.trans_le (Nat.le_mul_of_pos_right _ ((Nat.two_pow_pos _).trans_le hgreatest))

/-- `-1074 ≤ floorLog (ratio x).1 (ratio x).2`. -/
theorem le_floorLog_ratio {x : Float} (h0 : 0 < pattern x) :
    -1074 ≤ floorLog (ratio x).1 (ratio x).2 := by
  have hpos := value_pos h0
  have hm : (1 : ℚ) ≤ mantissa (pattern x) := by exact_mod_cast mantissa_pos h0
  have hn : 0 < (ratio x).1 := by
    rcases Nat.eq_zero_or_pos (ratio x).1 with hzero | hn
    · rw [← ratio_div, hzero, Nat.cast_zero, zero_div] at hpos
      exact absurd hpos (lt_irrefl 0)
    · exact hn
  rw [floorLog_eq_log hn (ratio_snd_pos x), ratio_div]
  refine (Int.zpow_le_iff_le_log (R := ℚ) one_lt_two hpos).1 ?_
  rw [Nat.cast_ofNat, value]
  calc (2 : ℚ) ^ (-1074 : ℤ) ≤ 2 ^ scale (pattern x) :=
        zpow_le_zpow_right₀ one_le_two (le_scale _)
    _ ≤ mantissa (pattern x) * 2 ^ scale (pattern x) := le_mul_of_one_le_left (by positivity) hm

/-- `n < d` if `floorLog n d < 0`. -/
theorem lt_of_floorLog_neg {n d : ℕ} (hd : 0 < d) (h : floorLog n d < 0) : n < d := by
  rcases Nat.eq_zero_or_pos n with rfl | hn
  · exact hd
  · rw [floorLog_eq_log hn hd] at h
    have hlt : (n : ℚ) / d < ((2 : ℕ) : ℚ) ^ (0 : ℤ) :=
      (Int.lt_zpow_iff_log_lt one_lt_two (by positivity)).2 h
    rw [zpow_zero, div_lt_one (by exact_mod_cast hd)] at hlt
    exact_mod_cast hlt

/-- `floorAt` at a place that 17 digits reach has fewer than 400 digits. -/
theorem floorAt_lt {x : Float} {count : ℕ} (h0 : 0 < pattern x) (hp : pattern x < infinityPattern)
    (hcount : count ≤ 17) :
    floorAt (decimalExponent (ratio x).1 (ratio x).2 - count) (ratio x).1 (ratio x).2 + 1 <
      10 ^ 400 := by
  have htop := le_decimalExponent (ratio x).1 (ratio x).2
  have hlog := le_floorLog_ratio h0
  have hd := ratio_snd_pos x
  obtain ⟨greatest, hgreatest, hlarge⟩ :
      ∃ u, 2 ^ 971 ≤ u ∧ 2 ^ 53 * u * 10 ^ 18 + 1 < 10 ^ 400 := ⟨2 ^ 971, le_rfl, by decide +kernel⟩
  have hn := ratio_fst_lt hp hgreatest
  obtain ⟨last, hlast, hsmall⟩ : ∃ k, k = 343 ∧ 1 * 10 ^ k + 1 < 10 ^ 400 :=
    ⟨343, rfl, by decide +kernel⟩
  obtain ⟨e, he⟩ : ∃ e, e = decimalExponent (ratio x).1 (ratio x).2 - count := ⟨_, rfl⟩
  rw [← he, floorAt]
  split
  · refine lt_of_le_of_lt (Nat.succ_le_succ ?_) hlarge
    exact (Nat.div_le_self _ _).trans (hn.le.trans (Nat.le_mul_of_pos_right _ (by decide)))
  rcases lt_or_ge (floorLog (ratio x).1 (ratio x).2) 0 with hneg | hnonneg
  · -- below one: the place is at most the 343rd after the point
    have hplaces : (-e).toNat ≤ last := by omega
    refine lt_of_le_of_lt (Nat.succ_le_succ (Nat.div_le_of_le_mul ?_)) hsmall
    rw [Nat.one_mul]
    have hten : tenPow (-e).toNat ≤ 10 ^ last := pow_le_pow_right₀ (by decide) hplaces
    exact Nat.mul_le_mul (lt_of_floorLog_neg hd hneg).le hten
  · -- from one on: it is at most the 18th
    have hplaces : (-e).toNat ≤ 18 := by omega
    refine lt_of_le_of_lt (Nat.succ_le_succ ?_) hlarge
    exact (Nat.div_le_self _ _).trans
      (Nat.mul_le_mul hn.le (Nat.pow_le_pow_right (by decide) hplaces))

/-- `candidate?` stands for the double, and its digits are `floorAt (top - count) n d` or one more.
-/
theorem candidate?_spec {p n d count : ℕ} {top : ℤ} {r : Decimal}
    (h : candidate? p n d top count = some r) :
    r.pattern = p ∧ r.digits ≤ floorAt (top - count) n d + 1 := by
  rw [candidate?] at h
  generalize nearerAbove (top - count) n d (floorAt (top - count) n d) = above at h
  have hpattern := List.find?_some h
  have hmem := List.mem_of_find?_eq_some h
  refine ⟨by simpa using hpattern, ?_⟩
  simp only [List.mem_cons, List.not_mem_nil, or_false] at hmem
  cases above with
  | false =>
    rcases hmem with rfl | rfl
    · exact Nat.le_succ _
    · exact le_rfl
  | true =>
    rcases hmem with rfl | rfl
    · exact le_rfl
    · exact Nat.le_succ _

/-- `shortest x` is `d.stripZeros 400` for a decimal that stands for the double and does not end in
400 zeros. -/
theorem exists_shortest_eq {x : Float} (h0 : 0 < pattern x) (hp : pattern x < infinityPattern) :
    ∃ d : Decimal, shortest x = d.stripZeros 400 ∧ IsPattern d.value (pattern x) ∧
      ¬ 10 ^ 400 ∣ d.digits := by
  rw [shortest]
  simp only [h0.ne', if_false]
  -- either one of the candidates with at most 17 digits is found, or the exact decimal is taken
  cases h : (List.range 17).findSome? fun k =>
      candidate? (pattern x) (ratio x).1 (ratio x).2
        (decimalExponent (ratio x).1 (ratio x).2) (k + 1) with
  | none =>
    refine ⟨_, rfl, ?_, not_dvd_exactDecimal h0⟩
    rw [Option.getD_none, value_exactDecimal_ratio]
    exact isPattern_value _
  | some d =>
    obtain ⟨k, hk, hd⟩ := List.exists_of_findSome?_eq_some h
    have hk17 := List.mem_range.1 hk
    obtain ⟨hpattern, hle⟩ := candidate?_spec hd
    have hlt := hle.trans_lt (floorAt_lt h0 hp (by omega))
    refine ⟨d, rfl, (Decimal.pattern_eq_iff hp).1 hpattern, ?_⟩
    -- a candidate is too small to end in so many zeros, unless it is zero itself
    intro hdvd
    have hzero : d.digits = 0 := Nat.eq_zero_of_dvd_of_lt hdvd hlt
    rw [Decimal.pattern, if_pos hzero] at hpattern
    omega

/-- **`(shortest x).value` has the pattern of `x`.** -/
theorem isPattern_shortest {x : Float} (h0 : 0 < pattern x) (hp : pattern x < infinityPattern) :
    IsPattern (shortest x).value (pattern x) := by
  obtain ⟨d, hd, hpattern, -⟩ := exists_shortest_eq h0 hp
  rw [hd, Decimal.value_stripZeros]
  exact hpattern

/-- **`shortest x` does not end in a zero.** -/
theorem shortest_mod {x : Float} (h0 : 0 < pattern x) (hp : pattern x < infinityPattern) :
    (shortest x).digits % 10 ≠ 0 := by
  obtain ⟨d, hd, -, hdvd⟩ := exists_shortest_eq h0 hp
  rw [hd]
  exact Decimal.stripZeros_mod hdvd

/-- `(shortest x).digits ≠ 0`. -/
theorem shortest_digits_ne_zero {x : Float} (h0 : 0 < pattern x)
    (hp : pattern x < infinityPattern) : (shortest x).digits ≠ 0 := by
  intro hzero
  have hmod := shortest_mod h0 hp
  rw [hzero] at hmod
  exact hmod rfl

end Monochord.Binary64
