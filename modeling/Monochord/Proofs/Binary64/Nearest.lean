import Mathlib.Algebra.Order.Field.Power
import Mathlib.Data.Int.Log
import Mathlib.Data.Rat.Floor
import Mathlib.Tactic.Linarith
import Mathlib.Tactic.Ring
import Monochord.Binary64.Rounding

/-! # Nearest doubles

Rounding a fraction to a double means rounding a rational number to a multiple of a unit that
depends on its size. Here the pattern that `Monochord.Binary64` computes from a numerator and a
denominator is described by the rational number alone.

* **`IsNearest`** — a nearest integer, even where two are equally near; **`IsNearest.le`**: rounding
  to it preserves order, so that there is only one.
* **`unit`**, **`IsPattern`** — one unit in the last place near a rational number, and the pattern
  of its double; **`isPattern_nearestPattern`**: this is what is computed.
* **`value`** — the number behind a pattern; **`isPattern_value`**: it is not rounded any further.
* **`IsPattern.le`** — rounding preserves order; **`value_strictMono`**: patterns are ordered as
  their numbers are.
* **`ratio_div`** — the fraction of a double is the number behind its pattern. -/

namespace Monochord.Binary64

/-! ## Nearest integers -/

/-- `k` is an integer nearest to `x`, the even one where two are. -/
structure IsNearest (x : ℚ) (k : ℕ) : Prop where
  /-- The number is at most one half below. -/
  below : (k : ℚ) - 1 / 2 ≤ x
  /-- The number is at most one half above. -/
  above : x ≤ k + 1 / 2
  /-- Half-way between two integers the even one is chosen. -/
  even : x = k - 1 / 2 ∨ x = k + 1 / 2 → k % 2 = 0

/-- **`k ≤ l` if `x ≤ y`, `IsNearest x k` and `IsNearest y l`.** -/
theorem IsNearest.le {x y : ℚ} {k l : ℕ} (hx : IsNearest x k) (hy : IsNearest y l) (h : x ≤ y) :
    k ≤ l := by
  by_contra hlt
  have hstep : (l : ℚ) + 1 ≤ k := by exact_mod_cast Nat.lt_of_not_le hlt
  have hxk := hx.below
  have hyl := hy.above
  -- both numbers lie exactly between `l` and `k`, and only one of the two is even
  have hk : (k : ℚ) = l + 1 := by linarith
  have heven := hx.even (.inl (by linarith))
  have heven' := hy.even (.inr (by linarith))
  have hk' : k = l + 1 := by exact_mod_cast hk
  omega

/-- `IsNearest x` holds of one integer only. -/
theorem IsNearest.unique {x : ℚ} {k l : ℕ} (hk : IsNearest x k) (hl : IsNearest x l) : k = l :=
  le_antisymm (hk.le hl le_rfl) (hl.le hk le_rfl)

/-- `IsNearest k k`. -/
theorem isNearest_natCast (k : ℕ) : IsNearest (k : ℚ) k where
  below := by linarith
  above := by linarith
  even := by
    rintro (h | h)
    · linarith
    · linarith

/-- `IsNearest (n / d) k` in terms of `n`, `d` and `k` alone. -/
theorem isNearest_div_iff {n d k : ℕ} (hd : 0 < d) :
    IsNearest ((n : ℚ) / d) k ↔
      2 * (k * d) ≤ 2 * n + d ∧ 2 * n ≤ 2 * (k * d) + d ∧
        (2 * n + d = 2 * (k * d) ∨ 2 * n = 2 * (k * d) + d → k % 2 = 0) := by
  have hd' : (0 : ℚ) < d := by exact_mod_cast hd
  have hbelow : (k : ℚ) - 1 / 2 ≤ n / d ↔ 2 * (k * d) ≤ 2 * n + d := by
    rw [le_div_iff₀ hd', ← Nat.cast_le (α := ℚ)]
    push_cast
    constructor <;> intro h <;> linarith
  have habove : (n : ℚ) / d ≤ k + 1 / 2 ↔ 2 * n ≤ 2 * (k * d) + d := by
    rw [div_le_iff₀ hd', ← Nat.cast_le (α := ℚ)]
    push_cast
    constructor <;> intro h <;> linarith
  have hlow : (n : ℚ) / d = k - 1 / 2 ↔ 2 * n + d = 2 * (k * d) := by
    rw [div_eq_iff hd'.ne', ← Nat.cast_inj (R := ℚ)]
    push_cast
    constructor <;> intro h <;> linarith
  have hhigh : (n : ℚ) / d = k + 1 / 2 ↔ 2 * n = 2 * (k * d) + d := by
    rw [div_eq_iff hd'.ne', ← Nat.cast_inj (R := ℚ)]
    push_cast
    constructor <;> intro h <;> linarith
  constructor
  · intro h
    exact ⟨hbelow.1 h.below, habove.1 h.above, fun hhalf => h.even (hhalf.imp hlow.2 hhigh.2)⟩
  · rintro ⟨h1, h2, h3⟩
    exact ⟨hbelow.2 h1, habove.2 h2, fun hhalf => h3 (hhalf.imp hlow.1 hhigh.1)⟩

/-- `IsNearest (n / d) (roundDiv n d)`. -/
theorem isNearest_roundDiv (n d : ℕ) (hd : 0 < d) : IsNearest ((n : ℚ) / d) (roundDiv n d) := by
  rw [isNearest_div_iff hd, roundDiv]
  have hdiv := Nat.div_add_mod n d
  have hmod := Nat.mod_lt n hd
  have hcomm : n / d * d = d * (n / d) := Nat.mul_comm _ _
  have hsucc : (n / d + 1) * d = d * (n / d) + d := by rw [Nat.succ_mul, hcomm]
  split
  · next h =>
    -- the remainder is above one half, or exactly one half behind an odd quotient
    simp only [Bool.or_eq_true, decide_eq_true_eq, Bool.and_eq_true, beq_iff_eq] at h
    rw [hsucc]
    omega
  · next h =>
    simp only [Bool.or_eq_true, decide_eq_true_eq, Bool.and_eq_true, beq_iff_eq, not_or] at h
    rw [hcomm]
    omega

/-! ## Powers of two -/

/-- `twoPow n = 2 ^ n`. -/
theorem twoPow_eq (n : ℕ) : twoPow n = 2 ^ n := rfl

/-- `n / d / 2 ^ q` as a fraction of natural numbers, for either sign of `q`. -/
theorem div_zpow_eq (n d : ℕ) (q : ℤ) :
    (n : ℚ) / d / 2 ^ q =
      if 0 ≤ q then (n : ℚ) / (d * twoPow q.toNat : ℕ)
      else ((n * twoPow (-q).toNat : ℕ) : ℚ) / d := by
  split
  · next h =>
    obtain ⟨k, rfl⟩ := Int.eq_ofNat_of_zero_le h
    rw [Int.toNat_natCast, twoPow_eq, zpow_natCast, div_div]
    push_cast
    rfl
  · next h =>
    obtain ⟨k, hk⟩ := Int.eq_ofNat_of_zero_le (show 0 ≤ -q by omega)
    obtain rfl : q = -k := by omega
    rw [neg_neg, Int.toNat_natCast, twoPow_eq, zpow_neg, zpow_natCast, div_inv_eq_mul,
      div_mul_eq_mul_div]
    push_cast
    rfl

/-- `scaledLe d l n` exactly if `2 ^ l ≤ n / d`. -/
theorem scaledLe_iff {d n : ℕ} {l : ℤ} (hd : 0 < d) :
    scaledLe d l n = true ↔ (2 : ℚ) ^ l ≤ n / d := by
  have hd' : (0 : ℚ) < d := by exact_mod_cast hd
  rw [← one_le_div (by positivity), div_zpow_eq, scaledLe]
  split
  · have hpos : (0 : ℚ) < (d * twoPow l.toNat : ℕ) := by
      rw [twoPow_eq]
      push_cast
      positivity
    rw [decide_eq_true_iff, one_le_div hpos, Nat.cast_le]
  · rw [decide_eq_true_iff, one_le_div hd', Nat.cast_le]

/-- `Int.log 2 r = l` if `2 ^ l ≤ r < 2 ^ (l + 1)`. -/
theorem log_eq_of_zpow_le {r : ℚ} {l : ℤ} (hr : 0 < r) (hle : 2 ^ l ≤ r) (hlt : r < 2 ^ (l + 1)) :
    Int.log 2 r = l := by
  have h1 : l ≤ Int.log 2 r :=
    (Int.zpow_le_iff_le_log (R := ℚ) one_lt_two hr).1 (by exact_mod_cast hle)
  have h2 : Int.log 2 r < l + 1 :=
    (Int.lt_zpow_iff_log_lt (R := ℚ) one_lt_two hr).1 (by exact_mod_cast hlt)
  omega

/-- `floorLog n d = Int.log 2 (n / d)`. -/
theorem floorLog_eq_log {n d : ℕ} (hn : 0 < n) (hd : 0 < d) :
    floorLog n d = Int.log 2 ((n : ℚ) / d) := by
  have hn' : (0 : ℚ) < n := by exact_mod_cast hn
  have hd' : (0 : ℚ) < d := by exact_mod_cast hd
  have hlow (m : ℕ) (hm : 0 < m) : (2 : ℚ) ^ (m.log2 : ℤ) ≤ m := by
    rw [zpow_natCast]
    exact_mod_cast Nat.log2_self_le hm.ne'
  have hhigh (m : ℕ) : (m : ℚ) < 2 ^ ((m.log2 : ℤ) + 1) := by
    rw [← Nat.cast_succ, zpow_natCast]
    exact_mod_cast Nat.lt_log2_self
  -- the difference of the lengths is the logarithm or the number above it
  have hlt : (n : ℚ) / d < 2 ^ ((n.log2 : ℤ) - d.log2 + 1) := by
    rw [div_lt_iff₀ hd']
    calc (n : ℚ) < 2 ^ ((n.log2 : ℤ) + 1) := hhigh n
      _ = 2 ^ ((n.log2 : ℤ) - d.log2 + 1) * 2 ^ (d.log2 : ℤ) := by
        rw [← zpow_add₀ two_ne_zero]
        congr 1
        omega
      _ ≤ 2 ^ ((n.log2 : ℤ) - d.log2 + 1) * d :=
        mul_le_mul_of_nonneg_left (hlow d hd) (by positivity)
  have hle : (2 : ℚ) ^ ((n.log2 : ℤ) - d.log2 - 1) ≤ n / d := by
    rw [le_div_iff₀ hd']
    calc (2 : ℚ) ^ ((n.log2 : ℤ) - d.log2 - 1) * d
        ≤ 2 ^ ((n.log2 : ℤ) - d.log2 - 1) * 2 ^ ((d.log2 : ℤ) + 1) :=
          mul_le_mul_of_nonneg_left (hhigh d).le (by positivity)
      _ = 2 ^ (n.log2 : ℤ) := by
        rw [← zpow_add₀ two_ne_zero]
        congr 1
        omega
      _ ≤ n := hlow n hn
  rw [floorLog]
  split
  · next h => exact (log_eq_of_zpow_le (by positivity) ((scaledLe_iff hd).1 h) hlt).symm
  · next h =>
    rw [scaledLe_iff hd, not_le] at h
    exact (log_eq_of_zpow_le (by positivity) hle (by rwa [sub_add_cancel])).symm

/-! ## Patterns of rational numbers -/

/-- The exponent of one unit in the last place near a rational number. -/
def unit (r : ℚ) : ℤ := if r = 0 then -1074 else max (-1074) (Int.log 2 r - 52)

/-- The pattern of the double that is nearest to a rational number which is not negative. -/
def IsPattern (r : ℚ) (p : ℕ) : Prop :=
  ∃ k, IsNearest (r / 2 ^ unit r) k ∧ p = (unit r + 1074).toNat * 2 ^ 52 + k

/-- `infinityPattern` is the pattern after that of the greatest finite double. -/
theorem infinityPattern_eq : infinityPattern = 2047 * 2 ^ 52 := rfl

/-- `-1074 ≤ unit r`. -/
theorem le_unit (r : ℚ) : -1074 ≤ unit r := by
  rw [unit]
  split
  · exact le_rfl
  · exact le_max_left _ _

/-- `roundAt q n d` is nearest to `n / d / 2 ^ q`. -/
theorem isNearest_roundAt (q : ℤ) (n d : ℕ) (hd : 0 < d) :
    IsNearest ((n : ℚ) / d / 2 ^ q) (roundAt q n d) := by
  rw [div_zpow_eq, roundAt]
  split
  · exact isNearest_roundDiv _ _ (Nat.mul_pos hd (Nat.two_pow_pos _))
  · exact isNearest_roundDiv _ _ hd

/-- **`IsPattern (n / d) (nearestPattern n d)`.** -/
theorem isPattern_nearestPattern (n d : ℕ) (hd : 0 < d) :
    IsPattern ((n : ℚ) / d) (nearestPattern n d) := by
  have hd' : (d : ℚ) ≠ 0 := by exact_mod_cast hd.ne'
  rcases Nat.eq_zero_or_pos n with rfl | hn
  · -- zero has no logarithm, and the smallest unit by definition
    refine ⟨0, ?_, ?_⟩
    · rw [Nat.cast_zero, zero_div, zero_div]
      exact isNearest_natCast 0
    · rw [nearestPattern, if_pos rfl, Nat.cast_zero, zero_div, unit, if_pos rfl]
      rfl
  · have hr : (n : ℚ) / d ≠ 0 := div_ne_zero (by exact_mod_cast hn.ne') hd'
    have hunit : unitScale n d = unit ((n : ℚ) / d) := by
      rw [unitScale, unit, if_neg hr, floorLog_eq_log hn hd]
    refine ⟨roundAt (unitScale n d) n d, ?_, ?_⟩
    · rw [← hunit]
      exact isNearest_roundAt _ n d hd
    · rw [nearestPattern, if_neg hn.ne', ← hunit]
      rfl

/-- Every `0 ≤ r` has a pattern. -/
theorem exists_isPattern {r : ℚ} (hr : 0 ≤ r) : ∃ p, IsPattern r p := by
  have hnum : ((r.num.toNat : ℕ) : ℚ) = r.num := by
    exact_mod_cast Int.toNat_of_nonneg (Rat.num_nonneg.2 hr)
  have hp := isPattern_nearestPattern r.num.toNat r.den r.den_pos
  rw [hnum, Rat.num_div_den] at hp
  exact ⟨_, hp⟩

/-- `r / 2 ^ unit r < 2 ^ 53`. -/
theorem div_unit_lt {r : ℚ} (hr : 0 ≤ r) : r / 2 ^ unit r < 2 ^ 53 := by
  rw [div_lt_iff₀ (by positivity)]
  rcases hr.eq_or_lt with rfl | hr
  · positivity
  · calc r < 2 ^ (Int.log 2 r + 1) := by
          exact_mod_cast Int.lt_zpow_succ_log_self (R := ℚ) one_lt_two r
      _ ≤ 2 ^ (53 + unit r) := by
          refine zpow_le_zpow_right₀ one_le_two ?_
          rw [unit, if_neg hr.ne']
          omega
      _ = 2 ^ 53 * 2 ^ unit r := by
          rw [zpow_add₀ two_ne_zero]
          norm_cast

/-- `2 ^ 52 ≤ r / 2 ^ unit r` above the smallest unit. -/
theorem le_div_unit {r : ℚ} (hr : 0 ≤ r) (hunit : -1074 < unit r) : 2 ^ 52 ≤ r / 2 ^ unit r := by
  rw [le_div_iff₀ (by positivity)]
  rcases hr.eq_or_lt with rfl | hr
  · rw [unit, if_pos rfl] at hunit
    omega
  · calc (2 : ℚ) ^ 52 * 2 ^ unit r = 2 ^ (52 + unit r) := by
          rw [zpow_add₀ two_ne_zero]
          norm_cast
      _ ≤ 2 ^ Int.log 2 r := by
          refine zpow_le_zpow_right₀ one_le_two ?_
          rw [unit, if_neg hr.ne'] at hunit ⊢
          omega
      _ ≤ r := by exact_mod_cast Int.zpow_log_le_self (R := ℚ) one_lt_two hr

/-- `k ≤ 2 ^ 53` if `k` is nearest to `r / 2 ^ unit r`. -/
theorem IsNearest.le_of_unit {r : ℚ} {k : ℕ} (hr : 0 ≤ r) (hk : IsNearest (r / 2 ^ unit r) k) :
    k ≤ 2 ^ 53 := by
  refine hk.le (isNearest_natCast (2 ^ 53)) ?_
  exact_mod_cast (div_unit_lt hr).le

/-- `2 ^ 52 ≤ k` if `k` is nearest to `r / 2 ^ unit r`, above the smallest unit. -/
theorem IsNearest.ge_of_unit {r : ℚ} {k : ℕ} (hr : 0 ≤ r) (hk : IsNearest (r / 2 ^ unit r) k)
    (hunit : -1074 < unit r) : 2 ^ 52 ≤ k := by
  refine (isNearest_natCast (2 ^ 52)).le hk ?_
  exact_mod_cast le_div_unit hr hunit

/-- `unit r ≤ unit s` if `0 ≤ r ≤ s`. -/
theorem unit_mono {r s : ℚ} (hr : 0 ≤ r) (h : r ≤ s) : unit r ≤ unit s := by
  rcases hr.eq_or_lt with rfl | hr
  · rw [unit, if_pos rfl]
    exact le_unit s
  · have hlog : Int.log 2 r ≤ Int.log 2 s := Int.log_mono_right hr h
    rw [unit, unit, if_neg hr.ne', if_neg (hr.trans_le h).ne']
    omega

/-- **`p ≤ t` if `r ≤ s`, `IsPattern r p` and `IsPattern s t`.** -/
theorem IsPattern.le {r s : ℚ} {p t : ℕ} (hp : IsPattern r p) (ht : IsPattern s t) (hr : 0 ≤ r)
    (h : r ≤ s) : p ≤ t := by
  obtain ⟨k, hk, rfl⟩ := hp
  obtain ⟨l, hl, rfl⟩ := ht
  have hlow := le_unit r
  rcases (unit_mono hr h).eq_or_lt with heq | hlt
  · -- the same unit: the multiples are in order
    have hkl : k ≤ l := hk.le hl (by rw [heq]; gcongr)
    rw [heq]
    omega
  · -- a greater unit: the first multiple is at most the smallest one with that unit
    have hk53 : k ≤ 2 ^ 53 := hk.le_of_unit hr
    have hl52 : 2 ^ 52 ≤ l := hl.ge_of_unit (hr.trans h) (by omega)
    omega

/-- `IsPattern r` holds of one pattern only. -/
theorem IsPattern.unique {r : ℚ} {p t : ℕ} (hr : 0 ≤ r) (hp : IsPattern r p)
    (ht : IsPattern r t) : p = t :=
  le_antisymm (hp.le ht hr le_rfl) (ht.le hp hr le_rfl)

/-- `nearestPattern n d = p` exactly if `IsPattern (n / d) p`. -/
theorem nearestPattern_eq_iff {n d p : ℕ} (hd : 0 < d) :
    nearestPattern n d = p ↔ IsPattern ((n : ℚ) / d) p := by
  have hcomputed := isPattern_nearestPattern n d hd
  constructor
  · rintro rfl
    exact hcomputed
  · intro hp
    exact hcomputed.unique (by positivity) hp

/-! ## Numbers behind patterns -/

/-- The number behind a pattern. -/
def value (p : ℕ) : ℚ := mantissa p * 2 ^ scale p

/-- `0 ≤ value p`. -/
theorem value_nonneg (p : ℕ) : 0 ≤ value p := by
  rw [value]
  positivity

/-- A pattern below `2 ^ 52` is its own mantissa and counts the smallest units. -/
theorem mantissa_scale_of_lt {p : ℕ} (h : p < 2 ^ 52) : mantissa p = p ∧ scale p = -1074 :=
  ⟨if_pos h, if_pos h⟩

/-- A pattern from `2 ^ 52` on has a mantissa with a leading one, and the rest counts units. -/
theorem mantissa_scale_of_le {p : ℕ} (h : 2 ^ 52 ≤ p) :
    mantissa p = 2 ^ 52 + p % 2 ^ 52 ∧ scale p = (p / 2 ^ 52 : ℕ) - 1075 :=
  ⟨if_neg h.not_gt, if_neg h.not_gt⟩

/-- `mantissa p < 2 ^ 53`. -/
theorem mantissa_lt (p : ℕ) : mantissa p < 2 ^ 53 := by
  rcases lt_or_ge p (2 ^ 52) with h | h
  · rw [(mantissa_scale_of_lt h).1]
    omega
  · rw [(mantissa_scale_of_le h).1]
    omega

/-- `p = (scale p + 1074) * 2 ^ 52 + mantissa p`. -/
theorem pattern_eq (p : ℕ) : p = (scale p + 1074).toNat * 2 ^ 52 + mantissa p := by
  rcases lt_or_ge p (2 ^ 52) with h | h
  · obtain ⟨hm, hs⟩ := mantissa_scale_of_lt h
    rw [hm, hs]
    omega
  · obtain ⟨hm, hs⟩ := mantissa_scale_of_le h
    rw [hm, hs]
    omega

/-- `-1074 ≤ scale p`. -/
theorem le_scale (p : ℕ) : -1074 ≤ scale p := by
  rcases lt_or_ge p (2 ^ 52) with h | h
  · rw [(mantissa_scale_of_lt h).2]
  · rw [(mantissa_scale_of_le h).2]
    omega

/-- `2 ^ 52 ≤ mantissa p` above the smallest unit. -/
theorem le_mantissa {p : ℕ} (hs : -1074 < scale p) : 2 ^ 52 ≤ mantissa p := by
  rcases lt_or_ge p (2 ^ 52) with h | h
  · rw [(mantissa_scale_of_lt h).2] at hs
    omega
  · rw [(mantissa_scale_of_le h).1]
    omega

/-- `0 < mantissa p` for `0 < p`. -/
theorem mantissa_pos {p : ℕ} (hp : 0 < p) : 0 < mantissa p := by
  rcases lt_or_ge p (2 ^ 52) with h | h
  · rw [(mantissa_scale_of_lt h).1]
    exact hp
  · rw [(mantissa_scale_of_le h).1]
    omega

/-- `0 < value p` for `0 < p`. -/
theorem value_pos {p : ℕ} (hp : 0 < p) : 0 < value p := by
  have hm : (0 : ℚ) < mantissa p := by exact_mod_cast mantissa_pos hp
  rw [value]
  positivity

/-- `unit (value p) = scale p`. -/
theorem unit_value (p : ℕ) : unit (value p) = scale p := by
  rcases Nat.eq_zero_or_pos p with rfl | hp
  · rw [unit, if_pos (by simp [value, mantissa, twoPow_eq])]
    simp [scale, twoPow_eq]
  have hpos := value_pos hp
  have hm53 : (mantissa p : ℚ) < 2 ^ (53 : ℤ) := by exact_mod_cast mantissa_lt p
  have hlt : Int.log 2 (value p) < 53 + scale p := by
    refine (Int.lt_zpow_iff_log_lt (R := ℚ) one_lt_two hpos).1 ?_
    rw [Nat.cast_ofNat, zpow_add₀ two_ne_zero, value]
    gcongr
  rw [unit, if_neg hpos.ne']
  have hlow := le_scale p
  rcases hlow.eq_or_lt with heq | hgt
  · -- no unit is smaller, however few places the mantissa has
    omega
  · have hm52 : (2 : ℚ) ^ (52 : ℤ) ≤ mantissa p := by exact_mod_cast le_mantissa hgt
    have hle : 52 + scale p ≤ Int.log 2 (value p) := by
      refine (Int.zpow_le_iff_le_log (R := ℚ) one_lt_two hpos).1 ?_
      rw [Nat.cast_ofNat, zpow_add₀ two_ne_zero, value]
      gcongr
    omega

/-- **`IsPattern (value p) p`**: the number behind a pattern is not rounded any further. -/
theorem isPattern_value (p : ℕ) : IsPattern (value p) p := by
  refine ⟨mantissa p, ?_, ?_⟩
  · rw [unit_value, value, mul_div_cancel_right₀ _ (by positivity)]
    exact isNearest_natCast _
  · rw [unit_value]
    exact pattern_eq p

/-- `value 0 = 0`. -/
theorem value_zero : value 0 = 0 := by
  rw [value, (mantissa_scale_of_lt (by decide)).1, Nat.cast_zero, zero_mul]

/-- `0 < p` if `0 < value p`. -/
theorem pos_of_value_pos {p : ℕ} (h : 0 < value p) : 0 < p := by
  rw [Nat.pos_iff_ne_zero]
  rintro rfl
  rw [value_zero] at h
  exact lt_irrefl 0 h

/-- The smallest positive double is `2 ^ -1074`. -/
theorem value_one : value 1 = 2 ^ (-1074 : ℤ) := by
  obtain ⟨hm, hs⟩ := mantissa_scale_of_lt (p := 1) (by decide)
  rw [value, hm, hs, Nat.cast_one, one_mul]

/-- `IsPattern 0 0`. -/
theorem isPattern_zero : IsPattern 0 0 := by
  have h := isPattern_value 0
  rw [value_zero] at h
  exact h

/-- `p ≤ t` if `value p ≤ r` and `IsPattern r t`. -/
theorem IsPattern.le_of_value_le {r : ℚ} {p t : ℕ} (ht : IsPattern r t) (h : value p ≤ r) :
    p ≤ t :=
  (isPattern_value p).le ht (value_nonneg p) h

/-- **`p < t` exactly if `value p < value t`.** -/
theorem value_strictMono : StrictMono value := by
  intro p t hpt
  -- otherwise rounding, which preserves order, would put the patterns the other way round
  by_contra hle
  have hback : t ≤ p := (isPattern_value p).le_of_value_le (not_lt.1 hle)
  omega

/-! ## Doubles as fractions -/

/-- `ratio x` is a mantissa over a power of two, or a mantissa times a power of two over one. -/
theorem ratio_cases (x : Float) :
    (∃ k : ℕ, scale (pattern x) = k ∧ ratio x = (mantissa (pattern x) * 2 ^ k, 1)) ∨
      ∃ k : ℕ, scale (pattern x) = -k ∧ ratio x = (mantissa (pattern x), 2 ^ k) := by
  rw [ratio]
  split
  · next h =>
    obtain ⟨k, hk⟩ := Int.eq_ofNat_of_zero_le h
    refine .inl ⟨k, hk, ?_⟩
    rw [hk, Int.toNat_natCast]
    rfl
  · next h =>
    obtain ⟨k, hk⟩ := Int.eq_ofNat_of_zero_le (show 0 ≤ -scale (pattern x) by omega)
    refine .inr ⟨k, by omega, ?_⟩
    rw [hk, Int.toNat_natCast]
    rfl

/-- `ratio x` as a fraction is `value (pattern x)`. -/
theorem ratio_div (x : Float) : ((ratio x).1 : ℚ) / (ratio x).2 = value (pattern x) := by
  rw [value]
  rcases ratio_cases x with ⟨k, hk, hratio⟩ | ⟨k, hk, hratio⟩
  · rw [hratio, hk, zpow_natCast]
    push_cast
    rw [div_one]
  · rw [hratio, hk, zpow_neg, zpow_natCast, div_eq_mul_inv]
    push_cast
    rfl

/-- `0 < (ratio x).2`. -/
theorem ratio_snd_pos (x : Float) : 0 < (ratio x).2 := by
  rcases ratio_cases x with ⟨k, -, hratio⟩ | ⟨k, -, hratio⟩
  · rw [hratio]
    exact one_pos
  · rw [hratio]
    positivity

end Monochord.Binary64
