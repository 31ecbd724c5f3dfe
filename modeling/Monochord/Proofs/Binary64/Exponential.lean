import Monochord.Proofs.Binary64.Bounds
import Monochord.Binary64.Exponential
import Mathlib.Data.Nat.Sqrt

/-! # Bounds on powers and logarithms

Powers of two and binary logarithms are computed on fixed-point numbers. How close they come to the
exact values does not matter here, but where they lie: between the powers of two around them.

* **`squareRoot_eq`** — the loop finds the integer part of the square root.
* **`powerOfFraction_le`**, **`le_powerOfFraction`** — a power with an exponent between zero and one
  lies below the straight line from one to two.
* **`exp2?_eq_none_iff`** — a power is too large for a double exactly if its exponent is at least
  1024; **`exp2?_bounds`**: from zero on, any other power lies between two powers with integer
  exponents; **`exp2?_nonneg`**: none is negative.
* **`within_log2`** — a logarithm is finite, whatever finite double it belongs to. -/

namespace Monochord.Binary64

/-! ## Square roots -/

/-- `(g + n / g) / 2` is at least `n.sqrt`. -/
theorem sqrt_le_step {n g : ℕ} (hg : 0 < g) : n.sqrt ≤ (g + n / g) / 2 := by
  rw [Nat.le_div_iff_mul_le two_pos]
  have hsquare := Nat.sqrt_le n
  rcases Nat.le_or_ge (n.sqrt * 2) g with hle | hge
  · exact hle.trans (Nat.le_add_right _ _)
  · obtain ⟨d, hd⟩ := Nat.exists_eq_add_of_le hge
    -- two numbers with a given sum have the greatest product if they are equal
    have hproduct : d * g ≤ n.sqrt * n.sqrt := by
      zify at hd ⊢
      nlinarith [sq_nonneg ((d : ℤ) - g)]
    have hquotient : d ≤ n / g := (Nat.le_div_iff_mul_le hg).2 (hproduct.trans hsquare)
    omega

/-- `n / g ≤ n.sqrt` if `n.sqrt < g`. -/
theorem div_le_sqrt {n g : ℕ} (hg : n.sqrt < g) : n / g ≤ n.sqrt := by
  rw [← Nat.lt_succ_iff, Nat.div_lt_iff_lt_mul (by omega)]
  calc n < n.sqrt.succ * n.sqrt.succ := Nat.lt_succ_sqrt n
    _ ≤ n.sqrt.succ * g := Nat.mul_le_mul_left _ hg

/-- **`improveRoot n fuel g = n.sqrt`** if `g` is above the root and there is enough fuel, since
every step halves the distance. -/
theorem improveRoot_eq {n g fuel : ℕ} (hg : n.sqrt ≤ g) (hpos : 0 < n.sqrt)
    (hfuel : g < n.sqrt + 2 ^ fuel) : improveRoot n fuel g = n.sqrt := by
  induction fuel generalizing g with
  | zero =>
    rw [improveRoot]
    omega
  | succ fuel ih =>
    have hstep := sqrt_le_step (n := n) (hpos.trans_le hg)
    unfold improveRoot
    rcases hg.eq_or_lt with rfl | hlt
    · -- the root is found, and no step falls below it
      exact if_neg (by omega)
    · have hquotient := div_le_sqrt hlt
      rw [pow_succ] at hfuel
      rw [if_pos (by omega)]
      exact ih hstep (by omega)

/-- **`squareRoot n = n.sqrt`.** -/
theorem squareRoot_eq (n : ℕ) : squareRoot n = n.sqrt := by
  rw [squareRoot]
  split
  · next h => rw [h, Nat.sqrt_zero]
  · next h =>
    have hlog : n < 2 ^ (n.log2 + 1) := Nat.lt_log2_self
    have hpos : 0 < n.sqrt := Nat.sqrt_pos.2 (Nat.pos_of_ne_zero h)
    rw [twoPow_eq]
    refine improveRoot_eq ?_ hpos ?_
    · -- the square of the estimate is above the number
      refine (Nat.sqrt_lt'.2 (hlog.trans_le ?_)).le
      rw [← pow_mul]
      exact pow_le_pow_right₀ one_le_two (by omega)
    · have hfuel : 2 ^ (n.log2 / 2 + 1) ≤ 2 ^ (n.log2 + 2) :=
        pow_le_pow_right₀ one_le_two (by omega)
      omega

/-! ## Powers with exponents below one -/

/-- `powerOfFraction places f` is at least one, which is `2 ^ workingPlaces`. -/
theorem le_powerOfFraction (places f : ℕ) : 2 ^ workingPlaces ≤ powerOfFraction places f := by
  induction places generalizing f with
  | zero => exact le_rfl
  | succ places ih =>
    rw [powerOfFraction, squareRoot_eq, Nat.le_sqrt, twoPow_eq, twoPow_eq]
    have hbit : 1 ≤ 2 ^ (f / twoPow places) := Nat.one_le_two_pow
    have hrest := ih (f % twoPow places)
    exact Nat.mul_le_mul_right _ (hrest.trans (Nat.le_mul_of_pos_left _ hbit))

/-- The step of `powerOfFraction_le`: the root of a number below the line lies below the line. -/
theorem root_le_line {root power unit one bit rest : ℕ} (hbit : bit < 2)
    (hroot : root * root ≤ 2 ^ bit * power * one) (hpower : power * unit ≤ one * (unit + rest)) :
    root * (2 * unit) ≤ one * (2 * unit + (unit * bit + rest)) := by
  rw [← Nat.pow_le_pow_iff_left two_ne_zero]
  calc (root * (2 * unit)) ^ 2 = root * root * (4 * unit * unit) := by ring
    _ ≤ 2 ^ bit * power * one * (4 * unit * unit) := Nat.mul_le_mul_right _ hroot
    _ = power * unit * (4 * 2 ^ bit * one * unit) := by ring
    _ ≤ one * (unit + rest) * (4 * 2 ^ bit * one * unit) := Nat.mul_le_mul_right _ hpower
    _ = one ^ 2 * (4 * 2 ^ bit * unit * (unit + rest)) := by ring
    _ ≤ one ^ 2 * (2 * unit + (unit * bit + rest)) ^ 2 := by
        refine Nat.mul_le_mul_left _ ?_
        -- a difference of squares, one for each place
        rcases Nat.le_one_iff_eq_zero_or_eq_one.1 (Nat.lt_succ_iff.1 hbit) with rfl | rfl
        · nlinarith [sq_nonneg rest]
        · zify
          nlinarith [sq_nonneg ((unit : ℤ) - rest)]
    _ = (one * (2 * unit + (unit * bit + rest))) ^ 2 := by ring

/-- **`powerOfFraction places f` lies below the line** through the powers with the exponents zero
and one. -/
theorem powerOfFraction_le {places f : ℕ} (hf : f < 2 ^ places) :
    powerOfFraction places f * 2 ^ places ≤ 2 ^ workingPlaces * (2 ^ places + f) := by
  induction places generalizing f with
  | zero =>
    obtain rfl : f = 0 := by omega
    exact le_rfl
  | succ places ih =>
    have hpos : 0 < 2 ^ places := Nat.two_pow_pos places
    have hrest := ih (Nat.mod_lt f hpos)
    have hbit : f / 2 ^ places < 2 := by
      rw [Nat.div_lt_iff_lt_mul hpos, ← pow_succ']
      exact hf
    have hroot := Nat.sqrt_le
      (2 ^ (f / 2 ^ places) * powerOfFraction places (f % 2 ^ places) * 2 ^ workingPlaces)
    have hline := root_le_line hbit hroot hrest
    rw [Nat.div_add_mod] at hline
    rw [powerOfFraction, squareRoot_eq, twoPow_eq, twoPow_eq, twoPow_eq, pow_succ']
    exact hline

/-- `powerOfFraction places f` is at most two, since its exponent is below one. -/
theorem powerOfFraction_le_two {places f : ℕ} (hf : f < 2 ^ places) :
    powerOfFraction places f ≤ 2 * 2 ^ workingPlaces := by
  have hline := powerOfFraction_le hf
  have hpos : 0 < 2 ^ places := Nat.two_pow_pos places
  refine Nat.le_of_mul_le_mul_right (hline.trans ?_) hpos
  calc 2 ^ workingPlaces * (2 ^ places + f) ≤ 2 ^ workingPlaces * (2 ^ places + 2 ^ places) :=
        Nat.mul_le_mul_left _ (by omega)
    _ = 2 * 2 ^ workingPlaces * 2 ^ places := by ring

/-- `powerOfFraction places f` stays visibly below two if `places ≤ 52`. -/
theorem powerOfFraction_le_of_places {places f : ℕ} (hf : f < 2 ^ places) (hplaces : places ≤ 52) :
    powerOfFraction places f * 2 ^ 52 ≤ 2 ^ workingPlaces * (2 ^ 53 - 1) := by
  have hline := powerOfFraction_le hf
  obtain ⟨k, hk⟩ := Nat.exists_eq_add_of_le hplaces
  have hpos : 0 < 2 ^ k := Nat.two_pow_pos k
  have hsum : (2 ^ places + f) * 2 ^ k ≤ 2 ^ 53 - 1 := by
    have hwhole : 2 ^ places * 2 ^ k = 2 ^ 52 := by rw [← pow_add, ← hk]
    have hrest : (f + 1) * 2 ^ k ≤ 2 ^ 52 := by
      rw [← hwhole]
      exact Nat.mul_le_mul_right _ hf
    rw [add_mul, hwhole]
    rw [add_mul, one_mul] at hrest
    omega
  calc powerOfFraction places f * 2 ^ 52 = powerOfFraction places f * 2 ^ places * 2 ^ k := by
        rw [hk, pow_add, mul_assoc]
    _ ≤ 2 ^ workingPlaces * (2 ^ places + f) * 2 ^ k := Nat.mul_le_mul_right _ hline
    _ = 2 ^ workingPlaces * ((2 ^ places + f) * 2 ^ k) := mul_assoc _ _ _
    _ ≤ 2 ^ workingPlaces * (2 ^ 53 - 1) := Nat.mul_le_mul_left _ hsum

/-! ## Rounded fractions -/

/-- The greatest finite double is `(2 ^ 53 - 1) * 2 ^ 971`. -/
theorem value_greatest : value (infinityPattern - 1) = (2 ^ 53 - 1 : ℕ) * 2 ^ (971 : ℤ) := by
  have hm : mantissa (infinityPattern - 1) = 2 ^ 53 - 1 := rfl
  have hs : scale (infinityPattern - 1) = 971 := rfl
  rw [value, hm, hs]

/-- A fixed-point number that stays visibly below two is, in the last octave, at most the greatest
finite double. -/
theorem div_le_greatest {a : ℕ} (h : a * 2 ^ 52 ≤ 2 ^ workingPlaces * (2 ^ 53 - 1)) :
    ((a * 2 ^ 1023 : ℕ) : ℚ) / (2 ^ workingPlaces : ℕ) ≤ value (infinityPattern - 1) := by
  have hpow : (2 : ℕ) ^ 1023 = 2 ^ 52 * 2 ^ 971 := by
    rw [show 1023 = 52 + 971 from rfl, pow_add]
  have hrat : (2 : ℚ) ^ (971 : ℤ) = ((2 ^ 971 : ℕ) : ℚ) := by
    rw [Nat.cast_pow]
    exact zpow_natCast 2 971
  rw [value_greatest, hrat, hpow, div_le_iff₀ (by positivity)]
  generalize (2 : ℕ) ^ 971 = last
  calc ((a * (2 ^ 52 * last) : ℕ) : ℚ) = (a * 2 ^ 52 * last : ℕ) := by rw [mul_assoc]
    _ ≤ (2 ^ workingPlaces * (2 ^ 53 - 1) * last : ℕ) := by
        exact_mod_cast Nat.mul_le_mul_right last h
    _ = (2 ^ 53 - 1 : ℕ) * (last : ℚ) * (2 ^ workingPlaces : ℕ) := by
        rw [Nat.cast_mul, Nat.cast_mul, mul_assoc, mul_comm]

/-- `toRat (ofPattern false p) = value p`. -/
theorem toRat_ofPattern {p : ℕ} (hp : p < infinityPattern) :
    (ofPattern false p).isFinite = true ∧ toRat (ofPattern false p) = value p := by
  have hpattern := pattern_ofPattern false p
  rw [min_eq_left hp.le] at hpattern
  refine ⟨isFinite_iff.2 (hpattern.trans_lt hp), ?_⟩
  rw [toRat, isNegative_ofPattern, if_neg Bool.false_ne_true, hpattern]

/-- **`ofRatio? false n d` is a finite double if `n / d` is at most the greatest one**, and it lies
between the same powers of two as `n / d`. -/
theorem ofRatio?_bounds {n d : ℕ} {w : ℤ} (hd : 0 < d) (hw : -1022 ≤ w) (hw' : w ≤ 1023)
    (hle : 2 ^ w ≤ (n : ℚ) / d) (hlt : (n : ℚ) / d ≤ 2 ^ (w + 1))
    (hmax : (n : ℚ) / d ≤ value (infinityPattern - 1)) :
    ∃ y, ofRatio? false n d = some y ∧ y.isFinite = true ∧ 2 ^ w ≤ toRat y ∧
      toRat y ≤ 2 ^ (w + 1) := by
  have hinf := infinityPattern_eq
  have hnearest := isPattern_nearestPattern n d hd
  have hnonneg : (0 : ℚ) ≤ (n : ℚ) / d := by positivity
  have hfinite : nearestPattern n d < infinityPattern := by
    have hle := hnearest.le (isPattern_value _) hnonneg hmax
    omega
  obtain ⟨hy, hrat⟩ := toRat_ofPattern hfinite
  refine ⟨ofPattern false (nearestPattern n d), if_pos hfinite, hy, ?_, ?_⟩
  · rw [hrat, ← value_power hw]
    refine value_strictMono.monotone (hnearest.le_of_value_le ?_)
    rw [value_power hw]
    exact hle
  · rw [hrat, ← value_power (by omega)]
    exact value_strictMono.monotone (hnearest.le_power hnonneg (by omega) hlt)

/-! ## Powers -/

/-- A double as an integer, in units of its last place. -/
def lastPlaces (x : Float) : ℤ :=
  if isNegative x then -(mantissa (pattern x)) else mantissa (pattern x)

/-- The binary places of a double behind the point. -/
def fractionPlaces (x : Float) : ℕ := (-scale (pattern x)).toNat

/-- What is left of a double behind the point, as an integer. -/
def fractionPart (x : Float) : ℕ :=
  if 0 ≤ scale (pattern x) then 0
  else (lastPlaces x - ⌊toRat x⌋ * twoPow (fractionPlaces x)).toNat

/-- `toRat x = lastPlaces x * 2 ^ scale (pattern x)`. -/
theorem toRat_eq_lastPlaces (x : Float) : toRat x = lastPlaces x * 2 ^ scale (pattern x) := by
  rw [toRat, value, lastPlaces]
  split
  · push_cast
    ring
  · push_cast
    rfl

/-- `fractionPart x < 2 ^ fractionPlaces x`. -/
theorem fractionPart_lt (x : Float) : fractionPart x < 2 ^ fractionPlaces x := by
  rw [fractionPart]
  split
  · exact Nat.two_pow_pos _
  · next hscale =>
    obtain ⟨k, hk⟩ := Int.eq_ofNat_of_zero_le (show 0 ≤ -scale (pattern x) by omega)
    have hplaces : fractionPlaces x = k := by rw [fractionPlaces, hk, Int.toNat_natCast]
    have hrat := toRat_eq_lastPlaces x
    rw [show scale (pattern x) = -k by omega, zpow_neg, zpow_natCast, ← div_eq_mul_inv] at hrat
    have hfloor := Int.lt_floor_add_one (toRat x)
    have hpow : (0 : ℚ) < 2 ^ k := by positivity
    rw [hplaces, twoPow_eq, Int.toNat_lt' (Nat.two_pow_pos k)]
    rw [hrat, div_lt_iff₀ hpow, ← hrat] at hfloor
    have hlt : lastPlaces x < (⌊toRat x⌋ + 1) * 2 ^ k := by exact_mod_cast hfloor
    push_cast
    linarith

/-- `fractionPlaces x ≤ 52` if `1 ≤ toRat x`. -/
theorem fractionPlaces_le {x : Float} (h : 1 ≤ toRat x) : fractionPlaces x ≤ 52 := by
  have hone : unit 1 = -52 := by norm_num [unit]
  have hunit : unit 1 ≤ unit (value (pattern x)) := by
    refine unit_mono zero_le_one ?_
    rw [← abs_toRat]
    exact h.trans (le_abs_self _)
  rw [unit_value, hone] at hunit
  rw [fractionPlaces]
  omega

/-- `exp2? x` is computed from `⌊toRat x⌋` and `fractionPart x`, if it is not decided at once. -/
theorem exp2?_eq {x : Float} (hx : x.isFinite = true) (hlow : -1100 ≤ ⌊toRat x⌋)
    (hhigh : ⌊toRat x⌋ < 1024) :
    exp2? x =
      if 0 ≤ ⌊toRat x⌋ then
        ofRatio? false (powerOfFraction (fractionPlaces x) (fractionPart x) * 2 ^ ⌊toRat x⌋.toNat)
          (2 ^ workingPlaces)
      else
        ofRatio? false (powerOfFraction (fractionPlaces x) (fractionPart x))
          (2 ^ (workingPlaces + (-⌊toRat x⌋).toNat)) := by
  rw [exp2?, floor?_eq hx]
  dsimp only
  rw [if_neg (by omega), if_neg (by omega)]
  rfl

/-- **`exp2? x` is finite for `0 ≤ toRat x < 1024`**, and lies between the powers with the integer
exponents around it. -/
theorem exp2?_bounds {x : Float} (hx : x.isFinite = true) (h0 : 0 ≤ toRat x)
    (h1024 : toRat x < 1024) :
    ∃ y, exp2? x = some y ∧ y.isFinite = true ∧ 2 ^ ⌊toRat x⌋ ≤ toRat y ∧
      toRat y ≤ 2 ^ (⌊toRat x⌋ + 1) := by
  have hfloor : 0 ≤ ⌊toRat x⌋ := Int.floor_nonneg.2 h0
  have hfloor' : ⌊toRat x⌋ < 1024 := Int.floor_lt.2 (by exact_mod_cast h1024)
  obtain ⟨w, hw⟩ := Int.eq_ofNat_of_zero_le hfloor
  have hlow := le_powerOfFraction (fractionPlaces x) (fractionPart x)
  have hhigh := powerOfFraction_le_two (fractionPart_lt x)
  have hone : (0 : ℚ) < 2 ^ workingPlaces := by positivity
  rw [exp2?_eq hx (by omega) hfloor', if_pos hfloor, hw, Int.toNat_natCast]
  have hlt : ((powerOfFraction (fractionPlaces x) (fractionPart x) * 2 ^ w : ℕ) : ℚ) /
      (2 ^ workingPlaces : ℕ) ≤ 2 ^ ((w : ℤ) + 1) := by
    rw [zpow_add_one₀ two_ne_zero, zpow_natCast]
    push_cast
    rw [div_le_iff₀ hone]
    calc ((powerOfFraction (fractionPlaces x) (fractionPart x) : ℕ) : ℚ) * 2 ^ w
        ≤ (2 * 2 ^ workingPlaces : ℕ) * 2 ^ w := by
          gcongr
      _ = 2 ^ w * 2 * 2 ^ workingPlaces := by
          push_cast
          ring
  refine ofRatio?_bounds (Nat.two_pow_pos _) (by omega) (by omega) ?_ hlt ?_
  · rw [zpow_natCast]
    push_cast
    rw [le_div_iff₀ hone, mul_comm]
    exact_mod_cast Nat.mul_le_mul_right (2 ^ w) hlow
  · rcases Nat.lt_or_ge w 1023 with hsmall | hlarge
    · refine hlt.trans ?_
      rw [← value_power (by omega)]
      exact value_strictMono.monotone
        (Nat.le_sub_one_of_lt (power_lt_infinityPattern (by omega)))
    · -- only in the last octave does the power come close to the greatest double
      obtain rfl : w = 1023 := by omega
      have hle := Int.floor_le (toRat x)
      rw [hw] at hle
      have hplaces := fractionPlaces_le (show 1 ≤ toRat x by push_cast at hle; linarith)
      exact div_le_greatest (powerOfFraction_le_of_places (fractionPart_lt x) hplaces)

/-- `exp2? x` succeeds if `toRat x < 0`. -/
theorem exists_exp2?_of_neg {x : Float} (hx : x.isFinite = true) (hneg : toRat x < 0) :
    ∃ y, exp2? x = some y := by
  have hfloor : ⌊toRat x⌋ < 0 := Int.floor_lt.2 (by exact_mod_cast hneg)
  by_cases hlow : -1100 ≤ ⌊toRat x⌋
  · -- the power is at most one
    obtain ⟨k, hk⟩ := Int.eq_ofNat_of_zero_le (show 0 ≤ -⌊toRat x⌋ - 1 by omega)
    have hexponent : (-⌊toRat x⌋).toNat = k + 1 := by omega
    have hhigh := powerOfFraction_le_two (fractionPart_lt x)
    have hpow : 2 * 2 ^ workingPlaces ≤ 2 ^ (workingPlaces + (k + 1)) := by
      rw [← pow_succ']
      exact pow_le_pow_right₀ one_le_two (by omega)
    have hone : ((powerOfFraction (fractionPlaces x) (fractionPart x) : ℕ) : ℚ) /
        (2 ^ (workingPlaces + (k + 1)) : ℕ) ≤ 2 ^ (0 : ℤ) := by
      rw [zpow_zero, div_le_one (by positivity)]
      exact_mod_cast hhigh.trans hpow
    have hle := (isPattern_nearestPattern _ _ (Nat.two_pow_pos _)).le_power (by positivity)
      (by norm_num) hone
    have hfinite := hle.trans_lt (power_lt_infinityPattern (by norm_num))
    rw [exp2?_eq hx hlow (by omega), if_neg (by omega), hexponent]
    exact ⟨_, if_pos hfinite⟩
  · rw [exp2?, floor?_eq hx]
    dsimp only
    rw [if_neg (by omega), if_pos (by omega)]
    exact ⟨_, rfl⟩

/-- **`exp2? x = none` exactly if `1024 ≤ toRat x`**, for a finite double. -/
theorem exp2?_eq_none_iff {x : Float} (hx : x.isFinite = true) :
    exp2? x = none ↔ 1024 ≤ toRat x := by
  constructor
  · intro h
    by_contra hlt
    have hsome : ∃ y, exp2? x = some y := by
      rcases le_or_gt 0 (toRat x) with h0 | hneg
      · obtain ⟨y, hy, -⟩ := exp2?_bounds hx h0 (not_le.1 hlt)
        exact ⟨y, hy⟩
      · exact exists_exp2?_of_neg hx hneg
    obtain ⟨y, hy⟩ := hsome
    rw [hy] at h
    exact absurd h (by simp)
  · intro h
    have hfloor : 1024 ≤ ⌊toRat x⌋ := Int.le_floor.2 (by exact_mod_cast h)
    rw [exp2?, floor?_eq hx]
    exact if_pos hfloor

/-- `ofRatio? false n d` is finite and not negative. -/
theorem ofRatio?_nonneg {n d : ℕ} {y : Float} (h : ofRatio? false n d = some y) :
    y.isFinite = true ∧ 0 ≤ toRat y := by
  rw [ofRatio?] at h
  split at h
  · next hlt =>
    obtain rfl := Option.some.inj h
    obtain ⟨hfinite, hrat⟩ := toRat_ofPattern hlt
    exact ⟨hfinite, hrat ▸ value_nonneg _⟩
  · exact absurd h (by simp)

/-- `exp2? x` is finite and not negative. -/
theorem exp2?_nonneg {x y : Float} (hx : x.isFinite = true) (h : exp2? x = some y) :
    y.isFinite = true ∧ 0 ≤ toRat y := by
  have hzero : (0.0 : Float).isFinite = true ∧ isNegative 0.0 = false := by decide
  rw [exp2?, floor?_eq hx] at h
  dsimp only at h
  split at h
  · exact absurd h (by simp)
  · split at h
    · obtain rfl := Option.some.inj h
      exact ⟨hzero.1, toRat_nonneg hzero.2⟩
    · split at h
      · exact ofRatio?_nonneg h
      · exact ofRatio?_nonneg h

/-! ## Logarithms -/

/-- `logPlaces places y known` lies between `known` and `known + 1`, moved up by `places`. -/
theorem logPlaces_mem (places y known : ℕ) :
    known * 2 ^ places ≤ logPlaces places y known ∧
      logPlaces places y known < (known + 1) * 2 ^ places := by
  induction places generalizing y known with
  | zero => simp [logPlaces]
  | succ places ih =>
    have hpos : 0 < 2 ^ places := Nat.two_pow_pos places
    rw [logPlaces, pow_succ]
    split
    · obtain ⟨hlow, hhigh⟩ := ih (y * y / twoPow workingPlaces / 2) (2 * known + 1)
      exact ⟨by nlinarith, by nlinarith⟩
    · obtain ⟨hlow, hhigh⟩ := ih (y * y / twoPow workingPlaces) (2 * known)
      exact ⟨by nlinarith, by nlinarith⟩

/-- `floorLog` of a finite double is from -1074 up to 1023. -/
theorem floorLog_ratio_mem {x : Float} (hx : x.isFinite = true) (h0 : 0 < pattern x) :
    -1074 ≤ floorLog (ratio x).1 (ratio x).2 ∧ floorLog (ratio x).1 (ratio x).2 < 1024 := by
  have hvalue := ratio_div x
  have hd := ratio_snd_pos x
  have hpos := value_pos h0
  have hn : 0 < (ratio x).1 := by
    rw [Nat.pos_iff_ne_zero]
    intro hzero
    rw [hzero, Nat.cast_zero, zero_div] at hvalue
    exact hpos.ne hvalue
  rw [floorLog_eq_log hn hd, hvalue]
  constructor
  · rw [← Int.zpow_le_iff_le_log one_lt_two hpos]
    calc ((2 : ℕ) : ℚ) ^ (-1074 : ℤ) = value 1 := by rw [value_one, Nat.cast_ofNat]
      _ ≤ value (pattern x) := value_strictMono.monotone h0
  · rw [← Int.lt_zpow_iff_log_lt one_lt_two hpos]
    calc value (pattern x) < value infinityPattern := value_strictMono (isFinite_iff.1 hx)
      _ = ((2 : ℕ) : ℚ) ^ (1024 : ℤ) := by rw [value_infinityPattern, Nat.cast_ofNat]

/-- `log2Fixed` of a finite double is at most 1075, in units of `2 ^ -log2Places`. -/
theorem natAbs_log2Fixed_le {x : Float} (hx : x.isFinite = true) (h0 : 0 < pattern x) :
    (log2Fixed (ratio x).1 (ratio x).2).natAbs ≤ 1075 * 2 ^ log2Places := by
  obtain ⟨hlow, hhigh⟩ := floorLog_ratio_mem hx h0
  obtain ⟨-, hlt⟩ := logPlaces_mem log2Places
    (scaledDown (ratio x).1 (ratio x).2 (floorLog (ratio x).1 (ratio x).2)) 0
  rw [log2Fixed, twoPow_eq]
  generalize logPlaces _ _ _ = places at hlt ⊢
  generalize floorLog _ _ = whole at hlow hhigh ⊢
  have hpos : 0 < 2 ^ log2Places := Nat.two_pow_pos _
  generalize 2 ^ log2Places = one at hlt hpos ⊢
  rw [zero_add, one_mul] at hlt
  zify
  rw [abs_le]
  constructor
  · nlinarith
  · nlinarith

/-- `ofFixedDown t s` is the nearest double or its neighbour. -/
theorem pattern_ofFixedDown_le (t : ℤ) (s : ℕ) :
    pattern (ofFixedDown t s) ≤ nearestPattern t.natAbs (twoPow s) + 1 := by
  have hnearest : pattern (ofRatio (decide (t < 0)) t.natAbs (twoPow s)) ≤
      nearestPattern t.natAbs (twoPow s) := by
    rw [ofRatio, pattern_ofPattern]
    exact min_le_left _ _
  unfold ofFixedDown
  generalize ofRatio (decide (t < 0)) t.natAbs (twoPow s) = x at hnearest ⊢
  dsimp only
  split_ifs
  all_goals first | exact hnearest.trans (Nat.le_succ _) | rw [pattern_ofPattern]; omega

/-- `nextUp x` is `x` or its neighbour. -/
theorem pattern_nextUp_le (x : Float) : pattern (nextUp x) ≤ pattern x + 1 := by
  unfold nextUp
  split_ifs
  all_goals rw [pattern_ofPattern]; omega

/-- **`Within (log2 x) 11` for a positive finite double.** -/
theorem within_log2 {x : Float} (hx : x.isFinite = true) (h0 : 0 < pattern x) :
    Within (log2 x) 11 := by
  have habs := natAbs_log2Fixed_le hx h0
  generalize ht : log2Fixed (ratio x).1 (ratio x).2 = t at habs
  have hdown := pattern_ofFixedDown_le t log2Places
  have hup := pattern_nextUp_le (ofFixedDown t log2Places)
  -- the logarithm is one of two neighbours near the fixed-point number
  have hnear : pattern (log2 x) ≤ nearestPattern t.natAbs (twoPow log2Places) + 2 := by
    have hbracket : log2Bracket x = (ofFixedDown t log2Places, ofFixedDown t log2Places) ∨
        log2Bracket x = (ofFixedDown t log2Places, nextUp (ofFixedDown t log2Places)) := by
      rw [log2Bracket]
      dsimp only
      rw [ht]
      split
      · exact .inl rfl
      · exact .inr rfl
    rcases log2_mem_bracket x with h | h <;> rcases hbracket with hb | hb <;> rw [h, hb] <;>
      dsimp only <;> omega
  have hbound : nearestPattern t.natAbs (twoPow log2Places) ≤ (11 + 1023) * 2 ^ 52 - 2 := by
    refine (isPattern_nearestPattern _ _ (Nat.two_pow_pos _)).le
      (isPattern_value ((11 + 1023) * 2 ^ 52 - 2)) (by positivity) ?_
    have hm : mantissa ((11 + 1023) * 2 ^ 52 - 2) = 2 ^ 53 - 2 := rfl
    have hs : scale ((11 + 1023) * 2 ^ 52 - 2) = -42 := rfl
    calc ((t.natAbs : ℕ) : ℚ) / (twoPow log2Places : ℕ)
        ≤ (1075 * 2 ^ log2Places : ℕ) / (2 ^ log2Places : ℕ) := by
          rw [twoPow_eq]
          gcongr
      _ = 1075 := by
          push_cast
          rw [mul_div_cancel_right₀ _ (by positivity)]
      _ ≤ value ((11 + 1023) * 2 ^ 52 - 2) := by
          rw [value, hm, hs]
          norm_num
  have hle : pattern (log2 x) ≤ ((11 : ℤ) + 1023).toNat * 2 ^ 52 := by
    have hnat : ((11 : ℤ) + 1023).toNat = 11 + 1023 := rfl
    omega
  refine ⟨isFinite_iff.2 (hle.trans_lt (power_lt_infinityPattern (by norm_num))), ?_⟩
  rw [abs_toRat]
  exact_mod_cast (value_strictMono.monotone hle).trans_eq (value_power (by norm_num))

end Monochord.Binary64
