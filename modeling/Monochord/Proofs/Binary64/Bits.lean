import Mathlib
import Monochord.Proofs.Binary64.Nearest

/-! # The bits of a double

A double is stored as 64 bits: a sign, and below it its pattern. Here the pattern of a double is
related to the mantissa and the exponent by which the language itself explains doubles.

* **`signOf`** — a sign bit as a sign.
* **`unpack_eq_finite`**, **`unpack_eq_zero`**, **`unpack_eq_infinity`**, **`unpack_eq_notANumber`**
  — what a double is, by its pattern.
* **`toNat_pack_finite`** — the bits of a mantissa and an exponent; **`pack_unpack`**: bits that
  stand for a number are kept.
* **`toNat_toBits_ofPattern`**, **`ofPattern_pattern`** — a double is made from its sign and
  pattern.
* **`isFinite_iff`**, **`zero_lt_iff`** — finite and positive doubles, by their patterns. -/

namespace Monochord.Binary64

open Float.Model (Format UnpackedFloat)

open Float.Model.UnpackedFloat (Sign unpackMantissa unpackExponent unpackSign packComponents
  packedInfinity)

/-! ## Fields -/

/-- The mantissa field is the lowest 52 bits, `b.toNat % 2 ^ 52`. -/
theorem toNat_unpackMantissa (b : BitVec 64) :
    (@unpackMantissa Format.binary64 b).toNat = b.toNat % 2 ^ 52 := by
  simp [unpackMantissa]

/-- The exponent field is the 11 bits above, `b.toNat / 2 ^ 52 % 2 ^ 11`. -/
theorem toNat_unpackExponent (b : BitVec 64) :
    (@unpackExponent Format.binary64 b).toNat = b.toNat / 2 ^ 52 % 2 ^ 11 := by
  simp [unpackExponent, Nat.shiftRight_eq_div_pow]

/-- The sign field is the highest bit, `b.toNat / 2 ^ 63`. -/
theorem toNat_unpackSign (b : BitVec 64) :
    (@unpackSign Format.binary64 b).toNat = b.toNat / 2 ^ 63 := by
  have hb := b.isLt
  simp only [unpackSign, BitVec.toNat_cast, BitVec.extractLsb_toNat, Nat.shiftRight_eq_div_pow]
  omega

/-- The exponent field whose bits are all set. -/
theorem toNat_fullExponent : (-1#11).toNat = 2047 := rfl

/-- `packComponents` puts the sign at bit 63, the exponent at bit 52 and the mantissa below. -/
theorem toNat_packComponents (s : Sign) (e : BitVec 11) (m : BitVec 52) :
    (packComponents Format.binary64 s e m).toNat =
      s.toBitVec.toNat * 2 ^ 63 + (e.toNat * 2 ^ 52 + m.toNat) := by
  rw [packComponents]
  erw [BitVec.toNat_append, BitVec.toNat_append]
  rw [← Nat.shiftLeft_add_eq_or_of_lt m.isLt, ← Nat.shiftLeft_add_eq_or_of_lt e.isLt]
  simp only [Nat.shiftLeft_eq]
  omega

/-! ## Taking doubles apart -/

/-- The sign that a sign bit stands for. -/
def signOf (negative : Bool) : Sign := if negative then .negative else .positive

/-- The bit of `signOf negative` is 1 for a minus sign. -/
theorem toNat_toBitVec_signOf (negative : Bool) :
    (signOf negative).toBitVec.toNat = if negative then 1 else 0 := by
  cases negative <;> rfl

/-- What 64 bits stand for: the highest bit is a sign, and the others are a pattern. -/
def decode (n : ℕ) : UnpackedFloat :=
  let s := signOf (decide (2 ^ 63 ≤ n))
  let p := n % 2 ^ 63
  if infinityPattern < p then .notANumber
  else if p = infinityPattern then .infinity s
  else if h : 0 < p then .finite s (mantissa p) (scale p) (mantissa_pos h)
  else .zero s

/-- `.finite` depends on the sign, the mantissa and the exponent only. -/
theorem finite_congr {s t : Sign} {m k : ℕ} {e f : ℤ} {hm : 0 < m} {hk : 0 < k} (hs : s = t)
    (h : m = k) (he : e = f) : UnpackedFloat.finite s m e hm = .finite t k f hk := by
  subst hs h he
  rfl

/-- The sign of 64 bits is negative from `2 ^ 63` on. -/
theorem ofBitVec_unpackSign (b : BitVec 64) :
    Sign.ofBitVec (@unpackSign Format.binary64 b) =
      signOf (decide (2 ^ 63 ≤ b.toNat)) := by
  have hb := b.isLt
  have hsign := toNat_unpackSign b
  rw [Sign.ofBitVec, signOf]
  by_cases h : 2 ^ 63 ≤ b.toNat
  · rw [if_neg, if_pos (decide_eq_true h)]
    intro hzero
    rw [hzero, BitVec.toNat_zero] at hsign
    omega
  · rw [if_pos, if_neg (by simpa using h)]
    apply BitVec.eq_of_toNat_eq
    rw [hsign, BitVec.toNat_zero]
    omega

/-- All exponent bits are set from the pattern `2047 * 2 ^ 52` of infinity on. -/
theorem unpackExponent_eq_full_iff (b : BitVec 64) :
    @unpackExponent Format.binary64 b = -1#_ ↔ 2047 * 2 ^ 52 ≤ b.toNat % 2 ^ 63 := by
  have hb := b.isLt
  rw [BitVec.toNat_eq, toNat_unpackExponent, toNat_fullExponent]
  omega

/-- No exponent bit is set in the patterns below `2 ^ 52`. -/
theorem unpackExponent_eq_zero_iff (b : BitVec 64) :
    @unpackExponent Format.binary64 b = 0#_ ↔ b.toNat % 2 ^ 63 < 2 ^ 52 := by
  have hb := b.isLt
  rw [BitVec.toNat_eq, toNat_unpackExponent, BitVec.toNat_zero]
  omega

/-- The mantissa is empty at powers of two and at zero. -/
theorem unpackMantissa_eq_zero_iff (b : BitVec 64) :
    @unpackMantissa Format.binary64 b = 0#_ ↔ b.toNat % 2 ^ 52 = 0 := by
  rw [BitVec.toNat_eq, toNat_unpackMantissa, BitVec.toNat_zero]

/-- **`unpack` of 64 bits is `decode b.toNat`.** -/
theorem unpack_bitVec (b : BitVec 64) :
    UnpackedFloat.unpack Format.binary64 b = decode b.toNat := by
  have hb := b.isLt
  have hm := toNat_unpackMantissa b
  have he := toNat_unpackExponent b
  have hinf := infinityPattern_eq
  have hbias : (Format.binary64.exponentBias : ℤ) = 1023 := rfl
  have hfull := unpackExponent_eq_full_iff b
  have hnone := unpackExponent_eq_zero_iff b
  have hempty := unpackMantissa_eq_zero_iff b
  rw [UnpackedFloat.unpack, decode]
  dsimp only
  rw [ofBitVec_unpackSign]
  by_cases h1 : 2047 * 2 ^ 52 ≤ b.toNat % 2 ^ 63
  · -- all exponent bits are set: infinity, or not a number
    rw [if_pos (hfull.2 h1)]
    by_cases h2 : b.toNat % 2 ^ 52 = 0
    · have hp : b.toNat % 2 ^ 63 = infinityPattern := by omega
      rw [if_pos (hempty.2 h2), if_neg hp.le.not_gt, if_pos hp]
    · have hp : infinityPattern < b.toNat % 2 ^ 63 := by omega
      rw [if_neg (fun h => h2 (hempty.1 h)), if_pos hp]
  have hp : b.toNat % 2 ^ 63 < infinityPattern := by omega
  rw [if_neg (fun h => h1 (hfull.1 h)), if_neg hp.not_gt, if_neg hp.ne]
  by_cases h3 : b.toNat % 2 ^ 63 < 2 ^ 52
  · -- none is set: zero, or the mantissa without a leading one
    rw [if_pos (hnone.2 h3)]
    by_cases h2 : b.toNat % 2 ^ 52 = 0
    · have h0 : ¬ 0 < b.toNat % 2 ^ 63 := by omega
      rw [dif_pos (hempty.2 h2), dif_neg h0]
    · have h0 : 0 < b.toNat % 2 ^ 63 := by omega
      rw [dif_neg (fun h => h2 (hempty.1 h)), dif_pos h0]
      obtain ⟨hmant, hscale⟩ := mantissa_scale_of_lt h3
      refine finite_congr rfl ?_ ?_
      · rw [hm, hmant]
        omega
      · rw [he, hscale, hbias]
        omega
  · -- any other exponent: the mantissa gets its leading one back
    have h0 : 0 < b.toNat % 2 ^ 63 := by omega
    rw [if_neg (fun h => h3 (hnone.1 h)), dif_pos h0]
    obtain ⟨hmant, hscale⟩ := mantissa_scale_of_le (not_lt.1 h3)
    refine finite_congr rfl ?_ ?_
    · rw [BitVec.toNat_append, ← Nat.shiftLeft_add_eq_or_of_lt (BitVec.isLt _), hm, hmant,
        Nat.shiftLeft_eq, BitVec.toNat_ofNat]
      show 1 % 2 ^ 1 * 2 ^ 52 + b.toNat % 2 ^ 52 = 2 ^ 52 + b.toNat % 2 ^ 63 % 2 ^ 52
      omega
    · rw [he, hscale, hbias]
      omega

/-! ## Putting doubles together -/

/-- The bits of a double with a given sign and pattern; a pattern above `infinityPattern` counts as
that. -/
def bitsOf (negative : Bool) (p : ℕ) : ℕ :=
  (if negative then 2 ^ 63 else 0) + min p infinityPattern

/-- **The bits of `± m * 2 ^ e` are `bitsOf` of the pattern `(e + 1074) * 2 ^ 52 + m`.** -/
theorem toNat_pack_finite (negative : Bool) {m : ℕ} {e : ℤ} (hm : 0 < m) (hm53 : m < 2 ^ 53)
    (he : -1074 ≤ e) (hfull : -1074 < e → 2 ^ 52 ≤ m) :
    (UnpackedFloat.pack Format.binary64 (.finite (signOf negative) m e hm)).toNat =
      bitsOf negative ((e + 1074).toNat * 2 ^ 52 + m) := by
  have hinf := infinityPattern_eq
  have hbias : (e + (Format.binary64.exponentBias : ℕ) + (52 : ℕ)).toNat = (e + 1075).toNat := by
    simp only [Format.exponentBias]
    omega
  have hsign := toNat_toBitVec_signOf negative
  have hlog : m.log2 + 1 = Format.binary64.mantissaBits ↔ 2 ^ 52 ≤ m := by
    have hlt : m.log2 < 53 := (Nat.log2_lt hm.ne').2 hm53
    have hle : 52 ≤ m.log2 ↔ 2 ^ 52 ≤ m := Nat.le_log2 hm.ne'
    have hbits : Format.binary64.mantissaBits = 53 := rfl
    rw [← hle, hbits]
    omega
  rw [UnpackedFloat.pack]
  dsimp only
  rw [hbias, bitsOf]
  by_cases h1 : 2 ^ 11 ≤ (e + 1075).toNat + 1
  · -- too large an exponent: infinity, whose pattern bounds all others
    have hzero : (0 : BitVec 52).toNat = 0 := rfl
    have hm52 := hfull (by omega)
    rw [if_pos h1, packedInfinity, toNat_packComponents, hsign, toNat_fullExponent, hzero]
    split <;> omega
  rw [if_neg h1]
  by_cases h2 : 2 ^ 52 ≤ m
  · -- the leading one is not stored, but adds one to the exponent field
    rw [if_pos (hlog.2 h2), toNat_packComponents, hsign, BitVec.toNat_ofNat, BitVec.toNat_ofNat]
    split <;> omega
  · -- without a leading one the exponent is the smallest, and its field is zero
    rw [if_neg (fun h => h2 (hlog.1 h)), toNat_packComponents, hsign, BitVec.toNat_ofNat,
      BitVec.toNat_ofNat]
    split <;> omega

/-- The bits of a zero are `bitsOf negative 0`. -/
theorem toNat_pack_zero (negative : Bool) :
    (UnpackedFloat.pack Format.binary64 (.zero (signOf negative))).toNat = bitsOf negative 0 := by
  cases negative <;> rfl

/-- `pack` undoes `unpack` for bits that stand for a number. -/
theorem pack_unpack (b : BitVec 64) (h : b.toNat % 2 ^ 63 ≤ infinityPattern) :
    UnpackedFloat.pack Format.binary64 (UnpackedFloat.unpack Format.binary64 b) = b := by
  have hinf := infinityPattern_eq
  have hnan : ¬@UnpackedFloat.isNaNBits Format.binary64 b = true := by
    rw [UnpackedFloat.isNaNBits, decide_eq_true_eq]
    rintro ⟨hexponent, hmantissa⟩
    -- a full exponent leaves no place for a mantissa
    have he := toNat_unpackExponent b
    rw [hexponent, toNat_fullExponent] at he
    apply hmantissa
    apply BitVec.eq_of_toNat_eq
    rw [toNat_unpackMantissa, BitVec.toNat_zero]
    omega
  exact (@UnpackedFloat.pack_unpack Format.binary64 b (by decide)).trans (if_neg hnan)

/-! ## Doubles by their patterns -/

/-- `x = y` if `x.toBits = y.toBits`. -/
theorem float_ext {x y : Float} (h : x.toBits.toNat = y.toBits.toNat) : x = y :=
  Float.toBits_inj.1 (UInt64.toNat_inj.1 h)

/-- `bitsOf negative p < 2 ^ 64`. -/
theorem bitsOf_lt (negative : Bool) (p : ℕ) : bitsOf negative p < 2 ^ 64 := by
  have hinf := infinityPattern_eq
  rw [bitsOf]
  split <;> omega

/-- **`ofPattern negative p` has the bits `bitsOf negative p`.** -/
theorem toNat_toBits_ofPattern (negative : Bool) (p : ℕ) :
    (ofPattern negative p).toBits.toNat = bitsOf negative p := by
  have hinf := infinityPattern_eq
  have hlt := bitsOf_lt negative p
  have hu : (UInt64.ofNat (bitsOf negative p)).toBitVec.toNat = bitsOf negative p := by
    rw [UInt64.toNat_toBitVec, UInt64.toNat_ofNat']
    exact Nat.mod_eq_of_lt hlt
  have h := pack_unpack (UInt64.ofNat (bitsOf negative p)).toBitVec (by
    rw [hu, bitsOf]
    split <;> omega)
  exact (congrArg BitVec.toNat h).trans hu

/-- `x.toBits = bitsOf negative p` determines the pattern `min p infinityPattern` and the sign. -/
theorem pattern_isNegative_of_bits {x : Float} {negative : Bool} {p : ℕ}
    (h : x.toBits.toNat = bitsOf negative p) :
    pattern x = min p infinityPattern ∧ isNegative x = negative := by
  have hinf := infinityPattern_eq
  rw [pattern, isNegative, h, bitsOf, twoPow_eq]
  cases negative with
  | false =>
    rw [if_neg Bool.false_ne_true]
    exact ⟨by omega, decide_eq_false (by omega)⟩
  | true =>
    rw [if_pos rfl]
    exact ⟨by omega, decide_eq_true (by omega)⟩

/-- `pattern (ofPattern negative p) = min p infinityPattern`. -/
theorem pattern_ofPattern (negative : Bool) (p : ℕ) :
    pattern (ofPattern negative p) = min p infinityPattern :=
  (pattern_isNegative_of_bits (toNat_toBits_ofPattern negative p)).1

/-- `isNegative (ofPattern negative p) = negative`. -/
theorem isNegative_ofPattern (negative : Bool) (p : ℕ) :
    isNegative (ofPattern negative p) = negative :=
  (pattern_isNegative_of_bits (toNat_toBits_ofPattern negative p)).2

/-- `x.toBits = bitsOf (isNegative x) (pattern x)` if `x` is a number. -/
theorem toNat_toBits (x : Float) (h : pattern x ≤ infinityPattern) :
    x.toBits.toNat = bitsOf (isNegative x) (pattern x) := by
  have hx : x.toBits.toNat < 2 ^ 64 := UInt64.toNat_lt _
  rw [bitsOf, min_eq_left h, isNegative, pattern, twoPow_eq]
  simp only [decide_eq_true_eq]
  split <;> omega

/-- **`ofPattern (isNegative x) (pattern x) = x`** if `x` is a number. -/
theorem ofPattern_pattern (x : Float) (h : pattern x ≤ infinityPattern) :
    ofPattern (isNegative x) (pattern x) = x := by
  apply float_ext
  rw [toNat_toBits_ofPattern, toNat_toBits x h]

/-- `x.toModel.unpack = decode x.toBits.toNat`. -/
theorem unpack_eq_decode (x : Float) : x.toModel.unpack = decode x.toBits.toNat :=
  unpack_bitVec _

/-- A finite double with `0 < pattern x` unpacks to its `mantissa` and its `scale`. -/
theorem unpack_eq_finite {x : Float} (h : pattern x < infinityPattern) (h0 : 0 < pattern x) :
    x.toModel.unpack =
      .finite (signOf (isNegative x)) (mantissa (pattern x)) (scale (pattern x))
        (mantissa_pos h0) := by
  rw [unpack_eq_decode, decode]
  rw [pattern, twoPow_eq] at h h0
  rw [if_neg h.not_gt, if_neg h.ne, dif_pos h0]
  rfl

/-- A double with `pattern x = 0` unpacks to `.zero`. -/
theorem unpack_eq_zero {x : Float} (h : pattern x = 0) :
    x.toModel.unpack = .zero (signOf (isNegative x)) := by
  have hinf := infinityPattern_eq
  rw [unpack_eq_decode, decode]
  rw [pattern, twoPow_eq] at h
  rw [h, if_neg (by omega), if_neg (by omega), dif_neg (lt_irrefl 0)]
  rfl

/-- A double with `pattern x = infinityPattern` unpacks to `.infinity`. -/
theorem unpack_eq_infinity {x : Float} (h : pattern x = infinityPattern) :
    x.toModel.unpack = .infinity (signOf (isNegative x)) := by
  rw [unpack_eq_decode, decode]
  rw [pattern, twoPow_eq] at h
  rw [h, if_neg (lt_irrefl _), if_pos rfl]
  rfl

/-- A double with `infinityPattern < pattern x` unpacks to `.notANumber`. -/
theorem unpack_eq_notANumber {x : Float} (h : infinityPattern < pattern x) :
    x.toModel.unpack = .notANumber := by
  rw [unpack_eq_decode, decode]
  rw [pattern, twoPow_eq] at h
  rw [if_pos h]

/-- **`x.isFinite` exactly if `pattern x < infinityPattern`.** -/
theorem isFinite_iff {x : Float} : x.isFinite = true ↔ pattern x < infinityPattern := by
  show x.toModel.unpack.isFinite = true ↔ _
  rcases lt_trichotomy (pattern x) infinityPattern with h | h | h
  · rcases Nat.eq_zero_or_pos (pattern x) with h0 | h0
    · rw [unpack_eq_zero h0]
      exact ⟨fun _ => h, fun _ => rfl⟩
    · rw [unpack_eq_finite h h0]
      exact ⟨fun _ => h, fun _ => rfl⟩
  · rw [unpack_eq_infinity h, h]
    exact ⟨fun hfalse => absurd hfalse Bool.false_ne_true, fun hlt => absurd hlt (lt_irrefl _)⟩
  · rw [unpack_eq_notANumber h]
    exact ⟨fun hfalse => absurd hfalse Bool.false_ne_true, fun hlt => absurd hlt h.not_gt⟩

/-- `x.isNaN = false` if `pattern x ≤ infinityPattern`. -/
theorem isNaN_of_pattern_le {x : Float} (h : pattern x ≤ infinityPattern) : x.isNaN = false := by
  show x.toModel.unpack.isNaN = false
  rcases h.lt_or_eq with h | h
  · rcases Nat.eq_zero_or_pos (pattern x) with h0 | h0
    · rw [unpack_eq_zero h0]
      rfl
    · rw [unpack_eq_finite h h0]
      rfl
  · rw [unpack_eq_infinity h]
    rfl

/-- `x.isNaN = false` if `x.isFinite`. -/
theorem isNaN_of_isFinite {x : Float} (h : x.isFinite = true) : x.isNaN = false :=
  isNaN_of_pattern_le (isFinite_iff.1 h).le

/-- `x < y` compares what `x` and `y` unpack to. -/
theorem lt_iff {x y : Float} : x < y ↔ x.toModel.unpack.lt y.toModel.unpack = true := by
  show decide (x.toModel.lt y.toModel = true) = true ↔ _
  rw [decide_eq_true_iff]
  rfl

/-- **`0.0 < x` exactly if `x` has no minus sign and `0 < pattern x`**, for a finite double. -/
theorem zero_lt_iff {x : Float} (h : pattern x < infinityPattern) :
    0.0 < x ↔ isNegative x = false ∧ 0 < pattern x := by
  have hzero : (0.0 : Float).toModel.unpack = .zero (signOf (isNegative 0.0)) :=
    unpack_eq_zero rfl
  have hplus : isNegative 0.0 = false := rfl
  rw [lt_iff, hzero, hplus]
  -- both zeros are equal to the positive one
  rcases Nat.eq_zero_or_pos (pattern x) with h0 | h0
  · rw [unpack_eq_zero h0, h0]
    exact ⟨fun hfalse => absurd hfalse Bool.false_ne_true, fun hlt => absurd hlt.2 (lt_irrefl 0)⟩
  · rw [unpack_eq_finite h h0]
    cases isNegative x with
    | false => exact ⟨fun _ => ⟨rfl, h0⟩, fun _ => rfl⟩
    | true =>
      exact ⟨fun hfalse => absurd hfalse Bool.false_ne_true,
        fun hlt => absurd hlt.1 Bool.noConfusion⟩

end Monochord.Binary64
