import Monochord.Proofs.Midi.Bending
import Monochord.Proofs.Quantity

/-! # Which pitches can be played

A frequency has a pitch if it can be compared with the reference pitch at all. Then everything that
is computed from it stays small: its height, its key number, the cents above that key, and the
position of the wheel.

* **`HasPitch`** — the quotient by the reference pitch is finite and positive.
* **`HasPitch.exists_ofFrequency`**, **`hasPitch_of_ofFrequency`** — these are the frequencies that
  have a pitch; **`HasPitch.map_ofFrequency`**: how to find it.
* **`exists_bend_eq_ok`** — such a pitch has a position of the wheel. -/

namespace Monochord.Midi

open Binary64

/-- A frequency for which `f / referencePitch` is finite and positive. -/
structure HasPitch (f : Float) : Prop where
  /-- The quotient is finite. -/
  finite : (f / referencePitch).isFinite = true
  /-- The quotient is positive, and so not rounded to zero. -/
  pos : 0.0 < f / referencePitch

/-! ## Constants -/

/-- `Within x k` if `pattern x` is at most the pattern of `2 ^ k`. -/
theorem within_of_pattern_le {x : Float} {k : ℕ} (hk : k ≤ 1023)
    (hx : pattern x ≤ (k + 1023) * 2 ^ 52) : Within x k := by
  have hnat : ((k : ℤ) + 1023).toNat = k + 1023 := by omega
  have hle : pattern x ≤ ((k : ℤ) + 1023).toNat * 2 ^ 52 := by
    rw [hnat]
    exact hx
  refine ⟨isFinite_iff.2 (hle.trans_lt (power_lt_infinityPattern (by omega))), ?_⟩
  rw [abs_toRat]
  exact_mod_cast (value_strictMono.monotone hle).trans_eq (value_power (by omega))

/-! ## Heights -/

/-- `heightOf (.float f)` is `referenceKey + 12.0 * l` for the logarithm `l` of
`f / referencePitch`. -/
theorem heightOf_float (f : Float) :
    heightOf (.float f) =
      logarithm (f / referencePitch) >>= fun l => .ok (.float (referenceKey + 12.0 * l)) := by
  have hzero : ¬(referencePitch == 0.0) = true := by decide
  have hdiv : (Quantity.float f).div (.float referencePitch) = .ok (f / referencePitch) := by
    show (if referencePitch == 0.0 then Except.error Failure.divisionByZero
      else Except.ok (f / referencePitch)) = _
    rw [if_neg hzero]
  rw [heightOf, hdiv]
  rfl

/-- The height of a frequency with `HasPitch f` is at most `2 ^ 16`. -/
theorem HasPitch.within_height {f : Float} (h : HasPitch f) :
    Within (referenceKey + 12.0 * log2 (f / referencePitch)) 16 := by
  have hpattern : 0 < pattern (f / referencePitch) :=
    ((zero_lt_iff (isFinite_iff.1 h.finite)).1 h.pos).2
  have htwelve : Within 12.0 4 := within_of_pattern_le (by decide) (by decide)
  have hkey : Within referenceKey 15 := within_of_pattern_le (by decide) (by decide)
  exact hkey.add (htwelve.mul (within_log2 h.finite hpattern) (by decide)) (by decide)

/-! ## Pitches -/

/-- `Pitch.ofHeight (.float x)` has the key `floorHalfUp x`, and the deviation `(x - y) * 100.0`
from it. -/
theorem ofHeight_float (x : Float) :
    Pitch.ofHeight (.float x : Number) = floorHalfUp (.float x : Number) >>= fun n =>
      (Number.int n).toFloat >>= fun y => .ok ⟨n, .float ((x - y) * 100.0)⟩ := by
  have hsub (n : ℤ) : Arithmetic.sub (.float x : Number) (Arithmetic.int n) =
      (Number.int n).toFloat >>= fun y => .ok (.float (x - y)) := rfl
  have hmul (z : Float) : Arithmetic.mul (.float z : Number) (Arithmetic.int 100) =
      .ok (.float (z * 100.0)) := by
    have hhundred : (Number.int 100).toFloat = .ok 100.0 := rfl
    show ((Number.int 100).toFloat >>= fun y => Except.ok (Number.float (z * y))) = _
    rw [hhundred]
    rfl
  rw [Pitch.ofHeight]
  congr 1
  funext n
  rw [hsub]
  cases (Number.int n).toFloat with
  | error e => rfl
  | ok y =>
    rw [ok_bind, ok_bind, ok_bind, hmul]
    rfl

/-- `|⌊r⌋| ≤ 2 ^ k` if `|r| ≤ 2 ^ k`. -/
theorem abs_floor_le {r : ℚ} {k : ℕ} (h : |r| ≤ 2 ^ k) : |⌊r⌋| ≤ 2 ^ k := by
  obtain ⟨hlow, hhigh⟩ := abs_le.1 h
  rw [abs_le]
  constructor
  · rw [Int.le_floor]
    push_cast
    exact hlow
  · have hle := (Int.floor_le r).trans hhigh
    exact_mod_cast hle

/-- **`Pitch.ofFrequency (.float f)` succeeds if `HasPitch f`**, with a deviation `c` of
`Within c 25`. -/
theorem HasPitch.exists_ofFrequency {f : Float} (h : HasPitch f) :
    ∃ n c, Pitch.ofFrequency (.float f) = .ok ⟨n, .float c⟩ ∧ Within c 25 := by
  have hheight := h.within_height
  have hhalf : Within 0.5 16 := within_of_pattern_le (by decide) (by decide)
  have hhundred : Within 100.0 7 := within_of_pattern_le (by decide) (by decide)
  obtain ⟨y, hy, hwithin⟩ := exists_toFloat_int (abs_floor_le (hheight.add hhalf (by decide)).le)
    (by decide)
  refine ⟨⌊toRat (referenceKey + 12.0 * log2 (f / referencePitch) + 0.5)⌋, _, ?_,
    ((hheight.mono (by decide)).sub hwithin (by decide)).mul hhundred (by decide)⟩
  rw [Pitch.ofFrequency, heightOf_float, logarithm_of_isFinite h.finite h.pos, ok_bind, ok_bind,
    ofHeight_float, floorHalfUp_float_eq_ok_iff.2 ⟨hheight.finite, rfl⟩, ok_bind, hy]
  rfl

/-- **`Pitch.ofFrequency (.float f)` succeeds only if `HasPitch f`.** -/
theorem hasPitch_of_ofFrequency {f : Float} {p : Pitch Number}
    (h : Pitch.ofFrequency (.float f) = .ok p) : HasPitch f := by
  rw [Pitch.ofFrequency, heightOf_float] at h
  obtain ⟨height, hheight, h⟩ := bind_eq_ok_iff.1 h
  obtain ⟨l, hl, hheight⟩ := bind_eq_ok_iff.1 hheight
  rw [← Except.ok.inj hheight, ofHeight_float] at h
  obtain ⟨n, hn, -⟩ := bind_eq_ok_iff.1 h
  -- only a finite height has a nearest key
  have hsum := (floorHalfUp_float_eq_ok_iff.1 hn).1
  have hproduct := (isFinite_of_add hsum).2
  obtain ⟨hfinite, hpos⟩ := isFinite_of_logarithm hl (isFinite_of_mul hproduct).2
  exact ⟨hfinite, hpos⟩

/-- `(Pitch.ofFrequency (.float f)).map g = .ok b` if the same holds of the pitches at both heights
of `log2Bracket`, the doubles around the logarithm. -/
theorem HasPitch.map_ofFrequency {f : Float} (h : HasPitch f) {β : Type} {g : Pitch Number → β}
    {b : β}
    (hlow : (Pitch.ofHeight (.float
      (referenceKey + 12.0 * (log2Bracket (f / referencePitch)).1) : Number)).map g = .ok b)
    (hhigh : (Pitch.ofHeight (.float
      (referenceKey + 12.0 * (log2Bracket (f / referencePitch)).2) : Number)).map g = .ok b) :
    (Pitch.ofFrequency (.float f)).map g = .ok b := by
  rw [Pitch.ofFrequency, heightOf_float, logarithm_of_isFinite h.finite h.pos, ok_bind, ok_bind]
  rcases log2_mem_bracket (f / referencePitch) with hlog | hlog
  · rw [hlog, hlow]
  · rw [hlog, hhigh]

/-! ## Bends -/

/-- **`bend (.float c)` succeeds if `Within c 25`.** -/
theorem exists_bend_eq_ok {c : Float} (h : Within c 25) :
    ∃ b, bend (.float c : Number) = .ok b := by
  have hrange : (Float.ofInt bendRange).isFinite = true := rfl
  have hone : 1 ≤ |toRat (Float.ofInt bendRange)| := by
    have hpattern : ((0 : ℤ) + 1023).toNat * 2 ^ 52 ≤ pattern (Float.ofInt bendRange) := by
      decide
    rw [abs_toRat]
    exact (value_power (w := 0) (by decide)).symm.le.trans (value_strictMono.monotone hpattern)
  have hcentre : Within 8192.0 13 := within_of_pattern_le (by decide) (by decide)
  have hhalf : Within 0.5 39 := within_of_pattern_le (by decide) (by decide)
  have hproduct := (h.div hrange hone (by decide)).mul hcentre (by decide)
  have hheight : Within (wheelHeight c) 40 :=
    ((hcentre.mono (by decide)).add hproduct (by decide)).add hhalf (by decide)
  refine ⟨clampBend ⌊toRat (wheelHeight c)⌋, ?_⟩
  rw [bend_float, floor?_eq hheight.finite]
  rfl

end Monochord.Midi
