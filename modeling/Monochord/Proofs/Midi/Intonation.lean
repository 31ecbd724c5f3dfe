import Monochord.Proofs.Arithmetic
import Monochord.Proofs.Midi.Bending

/-! # How exact a pitch is

A pitch is sent as a key and a position of the wheel, both of them integers. In exact arithmetic the
key is the nearest one, and the position makes up for the rest up to half a step of the wheel.

* **`bend_rat`** — the position of the wheel; **`bend_spec`**: how far it is from the deviation.
* **`Pitch.ofHeight_rat`** — the key and the deviation.
* **`Pitch.Encodes`** — a key and a position stand for a height; **`Pitch.exists_encodes`**: every
  height has them.
* **`key_and_bend_encode_height`** — both together. -/

namespace Monochord.Midi

/-! ## Positions of the wheel -/

/-- The position `8192 + c / 200 * 8192` of the wheel for a deviation, before it is rounded. -/
def wheelPosition (c : ℚ) : ℚ := 8192 + c / 200 * 8192

/-- In ℚ `bend c = .ok (clampBend (round (wheelPosition c)))`. -/
theorem bend_rat (c : ℚ) : bend c = .ok (clampBend (round (wheelPosition c))) := by
  have hdiv : Arithmetic.div c (Arithmetic.real bendRange) = .ok (c / 200) :=
    if_neg (by norm_num [Arithmetic.real, bendRange])
  have hcentre : (Arithmetic.int bendCentre : ℚ) = 8192 := by norm_num [Arithmetic.int, bendCentre]
  rw [bend, hdiv, ok_bind, hcentre]
  show (floorHalfUp (wheelPosition c) >>= fun n => pure (clampBend n)) = _
  rw [floorHalfUp_eq_round]
  rfl

/-- `clampBend n = n` if `0 ≤ n ≤ 16383`. -/
theorem coe_clampBend {n : ℤ} (hlow : 0 ≤ n) (hhigh : n ≤ 16383) : ((clampBend n : ℕ) : ℤ) = n := by
  show ((max 0 (min bendMax n)).toNat : ℤ) = n
  rw [bendMax]
  omega

/-- `0 ≤ round (wheelPosition c) ≤ 16383` for deviations from -200 up to half a step below 200. -/
theorem round_wheelPosition_mem {c : ℚ} (hlow : -200 ≤ c) (hhigh : c < 200 * (8191.5 / 8192)) :
    0 ≤ round (wheelPosition c) ∧ round (wheelPosition c) ≤ 16383 := by
  rw [le_round_iff, round_le_iff, wheelPosition]
  norm_num at hhigh ⊢
  constructor <;> linarith

/-- `200 * (n - 8192) / 8192` is at most half a step away from `c` if `n = round (wheelPosition c)`.
-/
theorem abs_bend_sub_le {c : ℚ} {n : ℤ} (h : n = round (wheelPosition c)) :
    |200 * ((n : ℚ) - 8192) / 8192 - c| ≤ 100 / 8192 := by
  have hround := abs_sub_round (wheelPosition c)
  rw [← h, wheelPosition, abs_le] at hround
  rw [abs_le]
  constructor <;> linarith [hround.1, hround.2]

/-- `clampBend n = 0` for `n ≤ 0`. -/
theorem coe_clampBend_of_le {n : ℤ} (h : n ≤ 0) : (clampBend n : ℕ) = 0 := by
  show (max 0 (min bendMax n)).toNat = 0
  omega

/-- `clampBend n = 16383` for `16383 ≤ n`. -/
theorem coe_clampBend_of_ge {n : ℤ} (h : 16383 ≤ n) : (clampBend n : ℕ) = 16383 := by
  show (max 0 (min bendMax n)).toNat = 16383
  rw [bendMax]
  omega

/-- **`bend c` is at most half a step away from a deviation in the range**, 0 below the range and
16383 above it. -/
theorem bend_spec (c : ℚ) : ∃ b : Fin 16384, bend c = .ok b ∧
    (-200 ≤ c → c < 200 * (8191.5 / 8192) →
      (((b : ℕ) : ℤ) = round (wheelPosition c) ∧
        |200 * (((b : ℕ) : ℚ) - 8192) / 8192 - c| ≤ 100 / 8192)) ∧
    (c < -200 → (b : ℕ) = 0) ∧ (200 * (8191.5 / 8192) ≤ c → (b : ℕ) = 16383) := by
  refine ⟨_, bend_rat c, ?_, ?_, ?_⟩
  · intro hlow hhigh
    obtain ⟨h0, hmax⟩ := round_wheelPosition_mem hlow hhigh
    have hexact := coe_clampBend h0 hmax
    have herror := abs_bend_sub_le hexact
    rw [Int.cast_natCast] at herror
    exact ⟨hexact, herror⟩
  · intro hbelow
    refine coe_clampBend_of_le ?_
    rw [round_le_iff, wheelPosition]
    push_cast
    linarith
  · intro habove
    refine coe_clampBend_of_ge ?_
    rw [le_round_iff, wheelPosition]
    norm_num at habove ⊢
    linarith

/-- `a ≤ b` if `bend c = .ok a`, `bend d = .ok b` and `c ≤ d`. -/
theorem bend_rat_mono {c d : ℚ} (h : c ≤ d) :
    ∃ a b : Fin 16384, bend c = .ok a ∧ bend d = .ok b ∧ a ≤ b := by
  refine ⟨_, _, bend_rat c, bend_rat d, clampBend_mono (round_le_round ?_)⟩
  rw [wheelPosition, wheelPosition]
  linarith

/-! ## Keys -/

/-- In ℚ `Pitch.ofHeight m = .ok ⟨round m, 100 * (m - round m)⟩`. -/
theorem Pitch.ofHeight_rat (m : ℚ) :
    Pitch.ofHeight m = .ok ⟨round m, 100 * (m - round m)⟩ := by
  have hcents : (Arithmetic.int 100 : ℚ) = 100 := by norm_num [Arithmetic.int]
  rw [ofHeight, floorHalfUp_eq_round, ok_bind, hcents]
  show Except.ok (Pitch.mk (round m) ((m - (round m : ℚ)) * 100)) = _
  rw [mul_comm]

/-- `p.needsBend` exactly if `1 / 2 < |p.cents|`. -/
theorem Pitch.needsBend_rat_iff {p : Pitch ℚ} : p.needsBend = true ↔ 1 / 2 < |p.cents| := by
  have habs : Arithmetic.magnitude p.cents = |p.cents| := by
    show (if p.cents < 0 then -p.cents else p.cents) = _
    split
    · next hneg => exact (abs_of_neg hneg).symm
    · next hpos => exact (abs_of_nonneg (not_lt.1 hpos)).symm
  rw [needsBend, isBeyond, habs]
  exact decide_eq_true_iff

/-- `-50 ≤ 100 * (m - round m) < 50`. -/
theorem cents_mem (m : ℚ) : -50 ≤ 100 * (m - round m) ∧ 100 * (m - round m) < 50 := by
  have hle := Int.floor_le (m + 1 / 2)
  have hlt := Int.lt_floor_add_one (m + 1 / 2)
  rw [← round_eq] at hle hlt
  constructor <;> linarith

/-- **A key with a deviation, and a position of the wheel, stand for an exact height.** -/
structure Pitch.Encodes (p : Pitch ℚ) (b : Fin 16384) (m : ℚ) : Prop where
  /-- The key is the nearest one, a half going up. -/
  note : p.note = ⌊m + 1 / 2⌋
  /-- The deviation is what is left. -/
  cents : p.cents = 100 * (m - p.note)
  /-- It is at most half a semitone. -/
  cents_mem : -50 ≤ p.cents ∧ p.cents < 50
  /-- The position is that of the deviation. -/
  position : bend p.cents = .ok b
  /-- The position is in the middle half of the range of the wheel. -/
  position_mem : 6144 ≤ (b : ℕ) ∧ (b : ℕ) ≤ 10240
  /-- So it has not been cut off. -/
  position_eq : ((b : ℕ) : ℤ) = round (wheelPosition p.cents)
  /-- Key and position are at most half a step of the wheel away from the height. -/
  error : |100 * (p.note : ℚ) + 200 * (((b : ℕ) : ℚ) - 8192) / 8192 - 100 * m| ≤ 100 / 8192
  /-- The position is sent for more than half a cent. -/
  needsBend_iff : p.needsBend = true ↔ 1 / 2 < |p.cents|
  /-- Otherwise the key alone is at most half a cent away from the height. -/
  error_of_unbent : p.needsBend = false → |100 * (p.note : ℚ) - 100 * m| ≤ 1 / 2

/-- `6144 ≤ round (wheelPosition c) ≤ 10240` if `-50 ≤ c < 50`. -/
theorem round_wheelPosition_middle {c : ℚ} (hlow : -50 ≤ c) (hhigh : c < 50) :
    6144 ≤ round (wheelPosition c) ∧ round (wheelPosition c) ≤ 10240 := by
  rw [le_round_iff, round_le_iff, wheelPosition]
  push_cast
  constructor <;> linarith

/-- **`Pitch.ofHeight m = .ok p` with `p.Encodes b m`**, for every exact height `m`. -/
theorem Pitch.exists_encodes (m : ℚ) :
    ∃ (p : Pitch ℚ) (b : Fin 16384), Pitch.ofHeight m = .ok p ∧ p.Encodes b m := by
  obtain ⟨hlow, hhigh⟩ := cents_mem m
  obtain ⟨b, hb, hinside, -, -⟩ := bend_spec (100 * (m - round m))
  obtain ⟨hexact, herror⟩ := hinside (by linarith) (by norm_num; linarith)
  refine ⟨_, b, Pitch.ofHeight_rat m, ?_⟩
  exact {
    note := round_eq m
    cents := rfl
    cents_mem := ⟨hlow, hhigh⟩
    position := hb
    position_mem := by
      have hmiddle := round_wheelPosition_middle hlow hhigh
      omega
    position_eq := hexact
    error := by
      -- the key makes up for what the deviation has lost
      have hsum : 100 * (round m : ℚ) + 200 * (((b : ℕ) : ℚ) - 8192) / 8192 - 100 * m =
          200 * (((b : ℕ) : ℚ) - 8192) / 8192 - 100 * (m - round m) := by
        ring
      rw [hsum]
      exact herror
    needsBend_iff := Pitch.needsBend_rat_iff
    error_of_unbent := by
      intro hunbent
      have hle : |100 * (m - round m)| ≤ 1 / 2 := by
        rw [← not_lt, ← Pitch.needsBend_rat_iff (p := ⟨round m, 100 * (m - round m)⟩), hunbent]
        exact Bool.false_ne_true
      rw [← mul_sub, abs_mul, abs_sub_comm, ← abs_mul]
      exact hle }

/-- **A key and a bend together are a pitch up to half a step of the wheel.**

For every exact height `m` there are `p` and `b` with `Pitch.ofHeight m = .ok p` and
`p.Encodes b m`: the key is the nearest one, the deviation is at most half a semitone, the position
is not cut off, and key and position are at most half a step away from `m`; without a bend the key
alone is at most half a cent away. For every exact deviation `c` there is a position
`bend c = .ok b`, which does not fall as `c` grows. It is at most half a step away from a deviation
in the range, and 0 or 16383 for any other. -/
theorem key_and_bend_encode_height :
    (∀ m : ℚ, ∃ (p : Pitch ℚ) (b : Fin 16384), Pitch.ofHeight m = .ok p ∧ p.Encodes b m) ∧
    (∀ c : ℚ, ∃ b : Fin 16384, bend c = .ok b ∧
      (-200 ≤ c → c < 200 * (8191.5 / 8192) →
        (((b : ℕ) : ℤ) = round (wheelPosition c) ∧
          |200 * (((b : ℕ) : ℚ) - 8192) / 8192 - c| ≤ 100 / 8192)) ∧
      (c < -200 → (b : ℕ) = 0) ∧ (200 * (8191.5 / 8192) ≤ c → (b : ℕ) = 16383)) ∧
    ∀ c d : ℚ, c ≤ d → ∃ a b : Fin 16384, bend c = .ok a ∧ bend d = .ok b ∧ a ≤ b :=
  ⟨Pitch.exists_encodes, bend_spec, fun _ _ => bend_rat_mono⟩

/-- The height 139/2 is halfway between two keys, so that the upper one is taken and bent down, and
the position for a whole tone up is just outside the range. -/
theorem key_and_bend_encode_height_halfway :
    (∃ b : Fin 16384, Pitch.ofHeight (139 / 2 : ℚ) = .ok ⟨70, -50⟩ ∧ (b : ℕ) = 6144 ∧
      bend (-50 : ℚ) = .ok b) ∧
    ∃ b : Fin 16384, (b : ℕ) = 16383 ∧ bend (200 : ℚ) = .ok b := by
  obtain ⟨hheights, hbends, -⟩ := key_and_bend_encode_height
  constructor
  · obtain ⟨⟨note, cents⟩, b, hp, h⟩ := hheights (139 / 2)
    obtain rfl : note = 70 := h.note.trans (by rw [Int.floor_eq_iff]; norm_num)
    obtain rfl : cents = -50 := h.cents.trans (by norm_num)
    refine ⟨b, hp, ?_, h.position⟩
    have hposition : ((b : ℕ) : ℤ) = 6144 := by
      rw [h.position_eq, round_eq, Int.floor_eq_iff]
      norm_num [wheelPosition]
    omega
  · obtain ⟨b, hb, -, -, habove⟩ := hbends 200
    exact ⟨b, habove (by norm_num), hb⟩

end Monochord.Midi
