import Monochord.Midi.Pitch
import Monochord.Proofs.Binary64.Operations
import Monochord.Proofs.Outcome

/-! # Positions of the wheel

A deviation in cents becomes a position of the pitch wheel by a formula on doubles, each step of
which rounds. Since every step preserves order, so does the whole.

* **`bend_mono`** — a greater deviation has no lower position.
* **`bend_ne_centre`** — a note that needs a bend never gets the position at rest.
* **`Pitch.exists_cents_eq`** — the deviation of a frequency is a double. -/

namespace Monochord.Midi

open Binary64

/-! ## The formula -/

/-- The height `8192.0 + c / 200 * 8192.0 + 0.5` of a deviation, before it is cut off to an integer.
-/
def wheelHeight (c : Float) : Float := 8192.0 + c / Float.ofInt bendRange * 8192.0 + 0.5

/-- `bend (.float c)` is `clampBend` of the integer below `wheelHeight c`. -/
theorem bend_float (c : Float) :
    bend (.float c : Number) =
      Number.integerOr (wheelHeight c) (floor? (wheelHeight c)) >>= fun n => pure (clampBend n) :=
  rfl

/-- `bend (.float c)` succeeds only if `wheelHeight c` is finite, and then with `clampBend` of its
floor. -/
theorem bend_eq_ok {c : Float} {b : Fin 16384} (h : bend (.float c : Number) = .ok b) :
    (wheelHeight c).isFinite = true ∧ b = clampBend ⌊toRat (wheelHeight c)⌋ := by
  rw [bend_float] at h
  obtain ⟨n, hn, h⟩ := bind_eq_ok_iff.1 h
  have hfinite : (wheelHeight c).isFinite = true := by
    by_contra hnot
    rw [floor?, if_neg hnot] at hn
    exact absurd hn (by simp [Number.integerOr])
  rw [floor?_eq hfinite] at hn
  refine ⟨hfinite, ?_⟩
  rw [Except.ok.inj hn]
  exact (Except.ok.inj h).symm

/-- The steps of `wheelHeight c` are finite if `wheelHeight c` is. -/
theorem isFinite_of_wheelHeight {c : Float} (h : (wheelHeight c).isFinite = true) :
    c.isFinite = true ∧ (c / Float.ofInt bendRange).isFinite = true ∧
      (c / Float.ofInt bendRange * 8192.0).isFinite = true ∧
      (8192.0 + c / Float.ofInt bendRange * 8192.0).isFinite = true := by
  obtain ⟨hsum, -⟩ := isFinite_of_add h
  obtain ⟨-, hproduct⟩ := isFinite_of_add hsum
  obtain ⟨hquotient, -⟩ := isFinite_of_mul hproduct
  exact ⟨isFinite_of_div hquotient, hquotient, hproduct, hsum⟩

/-- **`wheelHeight` preserves order**, as every step of it does. -/
theorem wheelHeight_mono {c d : Float} (hc : (wheelHeight c).isFinite = true)
    (hd : (wheelHeight d).isFinite = true) (h : toRat c ≤ toRat d) :
    toRat (wheelHeight c) ≤ toRat (wheelHeight d) := by
  have hrange : (Float.ofInt bendRange).isFinite = true ∧ 0 < pattern (Float.ofInt bendRange) ∧
      isNegative (Float.ofInt bendRange) = false := by
    decide
  have hcentre : (8192.0 : Float).isFinite = true ∧ isNegative 8192.0 = false := by decide
  have hhalf : (0.5 : Float).isFinite = true := rfl
  -- the steps from the deviation to the height, one after another
  obtain ⟨hc0, hc1, hc2, hc3⟩ := isFinite_of_wheelHeight hc
  obtain ⟨hd0, hd1, hd2, hd3⟩ := isFinite_of_wheelHeight hd
  have hquotient : toRat (c / Float.ofInt bendRange) ≤ toRat (d / Float.ofInt bendRange) := by
    refine (rounds_div hc0 hrange.1 hrange.2.1).le (rounds_div hd0 hrange.1 hrange.2.1) hc1 hd1 ?_
    exact div_le_div_of_nonneg_right h (toRat_nonneg hrange.2.2)
  have hproduct : toRat (c / Float.ofInt bendRange * 8192.0) ≤
      toRat (d / Float.ofInt bendRange * 8192.0) := by
    refine (rounds_mul hc1 hcentre.1).le (rounds_mul hd1 hcentre.1) hc2 hd2 ?_
    exact mul_le_mul_of_nonneg_right hquotient (toRat_nonneg hcentre.2)
  have hsum : toRat (8192.0 + c / Float.ofInt bendRange * 8192.0) ≤
      toRat (8192.0 + d / Float.ofInt bendRange * 8192.0) := by
    refine (rounds_add hcentre.1 hc2).le (rounds_add hcentre.1 hd2) hc3 hd3 ?_
    exact add_le_add_right hproduct _
  -- one half is added last
  refine (rounds_add hc3 hhalf).le (rounds_add hd3 hhalf) hc hd ?_
  exact add_le_add_left hsum _

/-- `clampBend` preserves order. -/
theorem clampBend_mono {m n : Int} (h : m ≤ n) : clampBend m ≤ clampBend n := by
  show (max 0 (min bendMax m)).toNat ≤ (max 0 (min bendMax n)).toNat
  omega

/-- **`a ≤ b` if `bend (.float c) = .ok a`, `bend (.float d) = .ok b` and `c` is at most `d`.** -/
theorem bend_mono {c d : Float} {a b : Fin 16384} (hc : bend (.float c : Number) = .ok a)
    (hd : bend (.float d : Number) = .ok b) (h : toRat c ≤ toRat d) : a ≤ b := by
  obtain ⟨hcf, rfl⟩ := bend_eq_ok hc
  obtain ⟨hdf, rfl⟩ := bend_eq_ok hd
  exact clampBend_mono (Int.floor_mono (wheelHeight_mono hcf hdf h))

/-! ## Notes that need a bend -/

/-- The position of a wheel at rest. -/
def centre : Fin 16384 := 8192

/-- **`bend (.float c)` is not `centre` for a deviation `c` with `needsBend`.** -/
theorem bend_ne_centre {note : Int} {c : Float} {b : Fin 16384}
    (hneeds : (Pitch.mk note (Number.float c)).needsBend = true)
    (hb : bend (.float c : Number) = .ok b) : b ≠ centre := by
  obtain ⟨hfinite, -⟩ := bend_eq_ok hb
  obtain ⟨hc, -⟩ := isFinite_of_wheelHeight hfinite
  obtain ⟨habs, hrat⟩ := toRat_abs hc
  have hhalf : (0.5 : Float).isFinite = true := rfl
  have hlt : (0.5 : Float) < c.abs := of_decide_eq_true hneeds
  rw [lt_iff_toRat hhalf habs, hrat] at hlt
  rcases lt_abs.1 hlt with hlt | hlt
  · -- the position is at least that of half a cent
    have hhigh : bend (.float 0.5 : Number) = .ok 8212 := rfl
    rintro rfl
    exact absurd (bend_mono hhigh hb hlt.le) (by decide)
  · -- the position is at most that of half a cent in the other direction
    have hlow : bend (.float (-0.5) : Number) = .ok 8172 := rfl
    have hminus : toRat (-0.5) = -toRat 0.5 := by
      have hsign : isNegative (-0.5) = true ∧ isNegative 0.5 = false ∧
          pattern (-0.5) = pattern 0.5 := by
        decide
      rw [toRat, toRat, hsign.1, hsign.2.1, hsign.2.2, if_pos rfl, if_neg Bool.false_ne_true]
    have hle : toRat c ≤ toRat (-0.5) := by linarith
    rintro rfl
    exact absurd (bend_mono hb hlow hle) (by decide)

/-- `Number.combine` of a double and any number is a double. -/
theorem exists_combine_float {exact : Int → Int → Int} {rounded : Float → Float → Float} {x : Float}
    {a b : Number} (h : Number.combine exact rounded (.float x) a = .ok b) : ∃ y, b = .float y := by
  obtain ⟨u, -, h⟩ := bind_eq_ok_iff.1 h
  obtain ⟨v, -, h⟩ := bind_eq_ok_iff.1 h
  exact ⟨rounded u v, (Except.ok.inj h).symm⟩

/-- `p.cents` is a double if `Pitch.ofFrequency frequency = .ok p`. -/
theorem Pitch.exists_cents_eq {frequency : Quantity} {p : Pitch Number}
    (h : Pitch.ofFrequency frequency = .ok p) : ∃ c, p.cents = .float c := by
  obtain ⟨height, hheight, h⟩ := bind_eq_ok_iff.1 h
  obtain ⟨x, hx, hheight⟩ := bind_eq_ok_iff.1 hheight
  obtain ⟨octaves, hoctaves, hheight⟩ := bind_eq_ok_iff.1 hheight
  obtain rfl := Except.ok.inj hheight
  obtain ⟨note, -, h⟩ := bind_eq_ok_iff.1 h
  obtain ⟨rest, hrest, h⟩ := bind_eq_ok_iff.1 h
  obtain ⟨cents, hcents, h⟩ := bind_eq_ok_iff.1 h
  obtain rfl := Except.ok.inj h
  obtain ⟨y, rfl⟩ := exists_combine_float hrest
  exact exists_combine_float hcents

end Monochord.Midi
