import Monochord.Proofs.Arithmetic
import Monochord.Proofs.Binary64.Order
import Monochord.Proofs.Midi.Renderable
import Monochord.Proofs.Midi.Rendering

/-! # How exact a length is

A file counts time in ticks and says how long a quarter note lasts, both in integers. In exact
arithmetic each of them is rounded once, and what is played differs from what was meant by no more
than these roundings.

* **`ticks_rat`**, **`quarterLength_rat`** — lengths and quarter notes.
* **`playedSeconds`** — how long ticks last.
* **`abs_sum_mul_sub_le`** — how the errors of the chords add up.
* **`lasts_as_meant`** — a sequence lasts as long as was meant, whatever the tempo. -/

namespace Monochord.Midi

open Binary64

/-! ## Lengths -/

/-- In ℚ `ticks duration base tempo = .ok (round (8 * duration * base * tempo)).toNat`: one
rounding, and no ticks instead of a negative number. -/
theorem ticks_rat (duration base tempo : ℚ) :
    ticks duration base tempo = .ok (round (8 * duration * base * tempo)).toNat := by
  have hquarter : (Arithmetic.int Smf.ticksPerQuarter : ℚ) = 480 := by
    norm_num [Arithmetic.int, Smf.ticksPerQuarter]
  have hminute : (Arithmetic.int 60 : ℚ) = 60 := by norm_num [Arithmetic.int]
  have hdiv : Arithmetic.div (480 * tempo) (60 : ℚ) = .ok (480 * tempo / 60) :=
    if_neg (by norm_num)
  have hlength : duration * base * (480 * tempo / 60) = 8 * duration * base * tempo := by ring
  have hrate : ticksPerSecond tempo = .ok (480 * tempo / 60) := by
    rw [ticksPerSecond, hquarter, hminute]
    exact hdiv
  rw [ticks, hrate, ok_bind]
  show (floorHalfUp (duration * base * (480 * tempo / 60)) >>= fun n => pure n.toNat) = _
  rw [floorHalfUp_eq_round, hlength]
  rfl

/-- In ℚ `quarterLength tempo = .ok (round (60000000 / tempo))`. -/
theorem quarterLength_rat {tempo : ℚ} (h : tempo ≠ 0) :
    quarterLength tempo = .ok (round (60000000 / tempo)) := by
  have hminute : (Arithmetic.int microsecondsPerMinute : ℚ) = 60000000 := by
    norm_num [Arithmetic.int, microsecondsPerMinute]
  have hdiv : Arithmetic.div 60000000 tempo = .ok (60000000 / tempo) := if_neg h
  rw [quarterLength, hminute, hdiv, ok_bind, floorHalfUp_eq_round]

/-- **`round (8 * d * b * t)` does not fall as `d`, `b` and `t` grow.** -/
theorem ticks_rat_mono {d d' b b' t t' : ℚ} (hd : 0 ≤ d) (hb : 0 ≤ b) (ht : 0 ≤ t) (hdd : d ≤ d')
    (hbb : b ≤ b') (htt : t ≤ t') :
    (round (8 * d * b * t)).toNat ≤ (round (8 * d' * b' * t')).toNat := by
  have hd' := hd.trans hdd
  have hb' := hb.trans hbb
  refine Int.toNat_le_toNat (round_le_round ?_)
  gcongr

/-! ## Doubles -/

/-- `tickHeight d b t` is at most `tickHeight d' b' t'` for positive doubles that are in order. -/
theorem atMost_tickHeight {d d' b b' t t' : Float} (hd : AtMost d d') (hb : AtMost b b')
    (ht : AtMost t t') (hfinite : (tickHeight d' b' t').isFinite = true) :
    AtMost (tickHeight d b t) (tickHeight d' b' t') := by
  obtain ⟨hduration, hrate⟩ := isFinite_of_mul hfinite
  have hquarter : AtMost 480.0 480.0 := AtMost.refl rfl (value_nonneg _)
  have hminute : (0.0 : Float) < 60.0 := by decide
  exact (hd.mul hb hduration).mul
    ((hquarter.mul ht (isFinite_of_div hrate)).div rfl hminute hrate) hfinite

/-- **A longer chord has no fewer ticks** also where lengths are doubles: if
`ticksOf d' b' t' = .ok n'`, then `ticksOf d b t = .ok n` with `n ≤ n'`. -/
theorem exists_ticksOf_of_le {d d' b b' t t' : Float} {n' : ℕ} (hd : 0.0 < d) (hd' : 0.0 < d')
    (hb : 0.0 < b) (hb' : 0.0 < b') (ht : 0.0 < t) (ht' : 0.0 < t') (hdd : d ≤ d') (hbb : b ≤ b')
    (htt : t ≤ t') (h : ticksOf (.float d') (.float b') (.float t') = .ok n') :
    ∃ n ≤ n', ticksOf (.float d) (.float b) (.float t) = .ok n := by
  have hfinite := exists_ticksOf_iff.1 ⟨n', h⟩
  obtain ⟨hduration, hrate⟩ := isFinite_of_mul hfinite
  obtain ⟨hfd, hfb⟩ := isFinite_of_mul hduration
  have hft := (isFinite_of_mul (isFinite_of_div hrate)).2
  have horder := atMost_tickHeight (AtMost.of_le hd hd' hdd hfd) (AtMost.of_le hb hb' hbb hfb)
    (AtMost.of_le ht ht' htt hft) hfinite
  obtain ⟨m, m', hm, hm', hle⟩ := horder.exists_floorHalfUp
  rw [ticksOf_float, hm', ok_bind] at h
  rw [ticksOf_float, hm, ok_bind]
  obtain rfl := Except.ok.inj h
  exact ⟨m.toNat, Int.toNat_le_toNat hle, rfl⟩

/-! ## Playing -/

/-- `n` ticks last `n * field / (480 * 1000000)` seconds if `field` is the length of a quarter note
in microseconds. -/
def playedSeconds (field : Fin 16777216) (n : ℕ) : ℚ :=
  n * (field : ℕ) / (Smf.ticksPerQuarter * 1000000)

/-- The errors of the products `round x * v` with one factor `v` add up, if `|v - y| ≤ 1 / 2`. -/
theorem abs_sum_mul_sub_le {xs : List ℚ} {y v : ℚ} (hxs : ∀ x ∈ xs, 0 ≤ x) (hy : 0 ≤ y)
    (hv : |v - y| ≤ 1 / 2) :
    |(((xs.map fun x => (round x).toNat).sum : ℕ) : ℚ) * v - xs.sum * y| ≤
      xs.sum / 2 + xs.length * y / 2 + xs.length / 4 := by
  induction xs with
  | nil => simp
  | cons x xs ih =>
    obtain ⟨hx, hxs⟩ := List.forall_mem_cons.1 hxs
    have hround : |((round x).toNat : ℚ) - x| ≤ 1 / 2 := by
      rw [natCast_toNat_round hx, abs_sub_comm]
      exact abs_sub_round x
    have hfirst := abs_mul_sub_le hx hy hround hv
    have hrest := ih hxs
    rw [List.map_cons, List.sum_cons, List.sum_cons, List.length_cons, Nat.cast_add, Nat.cast_succ]
    generalize (((xs.map fun x => (round x).toNat).sum : ℕ) : ℚ) = n at hrest ⊢
    rw [abs_le] at hfirst hrest ⊢
    constructor <;> linarith [hfirst.1, hfirst.2, hrest.1, hrest.2]

/-- The lengths `8 * d * base * tempo` add up to `8 * (base * ds.sum) * tempo`. -/
theorem sum_map_mul (ds : List ℚ) (base tempo : ℚ) :
    (ds.map fun d => 8 * d * base * tempo).sum = 8 * (base * ds.sum) * tempo := by
  induction ds with
  | nil => simp
  | cons d ds ih =>
    rw [List.map_cons, List.sum_cons, ih, List.sum_cons]
    ring

/-- `tempoField u = u` if `0 ≤ u < 2 ^ 24`. -/
theorem coe_tempoField_of_lt {u : ℤ} (h0 : 0 ≤ u) (h : u < 2 ^ 24) :
    ((tempoField u : ℕ) : ℤ) = u := by
  rw [coe_tempoField, Int.emod_eq_of_lt h0 h]

/-- `playedSeconds field` of the ticks of all chords is `base * ds.sum` up to the roundings, if
`field` is `round (60000000 / tempo)`. -/
theorem abs_playedSeconds_sub_le {base tempo : ℚ} {ds : List ℚ} (hbase : 0 < base) (htempo : 0 < tempo)
    (hds : ∀ d ∈ ds, 0 < d) {field : Fin 16777216}
    (hfield : ((field : ℕ) : ℤ) = round (60000000 / tempo)) :
    |playedSeconds field (ds.map fun d => (round (8 * d * base * tempo)).toNat).sum -
        base * ds.sum| ≤
      ((ds.map fun d => 8 * d * base * tempo).sum / 2 + ds.length * (60000000 / tempo) / 2 +
        ds.length / 4) / 480000000 := by
  have hlengths : ∀ x ∈ ds.map (fun d => 8 * d * base * tempo), 0 ≤ x := by
    intro x hx
    obtain ⟨d, hd, rfl⟩ := List.mem_map.1 hx
    have hd := hds d hd
    positivity
  have hquarter : |((field : ℕ) : ℚ) - 60000000 / tempo| ≤ 1 / 2 := by
    rw [← Int.cast_natCast, hfield, abs_sub_comm]
    exact abs_sub_round _
  have herror := abs_sum_mul_sub_le hlengths (by positivity) hquarter
  rw [List.map_map, List.length_map] at herror
  -- the tempo cancels out of the product
  have hcancel : (ds.map fun d => 8 * d * base * tempo).sum * (60000000 / tempo) =
      480000000 * (base * ds.sum) := by
    rw [sum_map_mul]
    field_simp
    ring
  rw [hcancel] at herror
  have hplayed (n : ℕ) : playedSeconds field n - base * ds.sum =
      (n * (field : ℕ) - 480000000 * (base * ds.sum)) / 480000000 := by
    norm_num [playedSeconds, Smf.ticksPerQuarter]
    ring
  rw [hplayed, abs_div, abs_of_pos (by norm_num : (0 : ℚ) < 480000000)]
  exact div_le_div_of_nonneg_right herror (by norm_num)

/-- **A sequence lasts as long as was meant, whatever the tempo.**

At an exact `0 < tempo`, in exact units `0 < base` and for exact durations `0 < d`,
`playedSeconds (tempoField u) ts.sum` differs from `base * ds.sum` at most by what rounding the
lengths `ts` and the quarter note `u` amounts to. This holds for `u < 2 ^ 24`; otherwise
`tempoField u = u % 2 ^ 24`. `ticks` is the nearest integer, but never negative, and does not fall
as the duration, the unit and the tempo grow, neither in ℚ nor for doubles. -/
theorem lasts_as_meant {base tempo : ℚ} {ds : List ℚ} (hbase : 0 < base) (htempo : 0 < tempo)
    (hds : ∀ d ∈ ds, 0 < d) :
    (∃ (u : ℤ) (ts : List ℕ), quarterLength tempo = .ok u ∧
      (ds.mapM fun d => ticks d base tempo) = .ok ts ∧
      (u < 2 ^ 24 → ((tempoField u : ℕ) : ℤ) = u ∧
        |playedSeconds (tempoField u) ts.sum - base * ds.sum| ≤
          ((ds.map fun d => 8 * d * base * tempo).sum / 2 + ds.length * (60000000 / tempo) / 2 +
            ds.length / 4) / 480000000) ∧
      (2 ^ 24 ≤ u → ((tempoField u : ℕ) : ℤ) = u % 2 ^ 24)) ∧
    (∀ d b t : ℚ, ∃ n : ℕ, ticks d b t = .ok n ∧ (n : ℤ) = max 0 ⌊8 * d * b * t + 1 / 2⌋) ∧
    (∀ d d' b b' t t' : ℚ, 0 < d → 0 < b → 0 < t → d ≤ d' → b ≤ b' → t ≤ t' →
      ∃ n n' : ℕ, ticks d b t = .ok n ∧ ticks d' b' t' = .ok n' ∧ n ≤ n') ∧
    ∀ (d d' b b' t t' : Float) (n' : ℕ), 0.0 < d → 0.0 < d' → 0.0 < b → 0.0 < b' → 0.0 < t →
      0.0 < t' → d ≤ d' → b ≤ b' → t ≤ t' →
      ticksOf (.float d') (.float b') (.float t') = .ok n' →
      ∃ n ≤ n', ticksOf (.float d) (.float b) (.float t) = .ok n := by
  refine ⟨⟨round (60000000 / tempo), _, quarterLength_rat htempo.ne',
      mapM_eq_ok_map fun d _ => ticks_rat d base tempo, fun hfits => ?_,
      fun _ => coe_tempoField _⟩,
    fun d b t => ⟨_, ticks_rat d b t, ?_⟩, ?_, ?_⟩
  · have hpos : 0 ≤ round (60000000 / tempo) := round_nonneg (by positivity)
    have hfield := coe_tempoField_of_lt hpos hfits
    exact ⟨hfield, abs_playedSeconds_sub_le hbase htempo hds hfield⟩
  · rw [Int.toNat_eq_max, round_eq, max_comm]
  · intro d d' b b' t t' hd hb ht hdd hbb htt
    exact ⟨_, _, ticks_rat d b t, ticks_rat d' b' t', ticks_rat_mono hd.le hb.le ht.le hdd hbb htt⟩
  · intro d d' b b' t t' n' hd hd' hb hb' ht ht' hdd hbb htt h
    exact exists_ticksOf_of_le hd hd' hb hb' ht ht' hdd hbb htt h

/-- At 90 beats a minute a quarter note is not a whole number of microseconds. -/
theorem lasts_as_meant_ninety :
    |playedSeconds (tempoField 666667) [720, 1080].sum - 1 * ([1, 3 / 2] : List ℚ).sum| ≤
      (([1, 3 / 2].map fun d : ℚ => 8 * d * 1 * 90).sum / 2 + 2 * (60000000 / 90) / 2 + 2 / 4) /
        480000000 := by
  obtain ⟨⟨u, ts, hu, hts, hplayed, -⟩, -⟩ :=
    @lasts_as_meant 1 90 [1, 3 / 2] (by norm_num) (by norm_num) (by norm_num)
  have hquarter : round ((60000000 : ℚ) / 90) = 666667 := by
    rw [round_eq, Int.floor_eq_iff]
    norm_num
  have hfirst : round ((8 : ℚ) * 1 * 1 * 90) = 720 := by
    rw [round_eq, Int.floor_eq_iff]
    norm_num
  have hsecond : round ((8 : ℚ) * (3 / 2) * 1 * 90) = 1080 := by
    rw [round_eq, Int.floor_eq_iff]
    norm_num
  rw [quarterLength_rat (by norm_num), hquarter] at hu
  rw [mapM_eq_ok_map fun d _ => ticks_rat d 1 90] at hts
  obtain rfl := Except.ok.inj hu
  obtain rfl := Except.ok.inj hts
  rw [List.map_cons, List.map_cons, List.map_nil, hfirst, hsecond] at hplayed
  exact (hplayed (by norm_num)).2

end Monochord.Midi
