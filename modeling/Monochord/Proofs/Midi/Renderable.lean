import Monochord.Proofs.Midi.Playable
import Monochord.Proofs.Midi.Sending
import Monochord.Proofs.Smf.Capacity

/-! # Which chords can be rendered

Rendering consists of many steps that may fail. The conditions under which all of them succeed are
collected here, above all for chords whose frequencies and durations are doubles.

* **`exists_ticksOf_iff`** and **`exists_quarterLengthOf_iff`** — the lengths that have ticks, and
  the tempos that have a quarter note.
* **`exists_chordMessages`**, **`exists_chordMessages_iff`** — the chords that can be sent.
* **`exists_encode_iff`** — the scores that fit into a file.
* **`exists_renderVoicings_iff`** — the chords that can be rendered. -/

namespace Monochord.Midi

open Binary64

/-! ## Lengths -/

/-- The length `duration * base * (480.0 * tempo / 60.0)` of a chord in ticks, as a double. -/
def tickHeight (duration base tempo : Float) : Float := duration * base * (480.0 * tempo / 60.0)

/-- `ticksOf` of doubles is `floorHalfUp` of `tickHeight`, and 0 instead of a negative number. -/
theorem ticksOf_float (duration base tempo : Float) :
    ticksOf (.float duration) (.float base) (.float tempo) =
      floorHalfUp (.float (tickHeight duration base tempo) : Number) >>= fun n => .ok n.toNat := by
  have hquarter : (Number.int Smf.ticksPerQuarter).toFloat = .ok 480.0 := rfl
  have hminute : (Number.int 60).toFloat = .ok 60.0 := rfl
  have hzero : ¬((60.0 : Float) == 0.0) = true := by decide
  have hmul : Arithmetic.mul (Arithmetic.int Smf.ticksPerQuarter) (.float tempo : Number) =
      (Number.int Smf.ticksPerQuarter).toFloat >>= fun x => .ok (.float (x * tempo)) := rfl
  have hdiv : Arithmetic.div (.float (480.0 * tempo) : Number) (Arithmetic.int 60) =
      ((Number.int 60).toFloat >>= fun y =>
        if y == 0.0 then .error .divisionByZero else .ok (480.0 * tempo / y)).map .float := rfl
  have hrate : ticksPerSecond (.float tempo : Number) = .ok (.float (480.0 * tempo / 60.0)) := by
    rw [ticksPerSecond, hmul, hquarter, ok_bind, ok_bind, hdiv, hminute, ok_bind, if_neg hzero]
    rfl
  show (ticksPerSecond (.float tempo : Number) >>= fun rate =>
    ticksAt rate (.float duration) (.float base)) = _
  rw [hrate]
  rfl

/-- **`ticksOf` of doubles succeeds exactly if `tickHeight duration base tempo` is finite.** -/
theorem exists_ticksOf_iff {duration base tempo : Float} :
    (∃ n, ticksOf (.float duration) (.float base) (.float tempo) = .ok n) ↔
      (tickHeight duration base tempo).isFinite = true := by
  rw [ticksOf_float]
  constructor
  · rintro ⟨n, h⟩
    obtain ⟨m, hm, -⟩ := bind_eq_ok_iff.1 h
    exact (floorHalfUp_float_eq_ok_iff.1 hm).1
  · intro h
    rw [floorHalfUp_float_eq_ok_iff.2 ⟨h, rfl⟩]
    exact ⟨_, rfl⟩

/-- The length `60000000.0 / tempo` of a quarter note in microseconds, as a double. -/
def quarterHeight (tempo : Float) : Float := 60000000.0 / tempo

/-- `quarterLengthOf (.float tempo)` is `floorHalfUp` of `quarterHeight tempo`, and fails for 0.0.
-/
theorem quarterLengthOf_float (tempo : Float) :
    quarterLengthOf (.float tempo) =
      if tempo == 0.0 then .error .divisionByZero
      else floorHalfUp (.float (quarterHeight tempo) : Number) := by
  have hminute : (Number.int microsecondsPerMinute).toFloat = .ok 60000000.0 := rfl
  have hdiv : Arithmetic.div (Arithmetic.int microsecondsPerMinute) (.float tempo : Number) =
      ((Number.int microsecondsPerMinute).toFloat >>= fun x =>
        if tempo == 0.0 then .error .divisionByZero else .ok (x / tempo)).map .float := rfl
  show (Arithmetic.div (Arithmetic.int microsecondsPerMinute) (.float tempo : Number) >>=
    floorHalfUp) = _
  rw [hdiv, hminute, ok_bind]
  split <;> rfl

/-- **`quarterLengthOf (.float tempo)` succeeds exactly if `quarterHeight tempo` is finite.** -/
theorem exists_quarterLengthOf_iff {tempo : Float} :
    (∃ n, quarterLengthOf (.float tempo) = .ok n) ↔ (quarterHeight tempo).isFinite = true := by
  rw [quarterLengthOf_float]
  constructor
  · rintro ⟨n, h⟩
    split at h
    · exact absurd h (by simp)
    · exact (floorHalfUp_float_eq_ok_iff.1 h).1
  · intro h
    rw [if_neg fun hzero => not_isFinite_div (beq_zero_iff.1 hzero) h,
      floorHalfUp_float_eq_ok_iff.2 ⟨h, rfl⟩]
    exact ⟨_, rfl⟩

/-! ## Notes -/

/-- `startNote` succeeds for a pitch whose deviation has `Within c 25`. -/
theorem exists_startNote (tuning : Tuning) (index : ℕ) (n : ℤ) {c : Float} (h : Within c 25) :
    ∃ ms, startNote tuning index ⟨n, .float c⟩ = .ok ms := by
  obtain ⟨b, hb⟩ := exists_bend_eq_ok h
  rw [startNote]
  split
  · rw [hb]
    exact ⟨_, rfl⟩
  · exact ⟨_, rfl⟩

/-- `startNotes` succeeds for pitches whose deviations have `Within c 25`. -/
theorem exists_startNotes (tuning : Tuning) (index : ℕ) {ps : List (Pitch Number)}
    (h : ∀ p ∈ ps, ∃ n c, p = ⟨n, .float c⟩ ∧ Within c 25) :
    ∃ ms, startNotes tuning index ps = .ok ms := by
  induction ps generalizing index with
  | nil => exact ⟨[], rfl⟩
  | cons p ps ih =>
    obtain ⟨hp, hps⟩ := List.forall_mem_cons.1 h
    obtain ⟨n, c, rfl, hc⟩ := hp
    obtain ⟨first, hfirst⟩ := exists_startNote tuning index n hc
    obtain ⟨others, hothers⟩ := ih (index + 1) hps
    rw [startNotes, hfirst, ok_bind, hothers]
    exact ⟨_, rfl⟩

/-! ## Chords -/

/-- **`chordMessages` succeeds if every frequency has a pitch with `Within c 25`, and `ticksOf`
succeeds.** -/
theorem exists_chordMessages {tuning : Tuning} {base tempo : Quantity} {v : Voicing} {length : ℕ}
    (hpitch : ∀ f ∈ v.frequencies, ∃ n c, Pitch.ofFrequency f = .ok ⟨n, .float c⟩ ∧ Within c 25)
    (hlength : ticksOf v.duration base tempo = .ok length) :
    ∃ ms, chordMessages tuning base tempo v = .ok ms := by
  obtain ⟨ps, hps⟩ := exists_mapM_eq_ok_iff.2 fun f hf => by
    obtain ⟨n, c, hp, -⟩ := hpitch f hf
    exact ⟨_, hp⟩
  have hbounded : ∀ p ∈ ps, ∃ n c, p = ⟨n, .float c⟩ ∧ Within c 25 := by
    intro p hp
    obtain ⟨f, hf, hp⟩ := exists_of_mem_mapM hps hp
    obtain ⟨n, c, hp', hc⟩ := hpitch f hf
    exact ⟨n, c, Except.ok.inj (hp.symm.trans hp'), hc⟩
  obtain ⟨starts, hstarts⟩ := exists_startNotes tuning 0 hbounded
  rw [chordMessages, hps, ok_bind, hstarts, ok_bind, hlength]
  exact ⟨_, rfl⟩

/-- A voicing whose frequencies and duration are doubles. -/
def Voicing.ofFloats (frequencies : List Float) (duration : Float) : Voicing :=
  ⟨frequencies.map .float, .float duration⟩

/-- **`chordMessages` of doubles succeeds exactly if every frequency has `HasPitch`, and
`tickHeight` is finite.** -/
theorem exists_chordMessages_iff {tuning : Tuning} {base tempo duration : Float}
    {frequencies : List Float} :
    (∃ ms, chordMessages tuning (.float base) (.float tempo)
        (Voicing.ofFloats frequencies duration) = .ok ms) ↔
      (∀ f ∈ frequencies, HasPitch f) ∧ (tickHeight duration base tempo).isFinite = true := by
  constructor
  · rintro ⟨ms, h⟩
    obtain ⟨ps, hps, h⟩ := bind_eq_ok_iff.1 h
    obtain ⟨starts, -, h⟩ := bind_eq_ok_iff.1 h
    obtain ⟨length, hlength, -⟩ := bind_eq_ok_iff.1 h
    refine ⟨fun f hf => ?_, exists_ticksOf_iff.1 ⟨length, hlength⟩⟩
    obtain ⟨p, hp⟩ := exists_mapM_eq_ok_iff.1 ⟨ps, hps⟩ (.float f) (List.mem_map_of_mem hf)
    exact hasPitch_of_ofFrequency hp
  · rintro ⟨hpitch, hfinite⟩
    obtain ⟨length, hlength⟩ := exists_ticksOf_iff.2 hfinite
    refine exists_chordMessages (fun q hq => ?_) hlength
    obtain ⟨f, hf, rfl⟩ := List.mem_map.1 hq
    exact (hpitch f hf).exists_ofFrequency

/-- `noteTrack` succeeds exactly if `chordMessages` succeeds for every voicing. -/
theorem exists_noteTrack_iff {tuning : Tuning} {base tempo : Quantity} {vs : List Voicing} :
    (∃ track, noteTrack tuning base tempo vs = .ok track) ↔
      ∀ v ∈ vs, ∃ ms, chordMessages tuning base tempo v = .ok ms := by
  rw [← exists_mapM_eq_ok_iff]
  constructor
  · rintro ⟨track, h⟩
    obtain ⟨chords, hchords, -⟩ := bind_eq_ok_iff.1 h
    exact ⟨chords, hchords⟩
  · rintro ⟨chords, hchords⟩
    rw [noteTrack, hchords]
    exact ⟨_, rfl⟩

/-! ## Files -/

/-- The number of bytes of a track. -/
def trackSize (ts : List Timed) : ℕ := (Smf.encodeEvents (ts.map Timed.event)).length

/-- **`s.encode` succeeds exactly if both tracks have a `trackSize` below `256 ^ 4`.** -/
theorem exists_encode_iff {s : Score} :
    (∃ data, s.encode = .ok data) ↔
      trackSize s.tempoTrack < 256 ^ 4 ∧ trackSize s.noteTrack < 256 ^ 4 := by
  refine Smf.exists_encodeFile_iff.trans ⟨fun h => ?_, fun ⟨htempo, hnotes⟩ => ?_⟩
  · exact ⟨h.body _ List.mem_cons_self, h.body _ (List.mem_cons_of_mem _ List.mem_cons_self)⟩
  · refine ⟨by decide, by decide, by simp, fun t ht => ?_⟩
    rcases List.mem_pair.1 ht with rfl | rfl
    · exact htempo
    · exact hnotes

/-- `trackSize ts < 256 ^ 4` for a tempo track. -/
theorem trackSize_tempoTrack {tempo : Quantity} {ts : List Timed} (h : tempoTrack tempo = .ok ts) :
    trackSize ts < 256 ^ 4 := by
  obtain ⟨microseconds, -, h⟩ := bind_eq_ok_iff.1 h
  obtain rfl := Except.ok.inj h
  have hzero : Vlq.encode 0 = [0] := by
    rw [Vlq.encode, Vlq.leading]
    rfl
  simp [trackSize, Timed.event, Message.encode, hzero]

/-- **`renderVoicings` succeeds exactly if `quarterLengthOf` and `noteTrack` do, and
`trackSize track < 256 ^ 4`.** -/
theorem exists_renderVoicings_iff {tuning : Tuning} {base tempo : Quantity} {vs : List Voicing} :
    (∃ data, renderVoicings tuning base tempo vs = .ok data) ↔
      (∃ n, quarterLengthOf tempo = .ok n) ∧
        ∃ track, noteTrack tuning base tempo vs = .ok track ∧ trackSize track < 256 ^ 4 := by
  constructor
  · rintro ⟨data, h⟩
    obtain ⟨s, hs, h⟩ := bind_eq_ok_iff.1 h
    obtain ⟨first, hfirst, hs⟩ := bind_eq_ok_iff.1 hs
    obtain ⟨track, htrack, hs⟩ := bind_eq_ok_iff.1 hs
    obtain ⟨microseconds, hmicroseconds, -⟩ := bind_eq_ok_iff.1 hfirst
    obtain rfl := Except.ok.inj hs
    exact ⟨⟨microseconds, hmicroseconds⟩, track, htrack, (exists_encode_iff.1 ⟨data, h⟩).2⟩
  · rintro ⟨⟨microseconds, hmicroseconds⟩, track, htrack, hsize⟩
    have hfirst : tempoTrack tempo =
        .ok [⟨0, .setTempo (tempoField microseconds)⟩, ⟨0, .endOfTrack⟩] := by
      rw [tempoTrack, hmicroseconds]
      rfl
    rw [renderVoicings, compose, hfirst, ok_bind, htrack, ok_bind, pure_eq_ok, ok_bind]
    exact exists_encode_iff.2 ⟨trackSize_tempoTrack hfirst, hsize⟩

end Monochord.Midi
