import Monochord.Proofs.Midi.Renderable
import Monochord.Proofs.Midi.Rendering
import Monochord.Proofs.Timing

/-! # Which files are well formed

A file may only write distances of up to four bytes. Numbers of keys and the length of a quarter
note are cut off where they do not fit, but the lengths of chords are not, and a quarter note may
even be too long to have a length.

* **`exists_quarterLengthOf_value_iff`** — the tempos that have a quarter note.
* **`Quantity.Audible`** — frequencies that can be heard; `exists_ofFrequency_of_audible`: they have
  a pitch.
* **`forall_delta_noteEvents_iff`** — the distances in a track are the lengths of its chords.
* **`WellFormed`** — a file whose distances can be written in four bytes.
* **`exists_wellFormed_iff`** — the timings and chords that lead to one;
  `not_wellFormed_extremeTempo`: not all accepted timings do. -/

namespace Monochord

open Binary64

/-- A frequency between 20 Hz and 20000 Hz. -/
def Quantity.Audible (f : Quantity) : Prop := ∃ r, f.value? = some r ∧ 20 ≤ r ∧ r ≤ 20000

namespace Midi

/-! ## Quarter notes -/

/-- `60000000 / r < overflowBound` for `1 ≤ r`. -/
theorem quarter_lt_overflowBound {r : ℚ} (h : 1 ≤ r) : 60000000 / r < overflowBound := by
  calc 60000000 / r ≤ 60000000 := div_le_self (by norm_num) h
    _ ≤ 2 ^ 26 := by norm_num
    _ < overflowBound := two_pow_lt_overflowBound (by decide)

/-- A tempo that is a positive integer has a quarter note, whose length is below `overflowBound`. -/
theorem exists_quarterLength_int {m : ℤ} (hm : 0 < m) :
    60000000 / (m : ℚ) < overflowBound ∧ ∃ n, quarterLength (.int m : Number) = .ok n := by
  have hpos : (0 : ℚ) < m := by exact_mod_cast hm
  have hlt : 60000000 / (m : ℚ) < overflowBound := quarter_lt_overflowBound (by exact_mod_cast hm)
  have habs : |((microsecondsPerMinute : ℤ) : ℚ) / m| < overflowBound := by
    rw [microsecondsPerMinute, Int.cast_ofNat, abs_of_pos (div_pos (by norm_num) hpos)]
    exact hlt
  obtain ⟨x, hx, hfinite, -⟩ := Number.exists_div_int hm habs
  have hdiv : Arithmetic.div (Arithmetic.int microsecondsPerMinute) (.int m : Number) =
      ((Number.int microsecondsPerMinute).div (.int m)).map .float := rfl
  refine ⟨hlt, ⌊toRat (x + 0.5)⌋, ?_⟩
  rw [quarterLength, hdiv, hx]
  exact floorHalfUp_float_eq_ok_iff.2 ⟨hfinite, rfl⟩

/-- **`quarterLengthOf tempo` succeeds exactly if `60000000 / r < overflowBound`**, where the tempo
is the number `0 < r`. -/
theorem exists_quarterLengthOf_value_iff {tempo : Quantity} {r : ℚ}
    (h : tempo.value? = some r) (hr : 0 < r) :
    (∃ n, quarterLengthOf tempo = .ok n) ↔ 60000000 / r < overflowBound := by
  obtain ⟨a, ha, hvalue⟩ := Quantity.value?_eq_some_iff.1 h
  rw [quarterLengthOf, ha, ok_bind]
  cases a with
  | int m =>
    obtain rfl := Option.some.inj hvalue
    obtain ⟨hlt, hexists⟩ := exists_quarterLength_int (Int.cast_pos.1 hr)
    exact iff_of_true hexists hlt
  | float x =>
    obtain ⟨hfinite, rfl⟩ := Number.value?_float_eq_some_iff.1 hvalue
    obtain ⟨hminute, hexact⟩ : (60000000.0 : Float).isFinite = true ∧
        toRat 60000000.0 = (60000000 : ℕ) := toRat_of_toFloat rfl (by decide)
    have hpattern := ((zero_lt_iff (isFinite_iff.1 hfinite)).1 ((toRat_pos hfinite).2 hr)).2
    have hrounds := rounds_div hminute hfinite hpattern
    show (∃ n, quarterLengthOf (.float x) = .ok n) ↔ _
    rw [exists_quarterLengthOf_iff, quarterHeight, hrounds.isFinite_iff, hexact, Nat.cast_ofNat,
      abs_of_pos (div_pos (by norm_num) hr)]

/-! ## Audible frequencies -/

/-- `Pitch.ofFrequency f` is that of the double to which `f` is rounded. -/
theorem Pitch.ofFrequency_eq {f : Quantity} {a : Number} {x : Float} (hf : f.number = .ok a)
    (hx : a.toFloat = .ok x) : Pitch.ofFrequency f = Pitch.ofFrequency (.float x) := by
  have hdiv : f.div (.float referencePitch) = (Quantity.float x).div (.float referencePitch) := by
    rw [Quantity.div, hf]
    cases a with
    | int n =>
      show ((Number.int n).toFloat >>= fun y => (Number.float y).div (.float referencePitch)) = _
      rw [hx]
      rfl
    | float y =>
      obtain rfl := Except.ok.inj hx
      rfl
  rw [Pitch.ofFrequency, Pitch.ofFrequency, heightOf, heightOf, hdiv]

/-- `HasPitch x` if `x` is what a number between 20 and 20000 is rounded to. -/
theorem hasPitch_of_rounds {r : ℚ} {x : Float} (h : Rounds r x) (hlow : 20 ≤ r)
    (hhigh : r ≤ 20000) : HasPitch x := by
  obtain ⟨hreference, hexact⟩ : referencePitch.isFinite = true ∧ toRat referencePitch = (440 : ℕ) :=
    toRat_of_toFloat rfl (by decide)
  have hwithin : Within x 15 := by
    refine h.within ?_ (by decide)
    rw [abs_of_nonneg (by linarith)]
    linarith
  have hone : 1 ≤ |toRat referencePitch| := by
    rw [hexact]
    norm_num
  -- rounding does not lead below 16, and dividing not below 1/32
  have hsixteen : 16 ≤ toRat x := by
    have hvalue := value_power (w := 4) (by decide)
    have hle := h.value_le_toRat hwithin.finite (hvalue.le.trans (by norm_num; linarith))
    rw [hvalue] at hle
    exact_mod_cast hle
  have hpattern : 0 < pattern referencePitch := by decide
  refine ⟨(hwithin.div hreference hone (by decide)).finite,
    (rounds_div hwithin.finite hreference hpattern).zero_lt (t := ((-5 : ℤ) + 1023).toNat * 2 ^ 52)
      (by decide) ?_⟩
  rw [value_power (by decide), hexact, le_div_iff₀ (by norm_num)]
  norm_num
  linarith

/-- **`Pitch.ofFrequency f` succeeds if `f.Audible`**, with a deviation `c` of `Within c 25`. -/
theorem exists_ofFrequency_of_audible {f : Quantity} (h : f.Audible) :
    ∃ n c, Pitch.ofFrequency f = .ok ⟨n, .float c⟩ ∧ Within c 25 := by
  obtain ⟨r, hr, hlow, hhigh⟩ := h
  obtain ⟨a, ha, hvalue⟩ := Quantity.value?_eq_some_iff.1 hr
  have hlt : |r| < overflowBound := by
    rw [abs_of_nonneg (by linarith)]
    calc r ≤ 2 ^ 15 := by linarith
      _ < overflowBound := two_pow_lt_overflowBound (by decide)
  obtain ⟨x, hx, -, hrounds⟩ := Number.exists_toFloat hvalue hlt
  rw [Pitch.ofFrequency_eq ha hx]
  exact (hasPitch_of_rounds hrounds hlow hhigh).exists_ofFrequency

/-! ## Distances -/

/-- `t.delta = 0` for the messages that start a note. -/
theorem delta_of_mem_start {i : ℕ} {n : SentNote} {t : Timed} (h : t ∈ n.start i) :
    t.delta = 0 := by
  obtain ⟨key, bend⟩ := n
  cases bend with
  | none =>
    rw [List.mem_singleton.1 h]
  | some b =>
    rcases List.mem_pair.1 h with rfl | rfl
    · rfl
    · rfl

/-- The distances in `c.messages` are at most `bound` exactly if `c.length` is, or there are no
notes. -/
theorem forall_delta_messages_iff {bound : ℕ} {c : SentChord} :
    (∀ t ∈ c.messages, t.delta ≤ bound) ↔ (c.notes ≠ [] → c.length ≤ bound) := by
  have hstarts : ∀ t ∈ (c.notes.mapIdx SentNote.start).flatten, t.delta ≤ bound := by
    intro t ht
    obtain ⟨ms, hms, ht⟩ := List.mem_flatten.1 ht
    obtain ⟨i, hi, rfl⟩ := List.mem_mapIdx.1 hms
    rw [delta_of_mem_start ht]
    exact Nat.zero_le _
  rw [SentChord.messages, List.forall_mem_append, and_iff_right hstarts]
  cases c.notes with
  | nil => simp
  | cons n ns =>
    -- the first note that ends is the only one that waits
    have hothers : ∀ t ∈ ns.mapIdx fun i n => n.stop (if i + 1 = 0 then c.length else 0) (i + 1),
        t.delta ≤ bound := by
      intro t ht
      obtain ⟨i, hi, rfl⟩ := List.mem_mapIdx.1 ht
      exact Nat.zero_le _
    rw [List.mapIdx_cons, List.forall_mem_cons]
    exact ⟨fun h _ => h.1, fun h => ⟨h (List.cons_ne_nil n ns), hothers⟩⟩

/-- **The distances in `noteEvents cs` are at most `bound` exactly if `c.length` is for every chord
with notes.** -/
theorem forall_delta_noteEvents_iff {bound : ℕ} {cs : List SentChord} :
    (∀ t ∈ noteEvents cs, t.delta ≤ bound) ↔ ∀ c ∈ cs, c.notes ≠ [] → c.length ≤ bound := by
  simp only [← forall_delta_messages_iff]
  rw [noteEvents, List.forall_mem_append, List.forall_mem_singleton]
  constructor
  · intro h c hc t ht
    exact h.1 t (List.mem_flatMap.2 ⟨c, hc, ht⟩)
  · intro h
    refine ⟨fun t ht => ?_, Nat.zero_le _⟩
    obtain ⟨c, hc, ht⟩ := List.mem_flatMap.1 ht
    exact h c hc t ht

/-! ## Well-formed files -/

/-- The greatest distance that can be written in four bytes. -/
def maxDelta : ℕ := 0x0FFFFFFF

/-- `Vlq.encode n` has at most four bytes exactly if `n ≤ maxDelta`. -/
theorem length_encode_delta_iff {n : ℕ} : (Vlq.encode n).length ≤ 4 ↔ n ≤ maxDelta := by
  rw [Vlq.length_encode_le_iff (by decide), maxDelta]
  omega

/-- A file with two tracks, all of whose distances can be written in four bytes. -/
def WellFormed (data : Bytes) : Prop :=
  ∃ first second : List Timed, Recording.read? data = some ⟨1, 480, [first, second]⟩ ∧
    ∀ t ∈ first ++ second, t.delta ≤ maxDelta ∧ (Vlq.encode t.delta).length ≤ 4

/-- The file of `noteEvents cs` is `WellFormed` exactly if `c.length ≤ maxDelta` for every chord
with notes. -/
theorem wellFormed_iff {field : Fin 16777216} {cs : List SentChord} {data : Bytes}
    (h : Score.encode ⟨tempoEvents field, noteEvents cs⟩ = .ok data) :
    WellFormed data ↔ ∀ c ∈ cs, c.notes ≠ [] → c.length ≤ maxDelta := by
  have htempo : ∀ t ∈ tempoEvents field, t.delta ≤ maxDelta := by
    intro t ht
    rcases List.mem_pair.1 ht with rfl | rfl
    · exact Nat.zero_le _
    · exact Nat.zero_le _
  rw [← forall_delta_noteEvents_iff, WellFormed, Recording.read?_encode h]
  simp only [length_encode_delta_iff, and_self]
  constructor
  · rintro ⟨first, second, hread, hdeltas⟩
    obtain ⟨-, -, htracks⟩ := Recording.mk.inj (Option.some.inj hread)
    obtain ⟨rfl, hsecond⟩ := List.cons.inj htracks
    obtain ⟨rfl, -⟩ := List.cons.inj hsecond
    exact (List.forall_mem_append.1 hdeltas).2
  · intro hnotes
    exact ⟨_, _, rfl, List.forall_mem_append.2 ⟨htempo, hnotes⟩⟩

/-- `c.length ≤ bound` for the chords that are sent, if `ticksOf` is at most `bound` for the
voicings. -/
theorem length_le_of_ticksOf {tuning : Tuning} {base tempo : Quantity} {vs : List Voicing}
    {cs : List SentChord} {bound : ℕ} (hcs : List.Forall₂ (SentChord.Of tuning base tempo) vs cs)
    (hticks : ∀ v ∈ vs, ∃ n ≤ bound, ticksOf v.duration base tempo = .ok n) :
    ∀ c ∈ cs, c.length ≤ bound := by
  intro c hc
  obtain ⟨v, hv, -, hlength⟩ := exists_of_mem_forall₂ hcs hc
  obtain ⟨n, hn, hticks⟩ := hticks v hv
  rw [Except.ok.inj (hlength.symm.trans hticks)]
  exact hn

/-- `renderVoicings` succeeds with `WellFormed data` for audible chords, if there is a quarter note,
`ticksOf` is at most `maxDelta`, and the note track fits into a file. -/
theorem exists_wellFormed {tuning : Tuning} {base tempo : Quantity} {vs : List Voicing}
    (hvs : ∀ v ∈ vs, ∀ f ∈ v.frequencies, f.Audible)
    (hquarter : ∃ n, quarterLengthOf tempo = .ok n)
    (hticks : ∀ v ∈ vs, ∃ n ≤ maxDelta, ticksOf v.duration base tempo = .ok n)
    (hsize : ∀ track, noteTrack tuning base tempo vs = .ok track → trackSize track < 2 ^ 32) :
    ∃ data, renderVoicings tuning base tempo vs = .ok data ∧ WellFormed data := by
  have hchords : ∀ v ∈ vs, ∃ ms, chordMessages tuning base tempo v = .ok ms := by
    intro v hv
    obtain ⟨n, -, hn⟩ := hticks v hv
    exact exists_chordMessages (fun f hf => exists_ofFrequency_of_audible (hvs v hv f hf)) hn
  obtain ⟨track, htrack⟩ := exists_noteTrack_iff.2 hchords
  obtain ⟨data, hdata⟩ := exists_renderVoicings_iff.2 ⟨hquarter, track, htrack, hsize track htrack⟩
  obtain ⟨microseconds, cs, -, hcs, hencode⟩ := renderVoicings_eq_ok hdata
  exact ⟨data, hdata, (wellFormed_iff hencode).2 fun c hc _ => length_le_of_ticksOf hcs hticks c hc⟩

/-- If `WellFormed data`, then `ticksOf` is at most `maxDelta` for every voicing with notes. -/
theorem exists_ticksOf_of_wellFormed {tuning : Tuning} {base tempo : Quantity} {vs : List Voicing}
    {data : Bytes} (h : renderVoicings tuning base tempo vs = .ok data) (hdata : WellFormed data) :
    ∀ v ∈ vs, v.frequencies ≠ [] → ∃ n ≤ maxDelta, ticksOf v.duration base tempo = .ok n := by
  obtain ⟨microseconds, cs, -, hcs, hencode⟩ := renderVoicings_eq_ok h
  intro v hv hne
  obtain ⟨c, hc, hfrequencies, hlength⟩ := exists_of_mem_forall₂ hcs.flip hv
  refine ⟨c.length, (wellFormed_iff hencode).1 hdata c hc ?_, hlength⟩
  rintro hnil
  rw [hnil, List.forall₂_nil_right_iff] at hfrequencies
  exact hne hfrequencies

/-- **The timings and chords that lead to a well-formed file.** For a timing that `Timing.make`
accepts, and chords that have notes, all of them with `Audible` frequencies, `renderVoicings`
succeeds with `WellFormed data` exactly under these conditions: the length of a quarter note is
below `overflowBound`; the length of every chord is at most `maxDelta`; and the number of bytes in
the note track is below `2 ^ 32`. -/
theorem exists_wellFormed_iff {base tempo : Quantity} {timing : Timing}
    (htiming : Timing.make base tempo = .ok timing) {vs : List Voicing}
    (hvs : ∀ v ∈ vs, v.frequencies ≠ [] ∧ ∀ f ∈ v.frequencies, f.Audible) (tuning : Tuning) :
    (∃ data, renderVoicings tuning base tempo vs = .ok data ∧ WellFormed data) ↔
      (∃ r, tempo.value? = some r ∧ 60000000 / r < overflowBound) ∧
      (∀ v ∈ vs, ∃ n ≤ maxDelta, ticksOf v.duration base tempo = .ok n) ∧
      ∀ track, noteTrack tuning base tempo vs = .ok track → trackSize track < 2 ^ 32 := by
  obtain ⟨-, htempo, -⟩ := Timing.make_eq_ok_iff.1 htiming
  obtain ⟨r, hr, hpos, -⟩ := Timing.checkSetting_eq_ok_iff.1 htempo
  constructor
  · rintro ⟨data, hdata, hwell⟩
    obtain ⟨hquarter, track, htrack, hsize⟩ := exists_renderVoicings_iff.1 ⟨data, hdata⟩
    refine ⟨⟨r, hr, (exists_quarterLengthOf_value_iff hr hpos).1 hquarter⟩, fun v hv => ?_,
      fun track' htrack' => ?_⟩
    · exact exists_ticksOf_of_wellFormed hdata hwell v hv (hvs v hv).1
    · obtain rfl := Except.ok.inj (htrack.symm.trans htrack')
      exact hsize
  · rintro ⟨⟨r', hr', hquarter⟩, hticks, hsize⟩
    obtain rfl := Option.some.inj (hr.symm.trans hr')
    exact exists_wellFormed (fun v hv => (hvs v hv).2)
      ((exists_quarterLengthOf_value_iff hr hpos).2 hquarter) hticks hsize

/-- The reference pitch 440.0 is audible. -/
theorem audible_reference : Quantity.Audible (.float 440.0) := by
  obtain ⟨hfinite, hexact⟩ : (440.0 : Float).isFinite = true ∧ toRat 440.0 = (440 : ℕ) :=
    toRat_of_toFloat rfl (by decide)
  refine ⟨440, Number.value?_float_eq_some_iff.2 ⟨hfinite, hexact⟩, ?_, ?_⟩
  · norm_num
  · norm_num

/-- Two notes of one chord. -/
theorem exists_wellFormed_iff_octave :
    Timing.make (.float 1.0) (.int 120) = .ok ⟨.float 1.0, .int 120⟩ ∧
      ∃ data, renderVoicings .pythagorean (.float 1.0) (.int 120)
        [⟨[.float 440.0, .int 880], .float 2.5⟩] = .ok data ∧ WellFormed data := by
  have htiming : Timing.make (.float 1.0) (.int 120) = .ok ⟨.float 1.0, .int 120⟩ := rfl
  have hticks : ticksOf (.float 2.5) (.float 1.0) (.int 120) = .ok 2400 := by decide +kernel
  have htrack : noteTrack .pythagorean (.float 1.0) (.int 120)
      [⟨[.float 440.0, .int 880], .float 2.5⟩] = .ok
        [⟨0, .noteOn 0 69 80⟩, ⟨0, .noteOn 1 81 80⟩, ⟨2400, .noteOff 0 69 0⟩,
          ⟨0, .noteOff 1 81 0⟩, ⟨0, .endOfTrack⟩] := by
    decide +kernel
  refine ⟨htiming, (exists_wellFormed_iff htiming ?_ .pythagorean).2 ⟨⟨120, rfl, ?_⟩, ?_, ?_⟩⟩
  · intro v hv
    rw [List.mem_singleton.1 hv]
    refine ⟨by simp, fun f hf => ?_⟩
    rcases List.mem_pair.1 hf with rfl | rfl
    · exact audible_reference
    · exact ⟨880, rfl, by norm_num, by norm_num⟩
  · calc (60000000 / 120 : ℚ) ≤ 2 ^ 19 := by norm_num
      _ < overflowBound := two_pow_lt_overflowBound (by decide)
  · intro v hv
    rw [List.mem_singleton.1 hv]
    exact ⟨2400, by decide, hticks⟩
  · intro track h
    rw [← Except.ok.inj (htrack.symm.trans h)]
    simp [trackSize, Timed.event, Message.encode, Vlq.encode, Vlq.leading]

/-- Two accepted tempos, and a note at the reference pitch. At 5e-324, the smallest positive double,
the length of a quarter note is infinite, and `renderVoicings` fails with `.overflow`. At 1e9 there
is a file, but the note is written with a distance of five bytes. -/
theorem not_wellFormed_extremeTempo :
    (∃ timing, Timing.make (.float 1.0) (.float 5e-324) = .ok timing) ∧
      (∃ timing, Timing.make (.float 1.0) (.float 1e9) = .ok timing) ∧
      Quantity.Audible (.float 440.0) ∧
      renderVoicings .pythagorean (.float 1.0) (.float 5e-324)
        [⟨[.float 440.0], .float 1.0⟩] = .error .overflow ∧
      ∃ data, renderVoicings .pythagorean (.float 1.0) (.float 1e9)
        [⟨[.float 440.0], .float 1.0⟩] = .ok data ∧ ¬WellFormed data := by
  have hslow : renderVoicings .pythagorean (.float 1.0) (.float 5e-324)
      [⟨[.float 440.0], .float 1.0⟩] = .error .overflow := by
    decide +kernel
  have hcompose : compose .pythagorean (.float 1.0) (.float 1e9) [⟨[.float 440.0], .float 1.0⟩] =
      .ok ⟨tempoEvents 0, noteEvents [⟨[⟨69, none⟩], 8000000000⟩]⟩ := by
    decide +kernel
  have hencode : ∃ data, Score.encode
      ⟨tempoEvents 0, noteEvents [⟨[⟨69, none⟩], 8000000000⟩]⟩ = .ok data := by
    refine exists_encode_iff.2 ⟨?_, ?_⟩
    · simp [trackSize, tempoEvents, Timed.event, Message.encode, Vlq.encode, Vlq.leading]
    · simp [trackSize, noteEvents, SentChord.messages, SentNote.start, SentNote.stop, Timed.event,
        Message.encode, Vlq.encode, Vlq.leading]
  obtain ⟨data, hdata⟩ := hencode
  refine ⟨exists_of_isOk (by decide +kernel), exists_of_isOk (by decide +kernel),
    audible_reference, hslow, data, ?_, ?_⟩
  · rw [renderVoicings, hcompose, ok_bind, hdata]
  · rw [wellFormed_iff hdata]
    intro h
    exact absurd (h _ List.mem_cons_self (List.cons_ne_nil _ _)) (by decide)

end Midi

end Monochord
