import Monochord.Proofs.Midi.Renderable
import Monochord.Proofs.Service.Reports

/-! # Which failures reach the caller

The service turns complaints about chord text into rejections of that text. Any other failure goes
through unhandled. Here it is said exactly for which texts, tunings and timings that happens.

* **`Answer.Contained`** — a response, or a rejection with the complaint about the text.
* **`withChords_contained_iff`** — `withChords` contains everything but failures of `resolveText` that
  are no complaints, and what follows for the chords.
* **`ResolvedChord.Playable`** — the chords that can be rendered; **`exists_render_iff`** says when all
  chords of a text make a file.
* **`answerText_contained_iff`**, **`answerFile_contained_iff`** — the requests whose answers are
  contained; both together are **`contained_iff`**. -/

namespace Monochord

open Binary64 Midi

namespace Service

/-! ## Answers -/

/-- **An answer to a text is contained** if it is a response, or if it rejects the text with the
message of the complaint `d` that `resolveText text` ends with. -/
def Answer.Contained (text : String) (a : Answer) : Prop :=
  (∃ r, a.result = .ok r) ∨ ∃ d, resolveText text = .error (.diagnosed d) ∧
    a.result = .error (.unprocessable d.message)

/-- `(withChords text next).Contained text` exactly if `Settled (resolveText text)` and `next rs` is
a response for its chords `rs`. -/
theorem withChords_contained_iff {text : String} {next : List ResolvedChord → Answer} :
    (withChords text next).Contained text ↔ Settled (resolveText text) ∧
      ∀ rs, resolveText text = .ok rs → ∃ r, (next rs).result = .ok r := by
  unfold withChords Answer.Contained
  cases h : resolveText text with
  | ok rs =>
    have hsettled : Settled (.ok rs : Except Failure (List ResolvedChord)) :=
      fun f hf => absurd hf (by simp)
    simp [hsettled]
  | error f =>
    have hnone : ∀ rs, (.error f : Except Failure (List ResolvedChord)) = .ok rs →
        ∃ r, (next rs).result = .ok r := fun rs hrs => absurd hrs (by simp)
    cases f with
    | diagnosed d =>
      refine iff_of_true (.inr ⟨d, rfl, rfl⟩) ⟨fun f hf => ⟨d, (Except.error.inj hf).symm⟩, hnone⟩
    | _ =>
      refine iff_of_false ?_ fun hc => ?_
      · rintro (⟨r, hr⟩ | ⟨d, hd, -⟩)
        · exact absurd hr (by simp)
        · exact absurd hd (by simp)
      · obtain ⟨d, hd⟩ := hc.1 _ rfl
        exact absurd hd (by simp)

/-- **`(answerText ⟨text⟩).Contained text` exactly if `Settled (resolveText text)` and all chords
are `Reportable`.** -/
theorem answerText_contained_iff (text : String) :
    (answerText ⟨text⟩).Contained text ↔ Settled (resolveText text) ∧
      ∀ rs, resolveText text = .ok rs → ∀ c ∈ rs, c.Reportable := by
  rw [answerText, withChords_contained_iff]
  refine and_congr_right fun _ => forall₂_congr fun rs hrs => ?_
  exact Response.exists_ofChords_iff (ne_nil_of_resolveText hrs) (sound_of_resolveText hrs)

end Service

/-! ## Files -/

/-- A chord that can be rendered: `HasPitch f` for all its frequencies in a tuning, and a finite
`tickHeight`. -/
def ResolvedChord.Playable (tuning : Tuning) (base tempo : Float) (c : ResolvedChord) : Prop :=
  (∀ f ∈ (match tuning with
      | .pythagorean => c.pureFrequencies
      | .equalTemperament => c.temperedFrequencies), HasPitch f) ∧
    ∃ d, c.duration = .float d ∧ (tickHeight d base tempo).isFinite = true

namespace Service

/-- `chordMessages` of `voicing tuning c` succeeds exactly if `c.Playable tuning base tempo`. -/
theorem exists_chordMessages_voicing_iff {tuning : Tuning} {base tempo : Float} {c : ResolvedChord}
    (hc : c.Sound) :
    (∃ ms, chordMessages tuning (.float base) (.float tempo) (voicing tuning c) = .ok ms) ↔
      c.Playable tuning base tempo := by
  obtain ⟨d, hd⟩ := hc.duration
  have hplayable (fs : List Float) :
      ((∀ f ∈ fs, HasPitch f) ∧ (tickHeight d base tempo).isFinite = true) ↔
        (∀ f ∈ fs, HasPitch f) ∧ ∃ d', c.duration = .float d' ∧
          (tickHeight d' base tempo).isFinite = true := by
    rw [hd]
    simp
  have hvoicing (fs : List Float) : (⟨fs.map .float, c.duration⟩ : Voicing) =
      Voicing.ofFloats fs d := by
    rw [hd]
    rfl
  cases tuning with
  | pythagorean =>
    rw [ResolvedChord.Playable, ← hplayable, voicing, hvoicing]
    exact exists_chordMessages_iff
  | equalTemperament =>
    rw [ResolvedChord.Playable, ← hplayable, voicing, hvoicing]
    exact exists_chordMessages_iff

/-- `render` succeeds exactly if `quarterHeight tempo` is finite, all chords are `Playable`, and the
note track fits into a file. -/
theorem exists_render_iff {tuning : Tuning} {base tempo : Float} {rs : List ResolvedChord}
    (hsound : ∀ r ∈ rs, r.Sound) :
    (∃ content, render tuning (.float base) (.float tempo) rs = .ok content) ↔
      (quarterHeight tempo).isFinite = true ∧ (∀ c ∈ rs, c.Playable tuning base tempo) ∧
        ∀ track, noteTrack tuning (.float base) (.float tempo) (rs.map (voicing tuning)) = .ok track →
          trackSize track < 256 ^ 4 := by
  have hchords : (∃ track, noteTrack tuning (.float base) (.float tempo)
      (rs.map (voicing tuning)) = .ok track) ↔ ∀ c ∈ rs, c.Playable tuning base tempo := by
    rw [exists_noteTrack_iff, List.forall_mem_map]
    exact forall₂_congr fun c hc => exists_chordMessages_voicing_iff (hsound c hc)
  rw [render, exists_renderVoicings_iff, exists_quarterLengthOf_iff, ← hchords]
  refine and_congr_right fun _ => ?_
  -- there is one track at most, so that its size can be stated of all of them
  constructor
  · rintro ⟨track, htrack, hsize⟩
    exact ⟨⟨track, htrack⟩, fun _ h => Except.ok.inj (htrack.symm.trans h) ▸ hsize⟩
  · rintro ⟨⟨track, htrack⟩, hsize⟩
    exact ⟨track, htrack, hsize track htrack⟩

/-- **`(answerFile r).Contained r.text` exactly if `Settled (resolveText r.text)`, and for its
chords `quarterHeight r.tempo` is finite, all of them are `Playable`, and the note track fits into a
file.** -/
theorem answerFile_contained_iff (r : FileRequest) :
    (answerFile r).Contained r.text ↔ Settled (resolveText r.text) ∧
      ∀ rs, resolveText r.text = .ok rs →
        (quarterHeight r.tempo).isFinite = true ∧
        (∀ c ∈ rs, c.Playable r.tuning r.base r.tempo) ∧
        ∀ track, noteTrack r.tuning (.float r.base) (.float r.tempo)
          (rs.map (voicing r.tuning)) = .ok track → trackSize track < 256 ^ 4 := by
  rw [answerFile, withChords_contained_iff]
  refine and_congr_right fun _ => forall₂_congr fun rs hrs => ?_
  rw [← exists_render_iff (sound_of_resolveText hrs)]
  cases render r.tuning (.float r.base) (.float r.tempo) rs with
  | ok content => exact iff_of_true ⟨_, rfl⟩ ⟨content, rfl⟩
  | error f => simp

/-! ## An octave above the reference pitch -/

/-- `"440: 8"` has no token that is out of range. -/
theorem guarded_octave {cs : List Chord} (hcs : readSequence "440: 8" = .ok cs) :
    Guarded (cs.flatMap Chord.tokens) := by
  have hread : readSequence "440: 8" = .ok [⟨"440", ["8"], .float 1.0⟩] := rfl
  have hnote : noteSemitones "440" = .error (Cause.noteMalformed "440").diagnostic := by decide
  have hinterval : Interval.read "8" = .ok ⟨.octave, 0⟩ := by decide
  rw [hread] at hcs
  rw [← Except.ok.inj hcs]
  refine .inr ⟨?_, .inr ⟨?_, trivial⟩⟩
  · -- the fundamental is a number
    rintro ⟨n, hn, -⟩
    rw [hnote] at hn
    exact absurd hn (by simp)
  · rintro (h | ⟨i, hi, hoctaves⟩)
    · rw [hinterval] at h
      exact absurd h (by simp)
    · rw [hinterval] at hi
      rw [← Except.ok.inj hi] at hoctaves
      exact absurd hoctaves (by decide)

/-! ## Both requests -/

/-- **The failures that reach the caller.** For every text, tuning and timing, `Answer.Contained`
holds of the answer exactly under these conditions.

No token of the chords is out of range before one is complained about: `Guarded`. If `resolveText`
succeeds, all chords are `Reportable`; for a file, `quarterHeight` is finite, the chords are
`Playable`, and `trackSize` is below `256 ^ 4`. -/
theorem contained_iff (r : FileRequest) :
    ((answerText ⟨r.text⟩).Contained r.text ↔
      (∀ cs, readSequence r.text = .ok cs → Guarded (cs.flatMap Chord.tokens)) ∧
        ∀ rs, resolveText r.text = .ok rs → ∀ c ∈ rs, c.Reportable) ∧
    ((answerFile r).Contained r.text ↔
      (∀ cs, readSequence r.text = .ok cs → Guarded (cs.flatMap Chord.tokens)) ∧
        ∀ rs, resolveText r.text = .ok rs →
          (quarterHeight r.tempo).isFinite = true ∧
          (∀ c ∈ rs, c.Playable r.tuning r.base r.tempo) ∧
          ∀ track, noteTrack r.tuning (.float r.base) (.float r.tempo)
            (rs.map (voicing r.tuning)) = .ok track → trackSize track < 256 ^ 4) := by
  constructor
  · rw [answerText_contained_iff, settled_resolveText_iff]
  · rw [answerFile_contained_iff, settled_resolveText_iff]

/-- An octave above the reference pitch, which is reported and rendered. -/
theorem contained_iff_octave :
    (answerText ⟨"440: 8"⟩).Contained "440: 8" ∧
      (answerFile ⟨"440: 8", .pythagorean, 1.0, 120.0⟩).Contained "440: 8" := by
  obtain ⟨hreported, hrendered⟩ := contained_iff ⟨"440: 8", .pythagorean, 1.0, 120.0⟩
  refine ⟨hreported.2 ⟨fun _ => guarded_octave, fun rs hrs c hc => ?_⟩,
    hrendered.2 ⟨fun _ => guarded_octave, fun rs hrs => ?_⟩⟩
  · rw [resolveText_octave] at hrs
    rw [← Except.ok.inj hrs, List.mem_singleton] at hc
    rw [hc]
    refine ⟨by decide, fun p hp _ => ?_⟩
    rw [List.mem_singleton.1 hp]
    decide
  · rw [resolveText_octave] at hrs
    rw [← Except.ok.inj hrs]
    refine ⟨by decide, fun c hc => ?_, fun track htrack => ?_⟩
    · rw [List.mem_singleton.1 hc]
      refine ⟨fun f hf => ?_, 1.0, rfl, by decide⟩
      rw [List.mem_singleton.1 hf]
      exact ⟨by decide, by decide⟩
    · have hmessages : noteTrack .pythagorean (.float 1.0) (.float 120.0)
          [⟨[.float 880.0], .float 1.0⟩] =
            .ok [⟨0, .noteOn 0 81 80⟩, ⟨960, .noteOff 0 81 0⟩, ⟨0, .endOfTrack⟩] := by
        decide +kernel
      rw [← Except.ok.inj (hmessages.symm.trans htrack)]
      simp [trackSize, Timed.event, Message.encode, Vlq.encode, Vlq.leading]

/-- A note in a distant octave, whose frequency is beyond every double: `resolveText` fails with
`.overflow`, which is no complaint, and so do both answers. -/
theorem not_contained_distantOctave :
    (answerText ⟨"C9999: 1"⟩).result = .error (.failed .overflow) ∧
      ¬(answerText ⟨"C9999: 1"⟩).Contained "C9999: 1" ∧
    (answerFile ⟨"C9999: 1", .pythagorean, 1.0, 120.0⟩).result = .error (.failed .overflow) ∧
      ¬(answerFile ⟨"C9999: 1", .pythagorean, 1.0, 120.0⟩).Contained "C9999: 1" := by
  have hread : readSequence "C9999: 1" = .ok [⟨"C9999", ["1"], .float 1.0⟩] := rfl
  have hsemitones : noteSemitones "C9999" = .ok 119931 := rfl
  have hfundamental : fundamentalOfText "C9999" = .error .overflow := by
    rw [fundamentalOfText, noteFrequency_eq, hsemitones, diagnosing_ok, ok_bind,
      if_neg (by decide), semitonePower_eq_error (.inl (by decide))]
    rfl
  have hresolve : resolveText "C9999: 1" = .error .overflow := by
    rw [resolveText, hread, diagnosing_ok, ok_bind, resolveAll, List.mapM_cons, resolve_eq,
      hfundamental, error_bind, error_bind]
  have hunsettled : ¬Settled (resolveText "C9999: 1") := by
    intro h
    obtain ⟨d, hd⟩ := h _ hresolve
    exact absurd hd (by simp)
  refine ⟨?_, fun h => ?_, ?_, fun h => ?_⟩
  · rw [answerText, withChords, hresolve]
  · exact hunsettled ((answerText_contained_iff _).1 h).1
  · rw [answerFile, withChords, hresolve]
  · exact hunsettled ((answerFile_contained_iff _).1 h).1

end Service

end Monochord
