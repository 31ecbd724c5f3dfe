import Monochord.Proofs.Comparison
import Monochord.Service.Answer

/-! # What a response reports

A report copies the tones of a resolved chord one by one and sets them side by side. It is made
exactly if the chord is reportable, and then it leaves nothing out. So does the response that counts
the reports.

* **`ResolvedChord.Reportable`** — the chords that can be reported;
  **`ResolvedChord.exists_compare_iff`**: their tones can be set side by side.
* **`Service.ChordReport.Copies`** — a report with all that a resolved chord holds;
  **`Service.ChordReport.make_eq_ok_iff`**: the only one that is made.
* **`Service.ChordReport.exists_make_iff`** — `ChordReport.make` succeeds for reportable chords.
* **`Service.Response.ofChords_eq_ok_iff`** — the response for some chords. -/

namespace Monochord

open Binary64

/-- A chord that can be reported: `0.0 < c.harmony.fundamental`, and no interval is infinite in
equal temperament only. -/
def ResolvedChord.Reportable (c : ResolvedChord) : Prop :=
  0.0 < c.harmony.fundamental ∧ ∀ p ∈ c.harmony.pure.zip c.harmony.tempered,
    p.1.frequency.isFinite = true → p.2.frequency.isFinite = true

/-- **`c.harmony.compare` succeeds exactly if `c.Reportable`.** -/
theorem ResolvedChord.exists_compare_iff {c : ResolvedChord} (hc : c.Sound) :
    (∃ rows, c.harmony.compare = .ok rows) ↔ c.Reportable := by
  obtain ⟨ps, hne, hpure, htempered, htones⟩ := hc.tones
  have hzip : c.harmony.pure.zip c.harmony.tempered = ps := by
    rw [hpure, htempered, List.zip_map', List.map_id']
  rw [Harmony.compare, Reportable, hzip, exists_mapM_eq_ok_iff]
  constructor
  · intro h
    have hf : 0.0 < c.harmony.fundamental := by
      refine hc.fundamental.resolve_left fun hzero => ?_
      obtain ⟨p, hp⟩ := List.exists_mem_of_ne_nil ps hne
      obtain ⟨row, hrow⟩ := h p hp
      rw [(htones p hp).compareTones_eq_error hzero] at hrow
      exact absurd hrow (by simp)
    exact ⟨hf, fun p hp => ((htones p hp).exists_compareTones_iff hf).1 (h p hp)⟩
  · rintro ⟨hf, hfinite⟩ p hp
    exact ((htones p hp).exists_compareTones_iff hf).2 (hfinite p hp)

namespace Service

/-! ## Tones -/

/-- `checkTone x ratio` accepts exactly the positive `x`, whose ratio is positive if it has one. -/
theorem checkTone_eq_ok_iff {x : Float} {ratio : Option Float} :
    checkTone x ratio = .ok () ↔ 0.0 < x ∧ ∀ r ∈ ratio, 0.0 < r := by
  unfold checkTone checkAboveZero
  cases ratio with
  | none => by_cases hx : 0.0 < x <;> simp [hx]
  | some r => by_cases hx : 0.0 < x <;> by_cases hr : 0.0 < r <;> simp [hx, hr]

/-- `reportPure` sends a tone of positive frequency and ratio as it is. -/
theorem reportPure_eq_ok_iff {t t' : PureTone} :
    reportPure t = .ok t' ↔ (0.0 < t.frequency ∧ 0.0 < t.ratio) ∧ t' = t := by
  rw [reportPure, bind_eq_ok_iff]
  constructor
  · rintro ⟨⟨⟩, hcheck, h⟩
    obtain ⟨hfrequency, hratio⟩ := checkTone_eq_ok_iff.1 hcheck
    exact ⟨⟨hfrequency, hratio _ rfl⟩, (Except.ok.inj h).symm⟩
  · rintro ⟨⟨hfrequency, hratio⟩, rfl⟩
    exact ⟨(), checkTone_eq_ok_iff.2 ⟨hfrequency, fun r hr => Option.some.inj hr ▸ hratio⟩, rfl⟩

/-- `reportTempered` sends a tone of positive frequency as it is. -/
theorem reportTempered_eq_ok_iff {t t' : TemperedTone} :
    reportTempered t = .ok t' ↔ 0.0 < t.frequency ∧ t' = t := by
  rw [reportTempered, bind_eq_ok_iff]
  constructor
  · rintro ⟨⟨⟩, hcheck, h⟩
    exact ⟨(checkTone_eq_ok_iff.1 hcheck).1, (Except.ok.inj h).symm⟩
  · rintro ⟨hfrequency, rfl⟩
    exact ⟨(), checkTone_eq_ok_iff.2 ⟨hfrequency, fun r hr => absurd hr (by simp)⟩, rfl⟩

/-! ## Reports -/

namespace ChordReport

/-- **A report with all that a resolved chord holds**: what was written, the frequencies in both
tunings, and the rows that `Harmony.compare` makes of them. -/
structure Copies (c : ResolvedChord) (report : ChordReport) : Prop where
  /-- The fundamental is the written one. -/
  fundamental : report.fundamental = c.fundamental
  /-- Its frequency is that of the chord. -/
  frequency : report.frequency = c.harmony.fundamental
  /-- The intervals are the written ones. -/
  intervals : report.intervals = c.intervals
  /-- The duration is that of the chord. -/
  duration : c.duration = .float report.duration
  /-- The Pythagorean tones are those of the chord. -/
  pure : report.pure = c.harmony.pure
  /-- So are the equal-tempered ones. -/
  tempered : report.tempered = c.harmony.tempered
  /-- The tones are set side by side. -/
  comparisons : c.harmony.compare = .ok report.comparisons

/-- All frequencies and ratios of a chord with `c.Sound` and `c.Reportable` are positive. -/
theorem forall_zero_lt {c : ResolvedChord} (hc : c.Sound) (h : c.Reportable) :
    (∀ t ∈ c.harmony.pure, 0.0 < t.frequency ∧ 0.0 < t.ratio) ∧
      ∀ t ∈ c.harmony.tempered, 0.0 < t.frequency := by
  obtain ⟨ps, -, hpure, htempered, htones⟩ := hc.tones
  rw [hpure, htempered, List.forall_mem_map, List.forall_mem_map]
  refine ⟨fun p hp => ?_, fun p hp => ?_⟩
  · obtain ⟨hfrequency, hratio, -⟩ := (htones p hp).zero_lt h.1
    exact ⟨hfrequency, hratio⟩
  · obtain ⟨-, -, hfrequency⟩ := (htones p hp).zero_lt h.1
    exact hfrequency

/-- **`ChordReport.make c = .ok report`** exactly if `c` is reportable and `report` is its copy. -/
theorem make_eq_ok_iff {c : ResolvedChord} (hc : c.Sound) {report : ChordReport} :
    make c = .ok report ↔ c.Reportable ∧ Copies c report := by
  obtain ⟨d, hd⟩ := hc.duration
  have hduration : (c.duration.number >>= Number.toFloat).mapError rejection = .ok d := by
    rw [hd]
    rfl
  rw [make]
  constructor
  · intro h
    obtain ⟨pure, hpure, h⟩ := bind_eq_ok_iff.1 h
    obtain ⟨tempered, htempered, h⟩ := bind_eq_ok_iff.1 h
    obtain ⟨rows, hrows, h⟩ := bind_eq_ok_iff.1 h
    rw [hduration, ok_bind] at h
    obtain rfl := Except.ok.inj h
    -- the tones pass through unchanged, as far as they are accepted
    obtain ⟨-, rfl⟩ := (mapM_guard_eq_ok_iff fun _ _ => reportPure_eq_ok_iff).1 hpure
    obtain ⟨-, rfl⟩ := (mapM_guard_eq_ok_iff fun _ _ => reportTempered_eq_ok_iff).1 htempered
    have hrows := mapError_eq_ok_iff.1 hrows
    exact ⟨(ResolvedChord.exists_compare_iff hc).1 ⟨rows, hrows⟩, rfl, rfl, rfl, hd, rfl, rfl, hrows⟩
  · rintro ⟨hreportable, hcopies⟩
    obtain ⟨haccepted, haccepted'⟩ := forall_zero_lt hc hreportable
    have hpure : c.harmony.pure.mapM reportPure = .ok c.harmony.pure :=
      (mapM_guard_eq_ok_iff fun _ _ => reportPure_eq_ok_iff).2 ⟨haccepted, rfl⟩
    have htempered : c.harmony.tempered.mapM reportTempered = .ok c.harmony.tempered :=
      (mapM_guard_eq_ok_iff fun _ _ => reportTempered_eq_ok_iff).2 ⟨haccepted', rfl⟩
    have hrows := mapError_eq_ok_iff (f := rejection).2 hcopies.comparisons
    rw [hpure, ok_bind, htempered, ok_bind, hrows, ok_bind, hduration, ok_bind, pure_eq_ok,
      ← hcopies.fundamental, ← hcopies.frequency, ← hcopies.intervals, ← hcopies.pure,
      ← hcopies.tempered, Quantity.float.inj (hd.symm.trans hcopies.duration)]

/-- **`ChordReport.make c` succeeds exactly if `c.Reportable`.** -/
theorem exists_make_iff {c : ResolvedChord} (hc : c.Sound) :
    (∃ report, make c = .ok report) ↔ c.Reportable := by
  simp only [make_eq_ok_iff hc]
  refine ⟨fun ⟨_, h, _⟩ => h, fun h => ?_⟩
  obtain ⟨d, hd⟩ := hc.duration
  obtain ⟨rows, hrows⟩ := (ResolvedChord.exists_compare_iff hc).2 h
  exact ⟨⟨_, _, _, d, _, _, rows⟩, h, rfl, rfl, rfl, hd, rfl, rfl, hrows⟩

end ChordReport

/-! ## Responses -/

/-- **`Response.ofChords cs = .ok response`** exactly if there are chords, all of them have reports, and
the response counts them. -/
theorem Response.ofChords_eq_ok_iff {cs : List ResolvedChord} {response : Response} :
    Response.ofChords cs = .ok response ↔ cs ≠ [] ∧ ∃ reports,
      List.Forall₂ (fun c report => ChordReport.make c = .ok report) cs reports ∧
        response = .chords cs.length reports := by
  have hcount : 1 ≤ cs.length ↔ cs ≠ [] := List.length_pos_iff
  rw [Response.ofChords, bind_eq_ok_iff]
  simp only [mapM_eq_ok_iff, hcount]
  constructor
  · rintro ⟨reports, hreports, h⟩
    split at h
    · next hne => exact ⟨hne, reports, hreports, (Except.ok.inj h).symm⟩
    · exact absurd h (by simp)
  · rintro ⟨hne, reports, hreports, rfl⟩
    exact ⟨reports, hreports, by rw [if_pos hne, pure_eq_ok]⟩

/-- `Response.ofChords cs` succeeds exactly if all of `cs ≠ []` are `Reportable`. -/
theorem Response.exists_ofChords_iff {cs : List ResolvedChord} (hne : cs ≠ [])
    (hsound : ∀ c ∈ cs, c.Sound) :
    (∃ response, Response.ofChords cs = .ok response) ↔ ∀ c ∈ cs, c.Reportable := by
  have hreports : (∃ reports, cs.mapM ChordReport.make = .ok reports) ↔ ∀ c ∈ cs, c.Reportable := by
    rw [exists_mapM_eq_ok_iff]
    exact forall₂_congr fun c hc => ChordReport.exists_make_iff (hsound c hc)
  rw [← hreports]
  simp only [Response.ofChords_eq_ok_iff, mapM_eq_ok_iff]
  exact ⟨fun ⟨_, _, reports, h, _⟩ => ⟨reports, h⟩, fun ⟨reports, h⟩ => ⟨_, hne, reports, h, rfl⟩⟩

/-- `resolveText text = .ok rs` only if `rs ≠ []`. -/
theorem ne_nil_of_resolveText {text : String} {rs : List ResolvedChord}
    (h : resolveText text = .ok rs) : rs ≠ [] := by
  obtain ⟨cs, hcs, h⟩ := bind_eq_ok_iff.1 h
  rintro rfl
  exact ne_nil_of_readSequence (diagnosing_eq_ok_iff.1 hcs)
    (List.forall₂_nil_right_iff.1 (mapM_eq_ok_iff.1 h))

end Service

end Monochord
