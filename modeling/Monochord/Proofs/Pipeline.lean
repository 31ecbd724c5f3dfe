import Monochord.Proofs.Interval.Symbols
import Monochord.Proofs.Lines
import Monochord.Proofs.Resolution
import Monochord.Proofs.Service.Reports

/-! # From a text to its tones

All lines of a text are read before the first chord is resolved, and all chords are resolved before
the first tones are set side by side. So a failure is decided by the stage first and by the place
next; and if there is none, every chord line, every interval and every pair of tones comes through
in its order.

* **`chordLines`** — the chords in the lines of a text.
* **`Chord.Fails`**, **`Chord.Keeps`** — what becomes of one chord;
  **`Chord.resolve_eq_error_iff`**.
* **`ResolvesTo`** — what becomes of a text; **`resolvesTo_resolveText`**.
* **`Harmony.PairsUp`** — tones side by side, each with its own counterpart.
* **`resolveText_keeps`** — all stages together, up to the response that is sent. -/

namespace Monochord

open Text

/-! ## Lines -/

/-- The lines of a text, `splitOn '\n'`. -/
def linesOf (text : String) : List (List Char) := splitOn '\n' text.toList

/-- The chords in the lines of a text, in their order. -/
def chordLines (text : String) : List Chord := (linesOf text).filterMap chordIn?

/-- A text of which no line is malformed. -/
def Readable (text : String) : Prop := ∀ line ∈ linesOf text, ∃ c?, readLineChars line = .ok c?

/-! ## Chords -/

/-- **How a chord fails to be resolved**: its fundamental is tried first, and then its intervals in
the written order. -/
inductive Chord.Fails (c : Chord) (e : Failure) : Prop
  /-- The fundamental has no frequency. -/
  | fundamental (h : fundamentalOfText c.fundamental = .error e)
  /-- The fundamental has a frequency, but an interval above it has no tones. -/
  | interval {f : Float} {before : List String} {text : String}
      (hf : fundamentalOfText c.fundamental = .ok f)
      (h : FailsFirst (tuneInterval f) c.intervals before text e)

/-- `c.resolve = .error e` exactly if `c.Fails e`. -/
theorem Chord.resolve_eq_error_iff {c : Chord} {e : Failure} :
    c.resolve = .error e ↔ c.Fails e := by
  have htones {f : Float} : (c.intervals.mapM (tuneInterval f) >>= fun tones => (.ok
      ⟨c.fundamental, c.duration, ⟨f, tones.map (·.1), tones.map (·.2)⟩⟩ :
        Except Failure ResolvedChord)) = .error e ↔
      ∃ before text, FailsFirst (tuneInterval f) c.intervals before text e := by
    rw [← mapM_eq_error_iff, bind_eq_error_iff]
    simp
  rw [resolve_eq, bind_eq_error_iff]
  simp only [htones]
  constructor
  · rintro (h | ⟨f, hf, before, text, h⟩)
    · exact .fundamental h
    · exact .interval hf h
  · rintro (h | ⟨hf, h⟩)
    · exact .inl h
    · exact .inr ⟨_, hf, _, _, h⟩

/-- **A resolved chord that keeps what is written**: the fundamental, the duration and, in either
tuning, all intervals in their order. -/
structure Chord.Keeps (c : Chord) (r : ResolvedChord) : Prop where
  /-- The fundamental is the written one. -/
  fundamental : r.fundamental = c.fundamental
  /-- The duration is the written one. -/
  duration : r.duration = c.duration
  /-- The Pythagorean tones are those of the written intervals. -/
  pure : r.harmony.pure.map (·.interval) = c.intervals
  /-- So are the equal-tempered ones. -/
  tempered : r.harmony.tempered.map (·.interval) = c.intervals

/-- `p.1.interval = text` and `p.2.interval = text` if `tuneInterval f text = .ok p`. -/
theorem interval_of_tuneInterval {f : Float} {text : String} {p : PureTone × TemperedTone}
    (h : tuneInterval f text = .ok p) : p.1.interval = text ∧ p.2.interval = text := by
  rw [tuneInterval_eq] at h
  obtain ⟨i, -, h⟩ := bind_eq_ok_iff.1 h
  obtain ⟨r, -, h⟩ := bind_eq_ok_iff.1 h
  obtain ⟨t, -, h⟩ := bind_eq_ok_iff.1 h
  obtain rfl := Except.ok.inj h
  exact ⟨rfl, rfl⟩

/-- **`c.Keeps r` if `c.resolve = .ok r`.** -/
theorem Chord.keeps_of_resolve {c : Chord} {r : ResolvedChord} (h : c.resolve = .ok r) :
    c.Keeps r := by
  rw [resolve_eq] at h
  obtain ⟨f, -, h⟩ := bind_eq_ok_iff.1 h
  obtain ⟨tones, htones, h⟩ := bind_eq_ok_iff.1 h
  obtain rfl := Except.ok.inj h
  have hnames := mapM_eq_ok_iff.1 htones
  refine ⟨rfl, rfl, ?_, ?_⟩
  · rw [List.map_map, ← List.map_id c.intervals]
    exact map_eq_map_of_forall₂ (fun _ _ hp => (interval_of_tuneInterval hp).1) hnames
  · rw [List.map_map, ← List.map_id c.intervals]
    exact map_eq_map_of_forall₂ (fun _ _ hp => (interval_of_tuneInterval hp).2) hnames

/-! ## Complaints without a line -/

/-- A failure `e` that is no complaint about a line: `d.line = none` if `e = .diagnosed d`. -/
def Untagged (e : Failure) : Prop := ∀ d, e = .diagnosed d → d.line = none

/-- `c.diagnostic` knows of no line. -/
theorem untagged_diagnostic (c : Cause) : Untagged (.diagnosed c.diagnostic) := by
  rintro d ⟨⟩
  cases c <;> rfl

/-- `fundamentalOfText` fails with `Untagged e` only. -/
theorem untagged_of_fundamentalOfText {text : String} {e : Failure}
    (h : fundamentalOfText text = .error e) : Untagged e := by
  rw [fundamentalOfText] at h
  split at h
  · exact absurd h (by simp)
  · -- the text is no note, and then no number
    unfold acceptFrequency at h
    split at h
    · split at h
      · exact absurd h (by simp)
      · rw [← Except.error.inj h]
        exact untagged_diagnostic (.fundamentalInvalid text)
    · rw [← Except.error.inj h]
      exact untagged_diagnostic (.fundamentalInvalid text)
  · next hne _ =>
    obtain rfl := Except.error.inj h
    exact fun d hd => absurd hd (hne d)

/-- `Interval.ofTrimmed` fails with `c.diagnostic` of a cause only. -/
theorem Interval.exists_cause_of_ofTrimmed {text : String} {d : Diagnostic}
    (h : ofTrimmed text = .error d) : ∃ c : Cause, d = c.diagnostic := by
  have hreads := reads_ofTrimmed text
  rw [h] at hreads
  cases hreads with
  | malformed _ => exact ⟨_, rfl⟩
  | unknown _ => exact ⟨_, rfl⟩
  | compoundUnknown _ => exact ⟨_, rfl⟩

/-- `Interval.read` fails with `Untagged e` only. -/
theorem Interval.untagged_of_read {text : String} {e : Failure} (h : read text = .error e) :
    Untagged e := by
  unfold read at h
  split at h
  · rw [← Except.error.inj h]
    exact fun d hd => absurd hd (by simp)
  · obtain ⟨d, hd, rfl⟩ := mapError_eq_error_iff.1 h
    obtain ⟨c, rfl⟩ := exists_cause_of_ofTrimmed hd
    exact untagged_diagnostic c

/-- `tuneInterval f` fails with `Untagged e` only. -/
theorem untagged_of_tuneInterval {f : Float} {text : String} {e : Failure}
    (h : tuneInterval f text = .error e) : Untagged e := by
  have hprobe : (Token.interval text).probe = .error e := by
    rw [← outcome_tuneInterval f text, h, outcome_error]
  rcases bind_eq_error_iff.1 hprobe with hread | ⟨i, -, hratio⟩
  · exact Interval.untagged_of_read hread
  · -- a ratio that does not exist is not complained about
    have hoverflow : e = .overflow := by
      rw [outcome, map_eq_error_iff, Interval.frequencyRatio] at hratio
      split at hratio
      · exact absurd hratio (by simp)
      · exact (Except.error.inj hratio).symm
    rw [hoverflow]
    exact fun d hd => absurd hd (by simp)

/-- **`Untagged e` if `c.Fails e`**, since the line of `c` has been read before. -/
theorem Chord.Fails.untagged {c : Chord} {e : Failure} (h : c.Fails e) : Untagged e := by
  cases h with
  | fundamental h => exact untagged_of_fundamentalOfText h
  | interval _ h => exact untagged_of_tuneInterval h.fails

/-! ## Texts -/

/-- **What becomes of a text.** The stages come one after another: its lines, the question whether
there are chords at all, and the chords in their order. -/
inductive ResolvesTo (text : String) : Except Failure (List ResolvedChord) → Prop
  /-- A line is malformed, and the first such line is complained about by its number. -/
  | malformed {before : List (List Char)} {line : List Char} {d : Diagnostic}
      (h : FailsFirst readLineChars (linesOf text) before line d) :
      ResolvesTo text (.error (.diagnosed (d.atLine (1 + before.length))))
  /-- All lines are well formed, but none has a chord. -/
  | noChords (lines : Readable text) (none : chordLines text = []) :
      ResolvesTo text (.error (.diagnosed Cause.noChords.diagnostic))
  /-- All lines are well formed, and the first chord that is not resolved fails without a line. -/
  | unresolved {before : List Chord} {c : Chord} {e : Failure} (lines : Readable text)
      (first : FailsFirst Chord.resolve (chordLines text) before c e) (chord : c.Fails e)
      (untagged : Untagged e) : ResolvesTo text (.error e)
  /-- All lines are well formed, and there is a result for each chord, in order. -/
  | resolved {rs : List ResolvedChord} (lines : Readable text) (some : chordLines text ≠ [])
      (chords : List.Forall₂ (fun c r => c.resolve = .ok r ∧ c.Keeps r) (chordLines text) rs) :
      ResolvesTo text (.ok rs)

/-- **`ResolvesTo text (resolveText text)`**: the first failure is reported, and without one every
chord is kept. -/
theorem resolvesTo_resolveText (text : String) : ResolvesTo text (resolveText text) := by
  rw [resolveText, readSequence_eq]
  cases hread : readLines 1 (splitOn '\n' text.toList) with
  | error d =>
    obtain ⟨before, line, d, hfirst, rfl⟩ := exists_failsFirst_of_readLines hread
    exact .malformed hfirst
  | ok cs =>
    obtain ⟨hlines, rfl⟩ := readLines_eq_ok_iff.1 hread
    rw [ok_bind]
    by_cases hnone : chordLines text = []
    · -- all lines are comments
      have hempty : ((splitOn '\n' text.toList).filterMap chordIn?).isEmpty = true :=
        List.isEmpty_iff.2 hnone
      rw [if_pos hempty]
      exact .noChords hlines hnone
    · have hsome : ¬((splitOn '\n' text.toList).filterMap chordIn?).isEmpty = true := fun h =>
        hnone (List.isEmpty_iff.1 h)
      rw [if_neg hsome, pure_eq_ok, diagnosing_ok, ok_bind]
      show ResolvesTo text (resolveAll (chordLines text))
      cases hresolve : resolveAll (chordLines text) with
      | error e =>
        obtain ⟨before, c, hfirst⟩ := mapM_eq_error_iff.1 hresolve
        have hfails := Chord.resolve_eq_error_iff.1 hfirst.fails
        exact .unresolved hlines hfirst hfails hfails.untagged
      | ok rs =>
        refine .resolved hlines hnone ((mapM_eq_ok_iff.1 hresolve).imp fun c r h => ?_)
        exact ⟨h, c.keeps_of_resolve h⟩

/-- A malformed line comes before an unknown note in an earlier line. -/
example : resolveText "H4: 1\nA4 1" =
    .error (.diagnosed (Cause.lineWithoutColon.diagnostic.atLine 2)) := rfl

/-! ## Tones side by side -/

/-- **Rows that set the tones of a harmony side by side**: one for each pair of tones with the same
index, and none is left out. -/
structure Harmony.PairsUp (h : Harmony) (rows : List Comparison) : Prop where
  /-- The intervals are those of the Pythagorean tones, -/
  interval : rows.map (·.interval) = h.pure.map (·.interval)
  /-- so are the ratios -/
  ratio : rows.map (·.ratio) = h.pure.map (·.ratio)
  /-- and the first frequencies. -/
  pureFrequency : rows.map (·.pureFrequency) = h.pure.map (·.frequency)
  /-- The second frequencies are those of the equal-tempered tones. -/
  temperedFrequency : rows.map (·.temperedFrequency) = h.tempered.map (·.frequency)
  /-- The cents are the distance of both frequencies. -/
  cents : ∀ row ∈ rows,
    cents (.float row.pureFrequency) (.float row.temperedFrequency) = .ok row.cents

/-- A row of `compareTones p t` consists of the two tones and their distance in cents. -/
theorem compareTones_spec {p : PureTone} {t : TemperedTone} {row : Comparison}
    (h : compareTones p t = .ok row) :
    row.interval = p.interval ∧ row.ratio = p.ratio ∧ row.pureFrequency = p.frequency ∧
      row.temperedFrequency = t.frequency ∧
      cents (.float row.pureFrequency) (.float row.temperedFrequency) = .ok row.cents := by
  obtain ⟨c, hc, h⟩ := bind_eq_ok_iff.1 h
  obtain rfl := Except.ok.inj h
  exact ⟨rfl, rfl, rfl, rfl, hc⟩

/-- **`h.PairsUp rows` if `h.compare = .ok rows`** and there are equally many tones in both tunings.
-/
theorem Harmony.pairsUp_of_compare {h : Harmony} {rows : List Comparison}
    (hlength : h.pure.length = h.tempered.length) (hrows : h.compare = .ok rows) :
    h.PairsUp rows := by
  have hpairs := mapM_eq_ok_iff.1 hrows
  have hpure : (h.pure.zip h.tempered).map Prod.fst = h.pure := List.map_fst_zip hlength.le
  have htempered : (h.pure.zip h.tempered).map Prod.snd = h.tempered :=
    List.map_snd_zip hlength.ge
  refine ⟨?_, ?_, ?_, ?_, fun row hrow => ?_⟩
  · rw [← hpure, List.map_map]
    exact map_eq_map_of_forall₂ (fun _ _ hp => (compareTones_spec hp).1) hpairs
  · rw [← hpure, List.map_map]
    exact map_eq_map_of_forall₂ (fun _ _ hp => (compareTones_spec hp).2.1) hpairs
  · rw [← hpure, List.map_map]
    exact map_eq_map_of_forall₂ (fun _ _ hp => (compareTones_spec hp).2.2.1) hpairs
  · rw [← htempered, List.map_map]
    exact map_eq_map_of_forall₂ (fun _ _ hp => (compareTones_spec hp).2.2.2.1) hpairs
  · obtain ⟨p, -, hp⟩ := exists_of_mem_forall₂ hpairs hrow
    obtain ⟨-, -, -, -, hcents⟩ := compareTones_spec hp
    exact hcents

/-- `c.Keeps r` only if there are as many tones in either tuning as `c.intervals`. -/
theorem Chord.Keeps.length_eq {c : Chord} {r : ResolvedChord} (h : c.Keeps r) :
    r.harmony.pure.length = c.intervals.length ∧
      r.harmony.pure.length = r.harmony.tempered.length := by
  have hpure := congrArg List.length h.pure
  have htempered := congrArg List.length h.tempered
  rw [List.length_map] at hpure htempered
  exact ⟨hpure, hpure.trans htempered.symm⟩

/-! ## Responses -/

namespace Service

/-- **What a response says of a chord line**: there is a resolved chord that keeps what is written, and
the report is its copy, with one row for each interval. -/
def ChordReport.Reports (c : Chord) (report : ChordReport) : Prop :=
  ∃ r, c.resolve = .ok r ∧ c.Keeps r ∧ report.Copies r ∧ report.intervals = c.intervals ∧
    r.harmony.PairsUp report.comparisons ∧ report.comparisons.length = c.intervals.length

/-- The result for a text that is resolved is `Response.ofChords` of its chords. -/
theorem answerText_eq_ok_iff {text : String} {response : Response} :
    (answerText ⟨text⟩).result = .ok response ↔
      ∃ rs, resolveText text = .ok rs ∧ Response.ofChords rs = .ok response := by
  rw [answerText, withChords]
  cases resolveText text with
  | ok rs => simp
  | error f => cases f <;> simp

end Service

/-! ## All stages -/

/-- `resolveText text = .ok rs` only if `Chord.Keeps` holds of the chord lines and `rs`, one by one.
-/
theorem forall₂_keeps_of_resolveText {text : String} {rs : List ResolvedChord}
    (h : resolveText text = .ok rs) : List.Forall₂ Chord.Keeps (chordLines text) rs := by
  have hcases := resolvesTo_resolveText text
  rw [h] at hcases
  cases hcases with
  | resolved _ _ hchords => exact hchords.imp fun _ _ hc => hc.2

/-- `r.harmony.compare` makes one row for each interval, if `c.Keeps r`. -/
theorem Chord.Keeps.pairsUp {c : Chord} {r : ResolvedChord} (h : c.Keeps r) {rows : List Comparison}
    (hrows : r.harmony.compare = .ok rows) :
    r.harmony.PairsUp rows ∧ rows.length = c.intervals.length := by
  obtain ⟨hlength, htunings⟩ := h.length_eq
  have hpairs := Harmony.pairsUp_of_compare htunings hrows
  have hintervals := congrArg List.length hpairs.interval
  rw [List.length_map, List.length_map] at hintervals
  exact ⟨hpairs, hintervals.trans hlength⟩

/-- `ChordReport.make` of all results reports what was written, chord by chord. -/
theorem forall₂_reports {cs : List Chord} {rs : List ResolvedChord}
    {reports : List Service.ChordReport} (hsound : ∀ r ∈ rs, r.Sound)
    (hchords : List.Forall₂ (fun c r => c.resolve = .ok r ∧ c.Keeps r) cs rs)
    (hreports : List.Forall₂ (fun r report => Service.ChordReport.make r = .ok report) rs reports) :
    List.Forall₂ Service.ChordReport.Reports cs reports := by
  induction hchords generalizing reports with
  | nil =>
    cases hreports
    exact .nil
  | @cons c r cs rs hc _ ih =>
    cases hreports with
    | @cons _ report _ reports hreport hreports =>
      obtain ⟨hr, hrs⟩ := List.forall_mem_cons.1 hsound
      refine .cons ?_ (ih hrs hreports)
      obtain ⟨hresolve, hkeeps⟩ := hc
      obtain ⟨-, hcopies⟩ := (Service.ChordReport.make_eq_ok_iff hr).1 hreport
      obtain ⟨hpairs, hlength⟩ := hkeeps.pairsUp hcopies.comparisons
      exact ⟨r, hresolve, hkeeps, hcopies, hcopies.intervals.trans hkeeps.pure, hpairs, hlength⟩

/-- `Response.ofChords rs` reports all chord lines, and counts them. -/
theorem reports_of_ofChords {text : String} {rs : List ResolvedChord} {response : Service.Response}
    (hrs : resolveText text = .ok rs) (h : Service.Response.ofChords rs = .ok response) :
    ∃ reports, response = .chords (chordLines text).length reports ∧
      List.Forall₂ Service.ChordReport.Reports (chordLines text) reports := by
  have hcases := resolvesTo_resolveText text
  rw [hrs] at hcases
  cases hcases with
  | resolved _ _ hchords =>
    obtain ⟨-, reports, hreports, rfl⟩ := Service.Response.ofChords_eq_ok_iff.1 h
    exact ⟨reports, by rw [hchords.length_eq],
      forall₂_reports (sound_of_resolveText hrs) hchords hreports⟩

/-- **Every chord and every note is kept, and the right failure comes first.** A text is refused for
its first malformed line, otherwise for having no chords, otherwise for the first chord that is not
resolved, whose fundamental comes before its intervals. If `resolveText text = .ok rs`, each chord line
has its result in `rs`, with the written fundamental, duration and intervals in both tunings. Set side
by side, these tones make one row for each interval.

There is a response exactly if all of `rs` are reportable. It counts the chord lines, and it reports
for each of them what was written, the tones of its result and the rows that pair them. -/
theorem resolveText_keeps (text : String) :
    ResolvesTo text (resolveText text) ∧
    (∀ rs, resolveText text = .ok rs → List.Forall₂ (fun c r => c.Keeps r ∧
      ∀ rows, r.harmony.compare = .ok rows →
        r.harmony.PairsUp rows ∧ rows.length = c.intervals.length) (chordLines text) rs) ∧
    ((∃ response, (Service.answerText ⟨text⟩).result = .ok response) ↔
      ∃ rs, resolveText text = .ok rs ∧ ∀ r ∈ rs, r.Reportable) ∧
    ∀ response, (Service.answerText ⟨text⟩).result = .ok response →
      ∃ reports, response = .chords (chordLines text).length reports ∧
        List.Forall₂ Service.ChordReport.Reports (chordLines text) reports := by
  refine ⟨resolvesTo_resolveText text, fun rs hrs => ?_, ?_, fun response hresponse => ?_⟩
  · exact (forall₂_keeps_of_resolveText hrs).imp fun c r hkeeps =>
      ⟨hkeeps, fun rows hrows => hkeeps.pairsUp hrows⟩
  · have hiff (rs : List ResolvedChord) (hrs : resolveText text = .ok rs) :=
      Service.Response.exists_ofChords_iff (Service.ne_nil_of_resolveText hrs)
        (sound_of_resolveText hrs)
    simp only [Service.answerText_eq_ok_iff]
    constructor
    · rintro ⟨response, rs, hrs, h⟩
      exact ⟨rs, hrs, (hiff rs hrs).1 ⟨response, h⟩⟩
    · rintro ⟨rs, hrs, h⟩
      obtain ⟨response, h⟩ := (hiff rs hrs).2 h
      exact ⟨response, rs, hrs, h⟩
  · obtain ⟨rs, hrs, h⟩ := Service.answerText_eq_ok_iff.1 hresponse
    exact reports_of_ofChords hrs h

/-- Two intervals on a frequency and two on a note name are reported as they are written. -/
theorem resolveText_keeps_twoChords :
    ∃ reports,
      (Service.answerText ⟨"440: 3,5\nC5: 8,b7, duration=0.5"⟩).result = .ok (.chords 2 reports) ∧
      reports.map (·.fundamental) = ["440", "C5"] ∧
      reports.map (·.intervals) = [["3", "5"], ["8", "b7"]] ∧
      reports.map (·.comparisons.length) = [2, 2] := by
  have hlines : chordLines "440: 3,5\nC5: 8,b7, duration=0.5" =
      [⟨"440", ["3", "5"], .float 1.0⟩, ⟨"C5", ["8", "b7"], .float 0.5⟩] := rfl
  have hok : (Service.answerText ⟨"440: 3,5\nC5: 8,b7, duration=0.5"⟩).result.isOk = true := by
    decide +kernel
  obtain ⟨response, hresponse⟩ := exists_of_isOk hok
  obtain ⟨-, -, -, hreports⟩ := resolveText_keeps "440: 3,5\nC5: 8,b7, duration=0.5"
  obtain ⟨reports, rfl, hreports⟩ := hreports response hresponse
  rw [hlines] at hreports hresponse
  refine ⟨reports, hresponse, ?_, ?_, ?_⟩
  · refine map_eq_map_of_forall₂ (f := Chord.fundamental) (fun c report h => ?_) hreports
    obtain ⟨r, -, hkeeps, hcopies, -⟩ := h
    exact hcopies.fundamental.trans hkeeps.fundamental
  · refine map_eq_map_of_forall₂ (f := Chord.intervals) (fun c report h => ?_) hreports
    obtain ⟨r, -, -, -, hintervals, -⟩ := h
    exact hintervals
  · refine map_eq_map_of_forall₂ (f := fun c => c.intervals.length) (fun c report h => ?_) hreports
    obtain ⟨r, -, -, -, -, -, hlength⟩ := h
    exact hlength

end Monochord
