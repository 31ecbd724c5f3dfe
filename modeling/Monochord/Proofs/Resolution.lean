import Monochord.Proofs.Range
import Monochord.Proofs.Sequence

/-! # Which chords can be resolved

The frequencies of a chord depend on texts that are looked at one after another: its fundamental and
its intervals. Each of them is accepted, refused with a complaint, or out of range, and the first
one that is not accepted decides what happens to all chords.

* **`Token`** — one such text, with **`Token.Refused`** and **`Token.OutOfRange`**.
* **`Token.probe`** — what happens to a token; **`Token.probe_of_refused`**,
  **`Token.probe_of_outOfRange`**, **`Token.probe_of_accepted`**: in each of the three cases.
* **`outcome_resolveAll`** — chords are resolved as their tokens are probed.
* **`Guarded`** — a token that is out of range comes after one that is refused;
  **`settled_resolveAll_iff`**: then chords are resolved, or complained about.
* **`ResolvedChord.Sound`** — what is known of a chord once it is resolved. -/

namespace Monochord

open Text Binary64

/-! ## Complaints and other failures -/

/-- A computation that does not fail, except with a complaint. -/
def Settled {α : Type} (x : Except Failure α) : Prop := ∀ f, x = .error f → ∃ d, f = .diagnosed d

/-- What a computation does if nobody looks at its result. -/
def outcome {α : Type} (x : Except Failure α) : Except Failure Unit := x.map fun _ => ()

section Outcome

variable {α β : Type}

@[simp] theorem outcome_ok (a : α) : outcome (.ok a : Except Failure α) = .ok () := rfl

@[simp] theorem outcome_error (f : Failure) :
    outcome (.error f : Except Failure α) = .error f := rfl

/-- If `outcome (g a) = y` for every result `a` of `x`, the outcome of `x >>= g` is that of `x`, and
then `y`. -/
theorem outcome_bind {x : Except Failure α} {g : α → Except Failure β} {y : Except Failure Unit}
    (h : ∀ a, x = .ok a → outcome (g a) = y) :
    outcome (x >>= g) = outcome x >>= fun _ => y := by
  cases x with
  | error f => rfl
  | ok a => exact h a rfl

/-- `outcome (x >>= fun a => .ok (g a)) = outcome x`, since the second step cannot fail. -/
theorem outcome_bind_ok {x : Except Failure α} {g : α → β} :
    outcome (x >>= fun a => .ok (g a)) = outcome x := by
  cases x <;> rfl

/-- `Settled (outcome x)` exactly if `Settled x`: the result does not matter. -/
theorem settled_outcome {x : Except Failure α} : Settled (outcome x) ↔ Settled x := by
  cases x with
  | error f =>
    show (∀ e, Except.error f = Except.error e → _) ↔ ∀ e, Except.error f = Except.error e → _
    simp only [Except.error.injEq]
  | ok a => exact ⟨fun _ f hf => absurd hf (by simp), fun _ f hf => absurd hf (by simp)⟩

/-- `outcome (as.mapM g) = as.forM k` if `outcome (g a) = k a` for each item. -/
theorem outcome_mapM {g : α → Except Failure β} {k : α → Except Failure Unit} {as : List α}
    (h : ∀ a ∈ as, outcome (g a) = k a) : outcome (as.mapM g) = as.forM k := by
  induction as with
  | nil => rfl
  | cons a as ih =>
    obtain ⟨ha, has⟩ := List.forall_mem_cons.1 h
    show _ = k a >>= fun _ => as.forM k
    rw [List.mapM_cons, ← ha, ← ih has]
    exact outcome_bind fun b _ => outcome_bind_ok

end Outcome

/-! ## Notes and fundamentals -/

/-- `noteFrequency note` is `referenceFrequency` times `semitonePower` of `noteSemitones note`. -/
theorem noteFrequency_eq (note : String) :
    noteFrequency note = diagnosing (noteSemitones note) >>= fun n =>
      if exceedsDigitLimit note.toList then .error .tooManyDigits
      else semitonePower n >>= fun r => .ok (referenceFrequency * r) := by
  rw [noteFrequency]
  cases noteSemitones note with
  | error d => rfl
  | ok n =>
    rw [diagnosing_ok, ok_bind, ok_bind]
    split
    · rfl
    · show (_ >>= fun x => power x >>= _) = _
      rw [semitonePower, bind_assoc]
      rfl

/-- A number is accepted as a frequency if it is finite and positive. -/
def Accepted (x : Option Float) : Prop := ∃ y, x = some y ∧ y.isFinite = true ∧ 0.0 < y

/-- `acceptFrequency shown x` is a positive double if `Accepted x`. -/
theorem acceptFrequency_of_accepted (shown : String) {x : Option Float} (h : Accepted x) :
    ∃ y, acceptFrequency shown x = .ok y ∧ 0.0 < y := by
  obtain ⟨y, rfl, hfinite, hpos⟩ := h
  refine ⟨y, if_pos ?_, hpos⟩
  simp [hfinite, hpos]

/-- `acceptFrequency shown x` is a complaint if `x` is not accepted. -/
theorem acceptFrequency_of_not_accepted (shown : String) {x : Option Float}
    (h : ¬Accepted x) :
    ∃ d, acceptFrequency shown x = .error (.diagnosed d) := by
  cases x with
  | none => exact ⟨_, rfl⟩
  | some y =>
    refine ⟨_, if_neg fun hy => h ⟨y, rfl, ?_⟩⟩
    simpa using hy

/-- **`fundamentalOfText text` is positive**, unless it is rounded to zero. -/
theorem fundamentalOfText_zero_or_pos {text : String} {f : Float}
    (h : fundamentalOfText text = .ok f) : pattern f = 0 ∨ 0.0 < f := by
  rw [fundamentalOfText] at h
  split at h
  · next x hnote =>
    rw [noteFrequency_eq] at hnote
    obtain ⟨n, -, hnote⟩ := bind_eq_ok_iff.1 hnote
    split at hnote
    · exact absurd hnote (by simp)
    · obtain ⟨r, hr, hnote⟩ := bind_eq_ok_iff.1 hnote
      obtain ⟨hfinite, hnonneg⟩ := semitonePower_nonneg hr
      have hreference : referenceFrequency.isFinite = true ∧
          isNegative referenceFrequency = false := by
        decide
      rw [← Except.ok.inj h, ← Except.ok.inj hnote]
      exact (rounds_mul hreference.1 hfinite).zero_or_pos
        (mul_nonneg (toRat_nonneg hreference.2) hnonneg)
  · by_cases haccepted : Accepted (leadingNumber? text)
    · obtain ⟨y, hy, hpos⟩ := acceptFrequency_of_accepted text haccepted
      rw [hy] at h
      rw [← Except.ok.inj h]
      exact .inr hpos
    · obtain ⟨d, hd⟩ := acceptFrequency_of_not_accepted text haccepted
      rw [hd] at h
      exact absurd h (by simp)
  · exact absurd h (by simp)

/-! ## Tokens -/

/-- A text on which the frequencies of a chord depend. -/
inductive Token
  /-- The fundamental of the chord. -/
  | fundamental (text : String)
  /-- One of its intervals. -/
  | interval (text : String)

/-- The tokens of a chord, in the order in which they are looked at. -/
def Chord.tokens (c : Chord) : List Token :=
  .fundamental c.fundamental :: c.intervals.map .interval

namespace Token

/-- A token that is complained about: a fundamental that names no note and has no positive finite
number at its start, and an interval that does not exist. -/
def Refused : Token → Prop
  | fundamental text => (∃ d, noteSemitones text = .error d) ∧ ¬Accepted (leadingNumber? text)
  | interval text => ∃ d, Interval.read text = .error (.diagnosed d)

/-- A token without a frequency that is not complained about: a note whose octave has too many
digits, lies 1024 octaves above the reference pitch or more, or so far below it that not even the
exponent is a double; an interval of too many digits, or of 1024 octaves or more. -/
def OutOfRange : Token → Prop
  | fundamental text => ∃ n, noteSemitones text = .ok n ∧
      (exceedsDigitLimit text.toList = true ∨ 12288 ≤ n ∨ (n : ℚ) / 12 ≤ -overflowBound)
  | interval text => Interval.read text = .error .tooManyDigits ∨
      ∃ i, Interval.read text = .ok i ∧ 1024 ≤ i.octaves

/-- What happens to a token. -/
def probe : Token → Except Failure Unit
  | fundamental text => outcome (fundamentalOfText text)
  | interval text => do outcome (← Interval.read text).frequencyRatio

/-- `i.Reduced` if `Interval.read text = .ok i`. -/
theorem reduced_of_read {text : String} {i : Interval} (h : Interval.read text = .ok i) :
    i.Reduced := by
  unfold Interval.read at h
  split at h
  · exact absurd h (by simp)
  · exact Interval.reduced_of_ofSymbol (diagnosing_eq_ok_iff.1 h)

/-- `t.probe` is a complaint if `t.Refused`. -/
theorem probe_of_refused {t : Token} (h : t.Refused) : ∃ d, t.probe = .error (.diagnosed d) := by
  cases t with
  | fundamental text =>
    obtain ⟨⟨d, hd⟩, hnumber⟩ := h
    obtain ⟨e, he⟩ := acceptFrequency_of_not_accepted text hnumber
    refine ⟨e, ?_⟩
    rw [probe, fundamentalOfText, noteFrequency_eq, hd]
    show outcome (acceptFrequency text (leadingNumber? text)) = _
    rw [he, outcome_error]
  | interval text =>
    obtain ⟨d, hd⟩ := h
    refine ⟨d, ?_⟩
    rw [probe, hd]
    rfl

/-- `t.probe` is a failure other than a complaint if `t.OutOfRange`. -/
theorem probe_of_outOfRange {t : Token} (h : t.OutOfRange) :
    ∃ f, t.probe = .error f ∧ ∀ d, f ≠ .diagnosed d := by
  cases t with
  | fundamental text =>
    obtain ⟨n, hn, hrange⟩ := h
    have hnote : ∃ f, noteFrequency text = .error f ∧ ∀ d, f ≠ .diagnosed d := by
      rw [noteFrequency_eq, hn, diagnosing_ok, ok_bind]
      split
      · exact ⟨_, rfl, by simp⟩
      · next hdigits =>
        rw [semitonePower_eq_error (hrange.resolve_left hdigits)]
        exact ⟨_, rfl, by simp⟩
    obtain ⟨f, hf, hne⟩ := hnote
    refine ⟨f, ?_, hne⟩
    rw [probe, fundamentalOfText, hf]
    cases f with
    | diagnosed d => exact absurd rfl (hne d)
    | _ => rfl
  | interval text =>
    rcases h with h | ⟨i, hi, hoctaves⟩
    · refine ⟨.tooManyDigits, ?_, by simp⟩
      rw [probe, h]
      rfl
    · refine ⟨.overflow, ?_, by simp⟩
      rw [probe, hi, ok_bind, (reduced_of_read hi).frequencyRatio_eq_error hoctaves, outcome_error]

/-- `t.probe = .ok ()` if `t` is neither refused nor out of range. -/
theorem probe_of_accepted {t : Token} (hrefused : ¬t.Refused) (hrange : ¬t.OutOfRange) :
    t.probe = .ok () := by
  cases t with
  | fundamental text =>
    have hfrequency : ∃ f, fundamentalOfText text = .ok f := by
      rw [fundamentalOfText, noteFrequency_eq]
      cases hn : noteSemitones text with
      | error d =>
        -- no note name, so the number at the start of the text decides
        have haccepted : Accepted (leadingNumber? text) := by
          by_contra hnot
          exact hrefused ⟨⟨d, hn⟩, hnot⟩
        obtain ⟨f, hf, -⟩ := acceptFrequency_of_accepted text haccepted
        exact ⟨f, hf⟩
      | ok n =>
        have hnot := fun h => hrange ⟨n, hn, h⟩
        obtain ⟨y, hy⟩ := exists_semitonePower (n := n)
          (not_le.1 fun h => hnot (.inr (.inr h))) (not_le.1 fun h => hnot (.inr (.inl h)))
        rw [diagnosing_ok, ok_bind, if_neg fun h => hnot (.inl h), hy]
        exact ⟨_, rfl⟩
    obtain ⟨f, hf⟩ := hfrequency
    rw [probe, hf, outcome_ok]
  | interval text =>
    rw [probe]
    cases hread : Interval.read text with
    | error f =>
      rcases Interval.read_eq_error hread with rfl | ⟨d, rfl, -⟩
      · exact absurd (.inl hread) hrange
      · exact absurd ⟨d, hread⟩ hrefused
    | ok i =>
      have hoctaves : i.octaves < 1024 := by
        by_contra hle
        exact hrange (.inr ⟨i, hread, not_lt.1 hle⟩)
      obtain ⟨r, t, hr, -⟩ := (reduced_of_read hread).exists_ratios hoctaves
      rw [ok_bind, hr, outcome_ok]

end Token

/-! ## The first token that is not accepted -/

/-- A token that is out of range comes after one that is refused, if there is one at all. -/
def Guarded : List Token → Prop
  | [] => True
  | t :: ts => t.Refused ∨ ¬t.OutOfRange ∧ Guarded ts

/-- `Settled (ts.forM Token.probe)` exactly if `Guarded ts`. -/
theorem settled_forM_probe_iff {ts : List Token} : Settled (ts.forM Token.probe) ↔ Guarded ts := by
  induction ts with
  | nil => exact ⟨fun _ => trivial, fun _ f hf => absurd hf (by simp [List.forM])⟩
  | cons t ts ih =>
    show Settled (t.probe >>= fun _ => ts.forM Token.probe) ↔ _
    by_cases hrefused : t.Refused
    · obtain ⟨d, hd⟩ := Token.probe_of_refused hrefused
      refine iff_of_true (fun f hf => ⟨d, ?_⟩) (.inl hrefused)
      rw [hd] at hf
      exact (Except.error.inj hf).symm
    · by_cases hrange : t.OutOfRange
      · obtain ⟨f, hf, hne⟩ := Token.probe_of_outOfRange hrange
        refine iff_of_false (fun h => ?_) (fun h => ?_)
        · obtain ⟨d, rfl⟩ := h f (by rw [hf]; rfl)
          exact hne d rfl
        · exact h.elim hrefused fun h => h.1 hrange
      · rw [Token.probe_of_accepted hrefused hrange, ok_bind, ih]
        exact ⟨fun h => .inr ⟨hrange, h⟩, fun h => (h.resolve_left hrefused).2⟩

/-! ## Resolving -/

/-- `tuneInterval f text` multiplies `f` by the two ratios of the interval that is read. -/
theorem tuneInterval_eq (f : Float) (text : String) :
    tuneInterval f text = Interval.read text >>= fun i => i.frequencyRatio >>= fun r =>
      i.temperedRatio >>= fun t => .ok (⟨text, f * r, r⟩, ⟨text, f * t⟩) := by
  rw [tuneInterval, temperedFrequency]
  cases hread : Interval.read text with
  | error e => rfl
  | ok i =>
    simp only [ok_bind]
    cases i.frequencyRatio with
    | error e => rfl
    | ok r =>
      cases i.temperedRatio with
      | error e => rfl
      | ok t => rfl

/-- The outcome of `tuneInterval f text` is that of a probe, whatever `f` is. -/
theorem outcome_tuneInterval (f : Float) (text : String) :
    outcome (tuneInterval f text) = (Token.interval text).probe := by
  rw [tuneInterval_eq, Token.probe]
  cases hread : Interval.read text with
  | error e => rfl
  | ok i =>
    rw [ok_bind, ok_bind]
    by_cases hoctaves : i.octaves < 1024
    · obtain ⟨r, t, hr, ht, -⟩ := (Token.reduced_of_read hread).exists_ratios hoctaves
      rw [hr, ok_bind, ht]
      rfl
    · rw [(Token.reduced_of_read hread).frequencyRatio_eq_error (not_lt.1 hoctaves)]
      rfl

/-- `c.resolve` is `fundamentalOfText` first, and then `tuneInterval` for its intervals. -/
theorem resolve_eq (c : Chord) :
    c.resolve = fundamentalOfText c.fundamental >>= fun f =>
      c.intervals.mapM (tuneInterval f) >>= fun tones =>
        .ok ⟨c.fundamental, c.duration, ⟨f, tones.map (·.1), tones.map (·.2)⟩⟩ := by
  rw [Chord.resolve, tune, fundamentalFrequency]
  cases fundamentalOfText c.fundamental with
  | error e => rfl
  | ok f =>
    rw [ok_bind, ok_bind]
    cases c.intervals.mapM (tuneInterval f) <;> rfl

/-- **`outcome c.resolve = c.tokens.forM Token.probe`.** -/
theorem outcome_resolve (c : Chord) : outcome c.resolve = c.tokens.forM Token.probe := by
  show _ = outcome (fundamentalOfText c.fundamental) >>= fun _ =>
    (c.intervals.map Token.interval).forM Token.probe
  rw [resolve_eq]
  refine outcome_bind fun f _ => ?_
  rw [outcome_bind_ok, outcome_mapM fun text _ => outcome_tuneInterval f text]
  exact List.forM_map.symm

/-- **`outcome (resolveAll cs)` is `Token.probe`** of all tokens, one after another. -/
theorem outcome_resolveAll (cs : List Chord) :
    outcome (resolveAll cs) = (cs.flatMap Chord.tokens).forM Token.probe := by
  rw [resolveAll, outcome_mapM fun c _ => outcome_resolve c]
  induction cs with
  | nil => rfl
  | cons c cs ih =>
    have hrest : forM (cs.flatMap Chord.tokens) Token.probe =
        cs.forM fun c => c.tokens.forM Token.probe := ih.symm
    show _ = forM (c.tokens ++ cs.flatMap Chord.tokens) Token.probe
    rw [List.forM_append, hrest]
    rfl

/-- **`Settled (resolveAll cs)` exactly if the tokens of `cs` are guarded.** -/
theorem settled_resolveAll_iff {cs : List Chord} :
    Settled (resolveAll cs) ↔ Guarded (cs.flatMap Chord.tokens) := by
  rw [← settled_outcome, outcome_resolveAll, settled_forM_probe_iff]

/-! ## Resolved chords -/

/-- The two tones of an interval: ratios in the same octave above a fundamental. -/
def TonesAbove (f : Float) (p : PureTone × TemperedTone) : Prop :=
  ∃ w t, Between p.1.ratio w ∧ Between t w ∧ p.1.frequency = f * p.1.ratio ∧ p.2.frequency = f * t

/-- `TonesAbove f p` for the tones `p` of `tuneInterval f text`. -/
theorem tonesAbove_of_tuneInterval {f : Float} {text : String} {p : PureTone × TemperedTone}
    (h : tuneInterval f text = .ok p) : TonesAbove f p := by
  rw [tuneInterval_eq] at h
  obtain ⟨i, hi, h⟩ := bind_eq_ok_iff.1 h
  obtain ⟨r, hr, h⟩ := bind_eq_ok_iff.1 h
  obtain ⟨t, ht, h⟩ := bind_eq_ok_iff.1 h
  obtain rfl := Except.ok.inj h
  have hreduced := Token.reduced_of_read hi
  have hoctaves : i.octaves < 1024 := by
    by_contra hle
    rw [hreduced.frequencyRatio_eq_error (not_lt.1 hle)] at hr
    exact absurd hr (by simp)
  obtain ⟨r', t', hr', ht', hbetween, hbetween'⟩ := hreduced.exists_ratios hoctaves
  obtain rfl := Except.ok.inj (hr.symm.trans hr')
  obtain rfl := Except.ok.inj (ht.symm.trans ht')
  exact ⟨i.whole, t, hbetween, hbetween', rfl, rfl⟩

/-- A chord with intervals and a duration that is a double, as texts have them. -/
structure Chord.Written (c : Chord) : Prop where
  /-- There is an interval. -/
  intervals : c.intervals ≠ []
  /-- The duration is a double. -/
  duration : ∃ d, c.duration = .float d

/-- `c.Written` if `readChord line = .ok c`. -/
theorem written_of_readChord {line : List Char} {c : Chord} (h : readChord line = .ok c) :
    c.Written := by
  obtain ⟨_, _, _, duration, -, -, hne, rfl⟩ := exists_of_readChord h
  exact ⟨hne, duration, rfl⟩

/-- All chords of `readLines n ls` satisfy `Chord.Written`. -/
theorem written_of_readLines {n : ℤ} {ls : List (List Char)} {cs : List Chord}
    (h : readLines n ls = .ok cs) : ∀ c ∈ cs, c.Written := by
  obtain ⟨-, rfl⟩ := readLines_eq_ok_iff.1 h
  intro c hc
  obtain ⟨line, -, hline⟩ := List.mem_filterMap.1 hc
  exact written_of_readChord (readChord_of_readLineChars (chordIn?_eq_some_iff.1 hline))

/-- All chords of `readSequence text` satisfy `Chord.Written`. -/
theorem written_of_readSequence {text : String} {cs : List Chord}
    (h : readSequence text = .ok cs) : ∀ c ∈ cs, c.Written := by
  obtain ⟨lines, hlines, h⟩ := bind_eq_ok_iff.1 h
  split at h
  · exact absurd h (by simp [complain])
  · obtain rfl := Except.ok.inj h
    exact written_of_readLines hlines

/-- What is known of a chord once it is resolved: its fundamental is zero or positive, its duration
is a double, and it has tones, each with ratios in one octave. -/
structure ResolvedChord.Sound (c : ResolvedChord) : Prop where
  /-- The fundamental is not negative. -/
  fundamental : pattern c.harmony.fundamental = 0 ∨ 0.0 < c.harmony.fundamental
  /-- The duration is a double. -/
  duration : ∃ d, c.duration = .float d
  /-- The tones in both tunings belong together. -/
  tones : ∃ ps, ps ≠ [] ∧ c.harmony.pure = ps.map (·.1) ∧ c.harmony.tempered = ps.map (·.2) ∧
    ∀ p ∈ ps, TonesAbove c.harmony.fundamental p

/-- `r.Sound` if `c.Written` and `c.resolve = .ok r`. -/
theorem sound_of_resolve {c : Chord} {r : ResolvedChord} (hc : c.Written)
    (h : c.resolve = .ok r) : r.Sound := by
  rw [resolve_eq] at h
  obtain ⟨f, hf, h⟩ := bind_eq_ok_iff.1 h
  obtain ⟨ps, hps, h⟩ := bind_eq_ok_iff.1 h
  obtain rfl := Except.ok.inj h
  refine ⟨fundamentalOfText_zero_or_pos hf, hc.duration, ps, ?_, rfl, rfl, fun p hp => ?_⟩
  · rintro rfl
    exact hc.intervals (List.forall₂_nil_right_iff.1 (mapM_eq_ok_iff.1 hps))
  · obtain ⟨text, -, htext⟩ := exists_of_mem_mapM hps hp
    exact tonesAbove_of_tuneInterval htext

/-- **All chords of `resolveText text` are `Sound`.** -/
theorem sound_of_resolveText {text : String} {rs : List ResolvedChord}
    (h : resolveText text = .ok rs) : ∀ r ∈ rs, r.Sound := by
  obtain ⟨cs, hcs, h⟩ := bind_eq_ok_iff.1 h
  intro r hr
  obtain ⟨c, hc, hresolve⟩ := exists_of_mem_mapM h hr
  exact sound_of_resolve (written_of_readSequence (diagnosing_eq_ok_iff.1 hcs) c hc) hresolve

/-- The chord of an octave above a fundamental at the reference pitch. -/
def octaveChord (fundamental : String) : ResolvedChord :=
  ⟨fundamental, .float 1.0, ⟨440.0, [⟨"8", 880.0, 2.0⟩], [⟨"8", 880.0⟩]⟩⟩

/-- `octaveChord text` is what the chord of the interval `8` is resolved to, if the fundamental is
`440.0`. -/
theorem resolve_octave {text : String} (h : fundamentalOfText text = .ok 440.0) :
    (Chord.mk text ["8"] (.float 1.0)).resolve = .ok (octaveChord text) := by
  have hinterval : Interval.read "8" = .ok ⟨.octave, 0⟩ := by decide
  have hratio : (Interval.mk .octave 0).frequencyRatio = .ok 2.0 := by decide +kernel
  have htempered : (Interval.mk .octave 0).temperedRatio = .ok 2.0 := by decide +kernel
  have hproduct : (440.0 : Float) * 2.0 = 880.0 := by decide
  rw [resolve_eq, h, ok_bind, List.mapM_cons, List.mapM_nil, tuneInterval_eq, hinterval, ok_bind,
    hratio, ok_bind, htempered, ok_bind, hproduct]
  rfl

/-- `resolveText "440: 8"` is this chord. -/
theorem resolveText_octave : resolveText "440: 8" =
    .ok [⟨"440", .float 1.0, ⟨440.0, [⟨"8", 880.0, 2.0⟩], [⟨"8", 880.0⟩]⟩⟩] := by
  have hread : readSequence "440: 8" = .ok [⟨"440", ["8"], .float 1.0⟩] := rfl
  have hfundamental : fundamentalOfText "440" = .ok 440.0 := by decide
  rw [resolveText, hread, diagnosing_ok, ok_bind, resolveAll, List.mapM_cons, List.mapM_nil,
    resolve_octave hfundamental]
  rfl

/-- `Settled (resolveText text)` exactly if the tokens of the chords of `text` are guarded. -/
theorem settled_resolveText_iff {text : String} :
    Settled (resolveText text) ↔
      ∀ cs, readSequence text = .ok cs → Guarded (cs.flatMap Chord.tokens) := by
  rw [resolveText]
  cases readSequence text with
  | error d =>
    refine iff_of_true (fun f hf => ⟨d, (Except.error.inj hf).symm⟩) fun cs h => ?_
    exact absurd h (by simp)
  | ok cs =>
    rw [diagnosing_ok, ok_bind, settled_resolveAll_iff]
    exact ⟨fun h _ hcs => Except.ok.inj hcs ▸ h, fun h => h cs rfl⟩

end Monochord
