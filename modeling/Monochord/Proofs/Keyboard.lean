import Monochord.Proofs.Duration
import Monochord.Proofs.Sequence
import Monochord.Service.Answer

/-! # Lines from the keyboard

A keyboard selection is written as a line of chord text, and chord text is read line by line. What
the one side writes, the other side reads.

* **`KeyboardChord`**, **`Selection.chord_eq_ok`** — what is known of a chord that a selection
  stands for.
* **`Selection.toList_chordLine`** — its line has the usual layout.
* **`Selection.readLine_of_line`** — the line is read as the chord, and how its duration is written.
* **`KeyboardChord.readLines_eq`**, **`KeyboardChord.readLines_eq_error`** — the line among the
  lines of a text.
* **`Selection.readSequence_appendTo_iff`** — the chord is added to a text exactly if its
  fundamental holds no line feed. -/

namespace Monochord

open Text

/-! ## Chords of a selection -/

/-- What is known of a chord that a keyboard selection stands for: its fundamental is a note name,
or one with a line feed at its end, its intervals are spelt, and its duration is written in digits
that stand for a double. -/
structure KeyboardChord (c : Chord) (x : Float) (whole fraction : List Char) : Prop where
  /-- The fundamental is a note name. -/
  name : ∃ name, (c.fundamental.toList = name ∨ c.fundamental.toList = name ++ ['\n']) ∧
    NameText name
  /-- There are intervals. -/
  intervals_ne_nil : c.intervals ≠ []
  /-- The intervals are parts of a line. -/
  parts : ∀ p ∈ c.intervals, PartText p.toList
  /-- The duration is written in digits. -/
  duration : DurationText c.duration x whole fraction

/-- If `intervals f notes = .ok symbols`, there is a symbol for each key, and each of them is a part
of a line. -/
theorem Selection.intervals_eq_ok {f : String} {notes symbols : List String}
    (h : intervals f notes = .ok symbols) :
    (∃ base, noteFrequency f = .ok base) ∧ symbols.length = notes.length ∧
      ∀ p ∈ symbols, PartText p.toList := by
  obtain ⟨base, hbase, h⟩ := bind_eq_ok_iff.1 h
  obtain ⟨frequencies, hfrequencies, h⟩ := bind_eq_ok_iff.1 h
  have hspelt := mapM_eq_ok_iff.1 h
  refine ⟨⟨base, hbase⟩, ?_, ?_⟩
  · rw [← hspelt.length_eq, List.length_mergeSort, (mapM_eq_ok_iff.1 hfrequencies).length_eq]
  · intro p hp
    obtain ⟨x, -, hx⟩ := exists_of_mem_mapM h hp
    obtain ⟨n, -, hn⟩ := bind_eq_ok_iff.1 hx
    exact partText_of_spell hn

/-- `s.chord d` spells the keys first, and checks the duration afterwards. -/
theorem Selection.chord_of_fundamental {s : Selection} {f : String} (hf : s.fundamental = some f)
    (hnotes : s.notes ≠ []) (d : Value) : s.chord d = intervals f s.notes >>= fun symbols =>
      Record.check ⟨.text f, .list (symbols.map .text), d⟩ >>= fun b =>
        .ok ⟨f, symbols, b.quantity⟩ := by
  have hempty : s.notes.isEmpty = false := List.isEmpty_eq_false_iff.2 hnotes
  rw [chord, hf]
  dsimp only
  rw [hempty]
  rfl

/-- **If `s.chord d = .ok c`**, then `c` has the fundamental that was pressed and the duration that
was given, and it is a `KeyboardChord`. -/
theorem Selection.chord_eq_ok {s : Selection} {d : Value} {c : Chord} (h : s.chord d = .ok c) :
    s.fundamental = some c.fundamental ∧ d = .quantity c.duration ∧
      ∃ x whole fraction, KeyboardChord c x whole fraction := by
  cases hf : s.fundamental with
  | none =>
    rw [chord, hf] at h
    exact absurd h (by simp [complain])
  | some f =>
    by_cases hnotes : s.notes = []
    · rw [chord, hf, hnotes] at h
      exact absurd h (by simp [complain])
    · rw [chord_of_fundamental hf hnotes] at h
      obtain ⟨symbols, hsymbols, h⟩ := bind_eq_ok_iff.1 h
      obtain ⟨b, hb, h⟩ := bind_eq_ok_iff.1 h
      obtain rfl := Except.ok.inj h
      obtain ⟨⟨base, hbase⟩, hlength, hparts⟩ := intervals_eq_ok hsymbols
      obtain ⟨n, hn⟩ := read?_of_noteFrequency hbase
      obtain ⟨rfl, x, whole, fraction, htext⟩ :=
        durationText_of_check (Record.checkDuration_of_check hb)
      refine ⟨rfl, rfl, x, whole, fraction, nameText_of_read? hn, ?_, hparts, htext⟩
      -- a key was selected, so that an interval was spelt
      rintro (rfl : symbols = [])
      rw [List.length_nil, eq_comm, List.length_eq_zero_iff] at hlength
      exact hnotes hlength

/-! ## Its line -/

/-- `Selection.durationText q` is a value that an assignment can hold. -/
theorem DurationText.valueText {q : Quantity} {x : Float} {whole fraction : List Char}
    (h : DurationText q x whole fraction) : ValueText (Selection.durationText q).toList x := by
  have hpoint : isValueChar '.' = true := by decide
  have hdigit : ∀ c, c.isDigit = true → isValueChar c = true := by
    intro c hc
    rw [isValueChar, Bool.or_eq_true]
    exact .inl hc
  -- digits and at most one point, all of which an assignment may have
  refine ⟨?_, ?_, ?_, h.accepted.1, h.accepted.2⟩
  · rw [h.text, pointed]
    split
    · exact h.whole_ne_nil
    · exact List.append_ne_nil_of_left_ne_nil h.whole_ne_nil _
  · intro c hc
    rw [h.text, pointed] at hc
    split at hc
    · exact hdigit c (h.isDigits_whole c hc)
    · rcases List.mem_append.1 hc with hc | hc
      · exact hdigit c (h.isDigits_whole c hc)
      · rcases List.mem_cons.1 hc with rfl | hc
        · exact hpoint
        · exact hdigit c (h.isDigits_fraction c hc)
  · rw [String.ofList_toList]
    exact h.reads

/-- **`chordLine c` has the layout of `chordText`.** -/
theorem Selection.toList_chordLine (c : Chord) :
    (chordLine c).toList = chordText c.fundamental.toList (c.intervals.map String.toList)
      (durationText c.duration).toList := by
  have hcolon : (": " : String).toList = [':', ' '] := by decide
  have hcomma : ("," : String).toList = [','] := by decide
  have hkeyword : (", duration=" : String).toList = ',' :: ' ' :: (durationKeyword ++ ['=']) := by
    decide
  rw [chordLine, String.toList_append, String.toList_append, String.toList_append,
    String.toList_append, String.toList_intercalate, hcolon, hcomma, hkeyword, chordText,
    assignment]
  simp only [List.append_assoc, List.cons_append, List.nil_append]

/-- `c.fundamental` starts with a letter of the scale and has no `':'`. -/
theorem KeyboardChord.exists_fundamental_eq {c : Chord} {x : Float} {whole fraction : List Char}
    (h : KeyboardChord c x whole fraction) :
    ∃ a rest, c.fundamental.toList = a :: rest ∧ (Letter.ofChar? a).isSome = true ∧
      ':' ∉ a :: rest := by
  obtain ⟨name, hname, htext⟩ := h.name
  obtain ⟨a, rest, rfl, ha⟩ := htext.letter
  rcases hname with hname | hname
  · exact ⟨a, rest, hname, ha, htext.colon⟩
  · refine ⟨a, rest ++ ['\n'], hname, ha, ?_⟩
    rw [← List.cons_append, List.mem_append, not_or]
    exact ⟨htext.colon, by decide⟩

/-- `readLineChars` of the line of a chord is the chord, with `trimmed c.fundamental`. -/
theorem KeyboardChord.readLineChars_eq {c : Chord} {x : Float} {whole fraction : List Char}
    (h : KeyboardChord c x whole fraction) :
    readLineChars (Selection.chordLine c).toList =
      .ok (some ⟨trimmed c.fundamental, c.intervals, .float x⟩) := by
  obtain ⟨a, rest, hf, ha, hcolon⟩ := h.exists_fundamental_eq
  have hparts : ∀ p ∈ c.intervals.map String.toList, PartText p := by
    intro p hp
    obtain ⟨q, hq, rfl⟩ := List.mem_map.1 hp
    exact h.parts q hq
  have hne : c.intervals.map String.toList ≠ [] := by
    rw [ne_eq, List.map_eq_nil_iff]
    exact h.intervals_ne_nil
  have hback : (c.intervals.map String.toList).map String.ofList = c.intervals := by
    have hid : String.ofList ∘ String.toList = id := funext fun p => String.ofList_toList
    rw [List.map_map, hid, List.map_id]
  rw [Selection.toList_chordLine, hf,
    readLineChars_chordText ha hcolon hne hparts h.duration.valueText, hback, trimmed, hf]

/-- **The line of a selection is read as its chord.** Whenever `s.line d = .ok l`, `readLine l` has
the intervals of the chord in order, the fundamental without the blanks around it, and the duration
as a double `x`, which is the duration itself if that is a double. The duration stands in `l` as
digits, with a fraction that ends in no zero and without an exponent, and they denote the same
number as its usual text. -/
theorem Selection.readLine_of_line {s : Selection} {d : Value} {l : String} (h : s.line d = .ok l) :
    ∃ (c : Chord) (x : Float) (n : Number) (whole fraction : List Char) (r : ℚ),
      s.chord d = .ok c ∧ s.fundamental = some c.fundamental ∧ d = .quantity c.duration ∧
      readLine l = .ok (some ⟨trimmed c.fundamental, c.intervals, .float x⟩) ∧
      c.duration.number = .ok n ∧ n.toFloat = .ok x ∧ (∀ y, d = .quantity (.float y) → x = y) ∧
      l = c.fundamental ++ ": " ++ ",".intercalate c.intervals ++ ", duration=" ++
        durationText c.duration ∧
      (durationText c.duration).toList = pointed whole fraction ∧
      IsDigits whole ∧ whole ≠ [] ∧ IsDigits fraction ∧ fraction.getLast? ≠ some '0' ∧
      textValue? (durationText c.duration) = some r ∧ textValue? c.duration.text = some r := by
  obtain ⟨c, hc, h⟩ := bind_eq_ok_iff.1 h
  obtain ⟨hf, hd, x, whole, fraction, hchord⟩ := chord_eq_ok hc
  obtain rfl := Except.ok.inj h
  obtain ⟨n, hn, hx⟩ := hchord.duration.number
  obtain ⟨r, hr, hsame⟩ := hchord.duration.same
  refine ⟨c, x, n, whole, fraction, r, hc, hf, hd, hchord.readLineChars_eq, hn, hx, ?_, rfl,
    hchord.duration.text, hchord.duration.isDigits_whole, hchord.duration.whole_ne_nil,
    hchord.duration.isDigits_fraction, hchord.duration.fraction_getLast, hr, hsame⟩
  intro y hy
  rw [hd, Value.quantity.injEq] at hy
  rw [hy] at hn
  obtain rfl := Except.ok.inj hn
  exact (Except.ok.inj hx).symm

/-- A unison whose duration is small enough to have an exponent in its usual text. -/
theorem Selection.readLine_of_line_unison :
    ∃ l, (⟨some "A5", ["A5"]⟩ : Selection).line (.quantity (.float 2.5e-7)) = .ok l ∧
      ∃ (c : Chord) (x : Float) (n : Number) (whole fraction : List Char) (r : ℚ),
        (⟨some "A5", ["A5"]⟩ : Selection).chord (.quantity (.float 2.5e-7)) = .ok c ∧
        some "A5" = some c.fundamental ∧ .quantity (.float 2.5e-7) = Value.quantity c.duration ∧
        readLine l = .ok (some ⟨trimmed c.fundamental, c.intervals, .float x⟩) ∧
        c.duration.number = .ok n ∧ n.toFloat = .ok x ∧
        (∀ y, Value.quantity (.float 2.5e-7) = .quantity (.float y) → x = y) ∧
        l = c.fundamental ++ ": " ++ ",".intercalate c.intervals ++ ", duration=" ++
          durationText c.duration ∧
        (durationText c.duration).toList = pointed whole fraction ∧
        IsDigits whole ∧ whole ≠ [] ∧ IsDigits fraction ∧ fraction.getLast? ≠ some '0' ∧
        textValue? (durationText c.duration) = some r ∧ textValue? c.duration.text = some r := by
  have h : (⟨some "A5", ["A5"]⟩ : Selection).line (.quantity (.float 2.5e-7)) =
      .ok "A5: 1, duration=0.00000025" := by
    decide +kernel
  exact ⟨_, h, readLine_of_line h⟩

/-! ## A text with the line at its end -/

/-- `'\n'` is in `chordLine c` only if it is in `c.fundamental`. -/
theorem KeyboardChord.lineFeed_not_mem {c : Chord} {x : Float} {whole fraction : List Char}
    (h : KeyboardChord c x whole fraction) (hf : '\n' ∉ c.fundamental.toList) :
    '\n' ∉ (Selection.chordLine c).toList := by
  have hparts : '\n' ∉ [','].intercalate (c.intervals.map String.toList) := by
    refine not_mem_intercalate (by decide) fun p hp => ?_
    obtain ⟨q, hq, rfl⟩ := List.mem_map.1 hp
    exact (h.parts q hq).lineFeed
  have hvalue : '\n' ∉ (Selection.durationText c.duration).toList := by
    intro hmem
    exact (isValueChar_plain (h.duration.valueText.chars _ hmem)).2.2 rfl
  have hkeyword : '\n' ∉ durationKeyword := by decide
  rw [Selection.toList_chordLine, chordText, assignment]
  simp [hf, hparts, hvalue, hkeyword]

/-- `readLines` of a `chordLine c` without `'\n'` is the chord alone. -/
theorem KeyboardChord.readLines_eq {c : Chord} {x : Float} {whole fraction : List Char}
    (h : KeyboardChord c x whole fraction) (hf : '\n' ∉ c.fundamental.toList) (n : Int) :
    readLines n (splitOn '\n' (Selection.chordLine c).toList) =
      .ok [{ c with duration := .float x }] := by
  -- a note name without a line feed has no blanks around it, and trimming changes nothing
  have htrim : trim c.fundamental.toList = c.fundamental.toList := by
    obtain ⟨name, hname | hname, htext⟩ := h.name
    · rw [hname]
      exact htext.trim
    · rw [hname] at hf
      exact absurd (List.mem_append_right name List.mem_cons_self) hf
  rw [splitOn_of_not_mem (h.lineFeed_not_mem hf), readLines, h.readLineChars_eq, trimmed, htrim,
    String.ofList_toList]
  rfl

/-- A `chordLine c` with `'\n'` is two lines, of which the first is refused with
`.lineWithoutColon`. -/
theorem KeyboardChord.readLines_eq_error {c : Chord} {x : Float} {whole fraction : List Char}
    (h : KeyboardChord c x whole fraction) (hf : '\n' ∈ c.fundamental.toList) (n : Int) :
    readLines n (splitOn '\n' (Selection.chordLine c).toList) =
      .error (Cause.lineWithoutColon.diagnostic.atLine n) := by
  obtain ⟨name, hname | hname, htext⟩ := h.name
  · rw [hname] at hf
    exact absurd hf htext.lineFeed
  -- the first line is the bare note name, whose colon has moved to the second one
  obtain ⟨a, rest, rfl, ha⟩ := htext.letter
  rw [Selection.toList_chordLine, chordText, hname, List.append_assoc, List.singleton_append,
    splitOn_append_cons, splitOn_of_not_mem htext.lineFeed, List.singleton_append, readLines,
    readLineChars_without_colon ha htext.colon]
  rfl

/-- `readLines` of a text to which the line `l` has been appended is `cs` and then `readLines` of
`l`. -/
theorem Selection.readLines_append_line {text l : String} {cs : List Chord}
    (h : readSequence text = .ok cs ∨
      cs = [] ∧ ∃ e, readSequence text = .error e ∧ e.family = .empty) :
    ∃ n, readLines 1 (splitOn '\n' (if text.isEmpty then l else text ++ "\n" ++ l).toList) =
      (readLines n (splitOn '\n' l.toList)).map (cs ++ ·) := by
  have hread := readLines_of_readSequence h
  -- an empty text has no line in front of the new one, and any other text is ended by a line feed
  by_cases hempty : text.isEmpty = true
  · have htext : text = "" := String.isEmpty_iff.1 hempty
    subst htext
    obtain rfl : [] = cs := Except.ok.inj hread
    rw [if_pos hempty]
    refine ⟨1, ?_⟩
    cases readLines 1 (splitOn '\n' l.toList) with
    | error d => rfl
    | ok ds => rfl
  · have hfeed : ("\n" : String).toList = ['\n'] := by decide
    rw [if_neg hempty, String.toList_append, String.toList_append, hfeed, List.append_assoc,
      List.singleton_append, splitOn_append_cons, readLines_append, hread, ok_bind]
    exact ⟨_, rfl⟩

/-- A text holds the given chords and after them the chord of a selection, with its duration as a
double, exactly if no line feed stands in the fundamental; otherwise the text is refused. -/
def Selection.AddsChord (s : Selection) (d : Value) (cs : List Chord) (t : String) : Prop :=
  ∃ (c : Chord) (n : Number) (x : Float),
    s.chord d = .ok c ∧ s.fundamental = some c.fundamental ∧
    c.duration.number = .ok n ∧ n.toFloat = .ok x ∧
    (readSequence t = .ok (cs ++ [{ c with duration := .float x }]) ↔
      '\n' ∉ c.fundamental.toList) ∧
    ('\n' ∈ c.fundamental.toList →
      ∃ e, readSequence t = .error e ∧ e.kind = .missingColon)

/-- If `s.appendTo text d = .ok t`, then `s.AddsChord d cs t` for the chords `cs` of `text`. -/
theorem Selection.addsChord_of_appendTo {text t : String} {cs : List Chord} {s : Selection}
    {d : Value} (htext : readSequence text = .ok cs ∨
      cs = [] ∧ ∃ e, readSequence text = .error e ∧ e.family = .empty)
    (h : s.appendTo text d = .ok t) : s.AddsChord d cs t := by
  obtain ⟨l, hl, h⟩ := bind_eq_ok_iff.1 h
  obtain ⟨c, hc, hl⟩ := bind_eq_ok_iff.1 hl
  obtain rfl := Except.ok.inj hl
  obtain rfl := Except.ok.inj h
  obtain ⟨hfundamental, -, x, whole, fraction, hchord⟩ := chord_eq_ok hc
  obtain ⟨number, hnumber, hx⟩ := hchord.duration.number
  obtain ⟨n, hn⟩ := readLines_append_line (l := chordLine c) htext
  have hadds (hf : '\n' ∉ c.fundamental.toList) :
      readSequence (if text.isEmpty then chordLine c else text ++ "\n" ++ chordLine c) =
        .ok (cs ++ [{ c with duration := .float x }]) := by
    rw [readSequence, hn, hchord.readLines_eq hf, Except.map, ok_bind, if_neg]
    · rfl
    · simp
  have hrefuses (hf : '\n' ∈ c.fundamental.toList) :
      readSequence (if text.isEmpty then chordLine c else text ++ "\n" ++ chordLine c) =
        .error (Cause.lineWithoutColon.diagnostic.atLine n) := by
    rw [readSequence, hn, hchord.readLines_eq_error hf]
    rfl
  refine ⟨c, number, x, hc, hfundamental, hnumber, hx, ⟨fun h hf => ?_, hadds⟩,
    fun hf => ⟨_, hrefuses hf, rfl⟩⟩
  rw [hrefuses hf] at h
  exact absurd h (by simp)

/-- **A chord is added to a text exactly if `'\n' ∉ c.fundamental.toList`.** For every text whose
chords `cs` can be read, or which has none, the text with the line of a selection at its end has
these chords and then the chord of the selection; so has the text that the service answers. The
reader of note names lets one line feed pass after the octave, and then the line falls apart. -/
theorem Selection.readSequence_appendTo_iff {text : String} {cs : List Chord}
    (htext : readSequence text = .ok cs ∨
      cs = [] ∧ ∃ e, readSequence text = .error e ∧ e.family = .empty) :
    (∀ (s : Selection) (d : Value) (t : String), s.appendTo text d = .ok t → s.AddsChord d cs t) ∧
    ∀ (r : Service.KeyboardRequest) (l t : String), r.text = text →
      (Service.answerKeyboard r).result = .ok (.line l t) →
      r.selection.AddsChord (.quantity (.float r.duration)) cs t := by
  refine ⟨fun s d t h => addsChord_of_appendTo htext h, ?_⟩
  rintro r l t rfl h
  -- the service answers with the text that the selection makes
  obtain ⟨⟨l', t'⟩, hlines, heq⟩ := map_eq_ok_iff.1 h
  obtain ⟨rfl, rfl⟩ := Service.Response.line.inj heq
  cases hr : r.lines with
  | error f =>
    rw [hr] at hlines
    exact absurd hlines (by simp [Except.mapError])
  | ok p =>
    rw [hr] at hlines
    obtain rfl := Except.ok.inj hlines
    obtain ⟨line, hline, hr⟩ := bind_eq_ok_iff.1 hr
    obtain ⟨t, ht, hr⟩ := bind_eq_ok_iff.1 hr
    obtain ⟨rfl, rfl⟩ := Prod.mk.inj (Except.ok.inj hr)
    exact addsChord_of_appendTo htext ht

/-- A unison that is appended to a line, by the keyboard and by the service. -/
theorem Selection.readSequence_appendTo_iff_unison :
    ∃ (s : Selection) (r : Service.KeyboardRequest) (cs : List Chord) (l t : String),
      readSequence "A4: 1" = .ok cs ∧
      s.appendTo "A4: 1" (.quantity (.float 0.5)) = .ok t ∧
      s.AddsChord (.quantity (.float 0.5)) cs t ∧
      r.text = "A4: 1" ∧ (Service.answerKeyboard r).result = .ok (.line l t) ∧
      r.selection.AddsChord (.quantity (.float r.duration)) cs t := by
  have htext : readSequence "A4: 1" = .ok [⟨"A4", ["1"], .float 1.0⟩] := rfl
  have hline : (⟨some "A5", ["A5"]⟩ : Selection).appendTo "A4: 1" (.quantity (.float 0.5)) =
      .ok "A4: 1\nA5: 1, duration=0.5" := by
    decide +kernel
  have hlines : (⟨"A5", ["A5"], 0.5, "A4: 1"⟩ : Service.KeyboardRequest).lines =
      .ok ("A5: 1, duration=0.5", "A4: 1\nA5: 1, duration=0.5") := by
    decide +kernel
  have hresult : (Service.answerKeyboard ⟨"A5", ["A5"], 0.5, "A4: 1"⟩).result =
      .ok (.line "A5: 1, duration=0.5" "A4: 1\nA5: 1, duration=0.5") := by
    rw [Service.answerKeyboard, hlines]
    rfl
  obtain ⟨hkeyboard, hservice⟩ := readSequence_appendTo_iff (.inl htext)
  exact ⟨_, _, _, _, _, htext, hline, hkeyboard _ _ _ hline, rfl, hresult,
    hservice _ _ _ rfl hresult⟩

/-- A fundamental with a line feed at its end, after which the text has no chords at all. -/
theorem Selection.readSequence_appendTo_lineFeed :
    ∃ (s : Selection) (c : Chord) (cs : List Chord) (t : String),
      s = ⟨some "C4\n", ["C4"]⟩ ∧ s.chord (.quantity (.float 1.0)) = .ok c ∧
      readSequence "A4: 1" = .ok cs ∧ s.appendTo "A4: 1" (.quantity (.float 1.0)) = .ok t ∧
      t = "A4: 1\nC4\n: 1, duration=1" ∧
      ∀ x : Float, readSequence t ≠ .ok (cs ++ [{ c with duration := .float x }]) := by
  have htext : readSequence "A4: 1" = .ok [⟨"A4", ["1"], .float 1.0⟩] := rfl
  have hline : (⟨some "C4\n", ["C4"]⟩ : Selection).appendTo "A4: 1" (.quantity (.float 1.0)) =
      .ok "A4: 1\nC4\n: 1, duration=1" := by
    decide +kernel
  have hrefused : (readSequence "A4: 1\nC4\n: 1, duration=1").toOption.isSome = false := by
    decide
  obtain ⟨l, hl, -⟩ := bind_eq_ok_iff.1 hline
  obtain ⟨c, hc, -⟩ := bind_eq_ok_iff.1 hl
  refine ⟨_, c, _, _, rfl, hc, htext, hline, rfl, fun x hx => ?_⟩
  rw [hx] at hrefused
  exact Bool.noConfusion hrefused

end Monochord
