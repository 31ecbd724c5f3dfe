import Mathlib.Data.List.TakeWhile
import Monochord.Proofs.Names
import Monochord.Sequence

/-! # Reading chord lines

What the reader of chord text does with a line that is put together from a fundamental, interval
symbols and an assignment of the duration, and with a text that is put together from lines.

* **`ValueText`**, **`readDuration_assignment`** — a value that an assignment can hold, and what is
  read from it.
* **`readParts_append`** — parts that are intervals are all kept, in order.
* **`chordText`**, **`readLineChars_chordText`** — the usual layout of a line, and the chord in it.
* **`exists_of_readChord`** — where the fields of a chord that was read come from.
* **`readLines_eq_ok_iff`**, **`exists_failsFirst_of_readLines`** — the chords in lines, and the
  first malformed line.
* **`readLines_append`** — lines are read one after another, and a bad one stops.
* **`readLines_of_readSequence`** — what the lines of a text hold, whether or not it has chords. -/

namespace Monochord

open Text

/-! ## Assignments -/

/-- A text of digits and points that denotes a finite positive double. -/
structure ValueText (t : List Char) (x : Float) : Prop where
  /-- It is not empty. -/
  ne_nil : t ≠ []
  /-- It has only digits and points. -/
  chars : ∀ c ∈ t, isValueChar c = true
  /-- The number at its start is the double. -/
  reads : leadingNumber? (String.ofList t) = some x
  /-- The double is finite. -/
  finite : x.isFinite = true
  /-- The double is positive. -/
  positive : 0.0 < x

/-- What satisfies `isValueChar` is not blank, is no comma and does not end a line. -/
theorem isValueChar_plain {c : Char} (h : isValueChar c = true) :
    isBlank c = false ∧ c ≠ ',' ∧ c ≠ '\n' := by
  rw [isValueChar, Bool.or_eq_true, beq_iff_eq] at h
  rcases h with h | rfl
  · have hdigit : c.isDigit = true := h
    obtain ⟨hlow, -⟩ := isDigit_toNat hdigit
    refine ⟨isBlank_of_isDigit hdigit, ?_, ?_⟩
    · rintro rfl
      exact absurd hlow (by decide)
    · rintro rfl
      exact absurd hlow (by decide)
  · exact ⟨by decide, by decide, by decide⟩

/-- A text with such a value `t` at its end does not end in a blank. -/
theorem ValueText.isBlank_getLast {t : List Char} {x : Float} (h : ValueText t x)
    (front : List Char) : ∀ c ∈ (front ++ t).getLast?, isBlank c = false := by
  intro c hc
  rw [List.getLast?_append_of_ne_nil _ h.ne_nil] at hc
  exact (isValueChar_plain (h.chars c (List.mem_of_mem_getLast? hc))).1

/-- `afterKeyword? ks (ks ++ rest) = some rest`. -/
theorem afterKeyword?_append {ks : List Char} (h : ∀ k ∈ ks, isKeywordLetter k k = true)
    (rest : List Char) : afterKeyword? ks (ks ++ rest) = some rest := by
  induction ks with
  | nil => rfl
  | cons k ks ih =>
    rw [List.cons_append, afterKeyword?, if_pos (h k List.mem_cons_self)]
    exact ih fun l hl => h l (List.mem_cons_of_mem k hl)

/-- An assignment in its usual form. -/
def assignment (t : List Char) : List Char := durationKeyword ++ '=' :: t

/-- `assignedHere?` finds the value `t` in `assignment t`. -/
theorem assignedHere?_assignment {t : List Char} {x : Float} (h : ValueText t x) :
    assignedHere? (assignment t) = some t := by
  have hletters : ∀ k ∈ durationKeyword, isKeywordLetter k k = true :=
    List.all_eq_true.1 (by decide)
  have hequals : dropBlanks ('=' :: t) = '=' :: t :=
    dropBlanks_eq_self fun c hc => by
      rw [← Option.some.inj hc]
      decide
  have hblank : dropBlanks t = t :=
    dropBlanks_eq_self fun c hc => (isValueChar_plain (h.chars c (List.mem_of_mem_head? hc))).1
  have htake : t.takeWhile isValueChar = t := List.takeWhile_eq_self_iff.2 h.chars
  have hne : t.isEmpty = false := List.isEmpty_eq_false_iff.2 h.ne_nil
  rw [assignedHere?, assignment, afterKeyword?_append hletters, Option.map_some, hequals]
  show (if ((dropBlanks t).takeWhile isValueChar).isEmpty then none
    else some ((dropBlanks t).takeWhile isValueChar)) = some t
  rw [hblank, htake, hne, if_neg Bool.false_ne_true]

/-- **`readDuration (assignment t) = .ok x`** if `t` has the value `x`. -/
theorem readDuration_assignment {t : List Char} {x : Float} (h : ValueText t x) :
    readDuration (assignment t) = .ok x := by
  have hassigned : assigned? (assignment t) = some t := by
    have hhere := assignedHere?_assignment h
    obtain ⟨c, cs, hcs⟩ := List.exists_cons_of_ne_nil
      (show assignment t ≠ [] by simp [assignment])
    rw [hcs] at hhere ⊢
    rw [assigned?, hhere]
  have hgood : (x.isFinite && decide (0.0 < x)) = true := by
    rw [h.finite, decide_eq_true h.positive]
    rfl
  rw [readDuration, hassigned]
  dsimp only
  rw [h.reads]
  dsimp only
  rw [if_pos hgood]

/-! ## Parts -/

/-- **Parts that are intervals are all kept**: `readParts (ps ++ parts)` has `ps` in front of the
intervals of `readParts parts`. -/
theorem readParts_append {ps : List (List Char)} (h : ∀ p ∈ ps, PartText p)
    (parts : List (List Char)) (duration : Float) :
    readParts (ps ++ parts) duration =
      (readParts parts duration).map fun r => (ps.map String.ofList ++ r.1, r.2) := by
  induction ps with
  | nil =>
    rw [List.nil_append]
    cases readParts parts duration with
    | error d => rfl
    | ok r => rfl
  | cons p ps ih =>
    have hp := h p List.mem_cons_self
    have hne : p.isEmpty = false := List.isEmpty_eq_false_iff.2 hp.ne_nil
    rw [List.cons_append, readParts, hp.keyword, if_neg Bool.false_ne_true, hne,
      if_neg Bool.false_ne_true, ih fun q hq => h q (List.mem_cons_of_mem p hq)]
    cases readParts parts duration with
    | error d => rfl
    | ok r => rfl

/-- `readParts [assignment t] duration = .ok ([], x)` if `t` has the value `x`. -/
theorem readParts_assignment {t : List Char} {x : Float} (h : ValueText t x) (duration : Float) :
    readParts [assignment t] duration = .ok ([], x) := by
  have hkeyword : startsWithKeyword (assignment t) = true := by
    rw [startsWithKeyword, assignment, List.take_left]
    decide
  rw [readParts, if_pos hkeyword, readDuration_assignment h]
  rfl

/-! ## Lines -/

/-- The usual layout of a chord line: a fundamental, a colon, and after a blank the intervals and
the assignment of the duration, which commas separate. -/
def chordText (head : List Char) (ps : List (List Char)) (t : List Char) : List Char :=
  head ++ ':' :: ' ' :: ([','].intercalate ps ++ ',' :: ' ' :: assignment t)

/-- The trimmed texts between the commas of `chordText` are `ps ++ [assignment t]`. -/
theorem map_trim_splitOn {ps : List (List Char)} {t : List Char} {x : Float} (hne : ps ≠ [])
    (h : ∀ p ∈ ps, PartText p) (ht : ValueText t x) :
    (splitOn ',' (' ' :: ([','].intercalate ps ++ ',' :: ' ' :: assignment t))).map trim =
      ps ++ [assignment t] := by
  have hcomma : ',' ∉ ' ' :: assignment t := by
    -- neither the blank nor the keyword nor the equals sign nor a character of the value
    intro hmem
    rcases List.mem_cons.1 hmem with hmem | hmem
    · exact absurd hmem (by decide)
    rcases List.mem_append.1 hmem with hmem | hmem
    · exact absurd hmem (by decide)
    rcases List.mem_cons.1 hmem with hmem | hmem
    · exact absurd hmem (by decide)
    · exact (isValueChar_plain (ht.chars _ hmem)).2.1 rfl
  have htrim : trim (assignment t) = assignment t := by
    have hsplit : assignment t = (durationKeyword ++ ['=']) ++ t := by
      rw [assignment, List.append_assoc, List.singleton_append]
    refine trim_eq_self (fun c hc => ?_) ?_
    · have hd : c = 'd' := (Option.some.inj hc).symm
      rw [hd]
      decide
    · rw [hsplit]
      exact ht.isBlank_getLast _
  obtain ⟨p, qs, rfl⟩ := List.exists_cons_of_ne_nil hne
  have htrims : (p :: qs).map trim = p :: qs := by
    rw [List.map_congr_left fun q hq => (h q hq).trim, List.map_id']
  -- the comma before the assignment splits it off, and the other commas separate the intervals
  rw [← List.cons_append, splitOn_append_cons, splitOn_of_not_mem hcomma, splitOn,
    if_neg (by decide), splitOn_intercalate hne fun q hq => (h q hq).comma, consFirst,
    List.map_append, List.map_cons, List.map_singleton, trim_cons_of_isBlank (by decide),
    trim_cons_of_isBlank (by decide), htrim, ← List.map_cons, htrims]

/-- **`readChord (chordText head ps t)`** is the chord of `trim head`, `ps` and the value of `t`. -/
theorem readChord_chordText {head : List Char} {ps : List (List Char)} {t : List Char} {x : Float}
    (hhead : ':' ∉ head) (hne : ps ≠ []) (h : ∀ p ∈ ps, PartText p) (ht : ValueText t x) :
    readChord (chordText head ps t) =
      .ok ⟨String.ofList (trim head), ps.map String.ofList, .float x⟩ := by
  have hparts : readParts (ps ++ [assignment t]) defaultDuration =
      .ok (ps.map String.ofList, x) := by
    rw [readParts_append h, readParts_assignment ht, Except.map, List.append_nil]
  have hsome : (ps.map String.ofList).isEmpty = false := by
    rw [List.isEmpty_eq_false_iff, ne_eq, List.map_eq_nil_iff]
    exact hne
  rw [readChord, chordText, cut?_append hhead]
  dsimp only
  rw [map_trim_splitOn hne h ht, hparts]
  show (if (ps.map String.ofList).isEmpty then _ else _) = _
  rw [hsome, if_neg Bool.false_ne_true]
  rfl

/-- A line whose first character is a letter of the scale is no comment. -/
theorem isCommentTrimmed_letter {c : Char} (h : (Letter.ofChar? c).isSome = true) (cs : List Char) :
    isCommentTrimmed (c :: cs) = false := by
  have hhash : c ≠ '#' := by
    rintro rfl
    exact absurd h (by decide)
  have hslash : c ≠ '/' := by
    rintro rfl
    exact absurd h (by decide)
  rw [isCommentTrimmed]
  · exact fun hnil => List.cons_ne_nil _ _ hnil
  · exact fun rest heq => hhash (List.cons.inj heq).1
  · exact fun rest heq => hslash (List.cons.inj heq).1

/-- **`readLineChars (chordText (c :: cs) ps t)`** is this chord, too, if `c` is a letter of the
scale. -/
theorem readLineChars_chordText {c : Char} {cs : List Char} {ps : List (List Char)} {t : List Char}
    {x : Float} (hc : (Letter.ofChar? c).isSome = true) (hhead : ':' ∉ c :: cs) (hne : ps ≠ [])
    (h : ∀ p ∈ ps, PartText p) (ht : ValueText t x) :
    readLineChars (chordText (c :: cs) ps t) =
      .ok (some ⟨String.ofList (trim (c :: cs)), ps.map String.ofList, .float x⟩) := by
  have htrim : trim (chordText (c :: cs) ps t) = chordText (c :: cs) ps t := by
    obtain ⟨front, hfront⟩ : ∃ front, chordText (c :: cs) ps t = front ++ t := by
      refine ⟨(c :: cs) ++ ':' :: ' ' :: ([','].intercalate ps ++ ',' :: ' ' ::
        (durationKeyword ++ ['='])), ?_⟩
      simp [chordText, assignment]
    refine trim_eq_self (fun d hd => ?_) ?_
    · rw [← Option.some.inj hd]
      exact isBlank_of_letter hc
    · rw [hfront]
      exact ht.isBlank_getLast front
  have hcomment : isCommentTrimmed (chordText (c :: cs) ps t) = false :=
    isCommentTrimmed_letter hc _
  rw [readLineChars, htrim, hcomment, if_neg Bool.false_ne_true, readChord_chordText hhead hne h ht]
  rfl

/-- **A line with a letter of the scale in front and without `':'`** is refused with
`.lineWithoutColon`. -/
theorem readLineChars_without_colon {c : Char} {cs : List Char}
    (hc : (Letter.ofChar? c).isSome = true) (hcolon : ':' ∉ c :: cs) :
    readLineChars (c :: cs) = complain .lineWithoutColon := by
  obtain ⟨rest, hrest, hmem⟩ := exists_trim_cons (isBlank_of_letter hc) cs
  have hnone : ':' ∉ c :: rest := by
    intro h
    rcases List.mem_cons.1 h with h | h
    · exact hcolon (List.mem_cons.2 (.inl h))
    · exact hcolon (List.mem_cons_of_mem c (hmem _ h))
  rw [readLineChars, hrest, isCommentTrimmed_letter hc, if_neg Bool.false_ne_true, readChord,
    cut?_eq_none hnone]
  rfl

/-! ## Chords that were read -/

/-- **A chord comes from the two sides of the first colon**: its fundamental stands before it, and
its intervals, at least one, and its duration are `readParts` of what stands behind it. -/
theorem exists_of_readChord {line : List Char} {c : Chord} (h : readChord line = .ok c) :
    ∃ head tail intervals duration, cut? ':' line = some (head, tail) ∧
      readParts ((splitOn ',' tail).map trim) defaultDuration = .ok (intervals, duration) ∧
      intervals ≠ [] ∧ c = ⟨String.ofList (trim head), intervals, .float duration⟩ := by
  rw [readChord] at h
  split at h
  · exact absurd h (by simp [complain])
  · next head tail hcut =>
    obtain ⟨⟨intervals, duration⟩, hparts, h⟩ := bind_eq_ok_iff.1 h
    dsimp only at h
    split at h
    · exact absurd h (by simp [complain])
    · next hne =>
      exact ⟨head, tail, intervals, duration, hcut, hparts, fun hnil => hne (List.isEmpty_iff.2 hnil),
        (Except.ok.inj h).symm⟩

/-- If `readLineChars line` is a chord `c`, then `readChord (trim line) = .ok c`. -/
theorem readChord_of_readLineChars {line : List Char} {c : Chord}
    (h : readLineChars line = .ok (some c)) : readChord (trim line) = .ok c := by
  rw [readLineChars] at h
  split at h
  · exact absurd h (by simp)
  · obtain ⟨c', hread, h⟩ := map_eq_ok_iff.1 h
    obtain rfl := Option.some.inj h
    exact hread

/-! ## Sequences -/

/-- A complaint of `readDuration` has the family `.format`. -/
theorem family_of_readDuration {part : List Char} {d : Diagnostic}
    (h : readDuration part = .error d) : d.family = .format := by
  rw [readDuration] at h
  split at h
  · rw [← Except.error.inj h]
    rfl
  · dsimp only at h
    split at h
    · split at h
      · exact absurd h (by simp)
      · rw [← Except.error.inj h]
        rfl
    · rw [← Except.error.inj h]
      rfl

/-- A complaint of `readParts` has the family `.format`. -/
theorem family_of_readParts {parts : List (List Char)} {duration : Float} {d : Diagnostic}
    (h : readParts parts duration = .error d) : d.family = .format := by
  induction parts generalizing duration with
  | nil => exact absurd h (by simp [readParts])
  | cons part parts ih =>
    rw [readParts] at h
    split at h
    · cases hread : readDuration part with
      | error e =>
        rw [hread] at h
        rw [← Except.error.inj h]
        exact family_of_readDuration hread
      | ok x =>
        rw [hread] at h
        exact ih h
    · split at h
      · exact ih h
      · cases hread : readParts parts duration with
        | error e =>
          rw [hread] at h
          obtain rfl := Except.error.inj h
          exact ih hread
        | ok r =>
          rw [hread] at h
          exact absurd h (by simp)

/-- **A complaint of `readLineChars` has the family `.format`.** -/
theorem family_of_readLineChars {line : List Char} {d : Diagnostic}
    (h : readLineChars line = .error d) : d.family = .format := by
  rw [readLineChars] at h
  split at h
  · exact absurd h (by simp)
  cases hread : readChord (trim line) with
  | ok c =>
    rw [hread] at h
    exact absurd h (by simp [Except.map])
  | error e =>
    rw [hread] at h
    obtain rfl := Except.error.inj h
    rw [readChord] at hread
    split at hread
    · -- no colon
      rw [← Except.error.inj hread]
      rfl
    next head tail _ =>
    cases hparts : readParts ((splitOn ',' tail).map trim) defaultDuration with
    | error e' =>
      simp only [hparts, error_bind, Except.error.injEq] at hread
      rw [← hread]
      exact family_of_readParts hparts
    | ok r =>
      simp only [hparts, ok_bind] at hread
      split at hread
      · -- no intervals
        rw [← Except.error.inj hread]
        rfl
      · exact absurd hread (by simp)

/-! ## Texts -/

/-- The chord in a line, if the line is well formed and no comment. -/
def chordIn? (line : List Char) : Option Chord :=
  match readLineChars line with
  | .ok c? => c?
  | .error _ => none

/-- `chordIn? line = some c` exactly if `readLineChars line = .ok (some c)`. -/
theorem chordIn?_eq_some_iff {line : List Char} {c : Chord} :
    chordIn? line = some c ↔ readLineChars line = .ok (some c) := by
  rw [chordIn?]
  cases readLineChars line <;> simp

/-- **`readLines n ls = .ok cs` exactly if each line is well formed** and
`ls.filterMap chordIn? = cs`. -/
theorem readLines_eq_ok_iff {n : ℤ} {ls : List (List Char)} {cs : List Chord} :
    readLines n ls = .ok cs ↔
      (∀ l ∈ ls, ∃ c?, readLineChars l = .ok c?) ∧ ls.filterMap chordIn? = cs := by
  induction ls generalizing n cs with
  | nil => simp [readLines]
  | cons l ls ih =>
    rw [readLines, List.forall_mem_cons, List.filterMap_cons, chordIn?, and_assoc]
    cases hl : readLineChars l with
    | error d => simp
    | ok c? =>
      have hread : ∃ d?, (Except.ok c? : Except Diagnostic (Option Chord)) = .ok d? := ⟨c?, rfl⟩
      rw [and_iff_right hread]
      cases c? with
      | none => exact ih
      | some c =>
        dsimp only
        rw [map_eq_ok_iff]
        constructor
        · rintro ⟨ds, hds, rfl⟩
          obtain ⟨hls, rfl⟩ := ih.1 hds
          exact ⟨hls, rfl⟩
        · rintro ⟨hls, rfl⟩
          exact ⟨_, ih.2 ⟨hls, rfl⟩, rfl⟩

/-- **A failure of `readLines n ls` is that of the first malformed line**, with the number of that
line. -/
theorem exists_failsFirst_of_readLines {n : ℤ} {ls : List (List Char)} {e : Diagnostic}
    (h : readLines n ls = .error e) : ∃ before l d, FailsFirst readLineChars ls before l d ∧
      e = d.atLine (n + before.length) := by
  induction ls generalizing n with
  | nil => exact absurd h (by simp [readLines])
  | cons l ls ih =>
    have hlater (hread : ∃ c?, readLineChars l = .ok c?) (h : readLines (n + 1) ls = .error e) :
        ∃ before l' d, FailsFirst readLineChars (l :: ls) before l' d ∧
          e = d.atLine (n + before.length) := by
      obtain ⟨before, l', d, hfirst, rfl⟩ := ih h
      refine ⟨l :: before, l', d, hfirst.cons hread, ?_⟩
      rw [List.length_cons]
      congr 1
      omega
    rw [readLines] at h
    cases hl : readLineChars l with
    | error d =>
      rw [hl] at h
      refine ⟨[], l, d, .head hl ls, ?_⟩
      simpa using (Except.error.inj h).symm
    | ok c? =>
      rw [hl] at h
      cases c? with
      | none => exact hlater ⟨none, hl⟩ h
      | some c => exact hlater ⟨some c, hl⟩ (map_eq_error_iff.1 h)

/-- **Lines are read one after another**: `readLines n (ls ++ ms)` is `readLines n ls`, and then
`readLines` of `ms` from the number `n + ls.length` on. -/
theorem readLines_append (n : Int) (ls ms : List (List Char)) :
    readLines n (ls ++ ms) =
      (readLines n ls >>= fun cs => (readLines (n + ls.length) ms).map (cs ++ ·)) := by
  -- the number of the next line goes along, and what follows begins after all lines of the front
  induction ls generalizing n with
  | nil =>
    rw [List.nil_append, readLines, ok_bind, List.length_nil, Int.natCast_zero, Int.add_zero]
    cases readLines n ms with
    | error d => rfl
    | ok cs => rfl
  | cons l ls ih =>
    have hnumber : n + 1 + (ls.length : Int) = n + (l :: ls).length := by
      rw [List.length_cons]
      omega
    rw [List.cons_append, readLines, readLines]
    cases readLineChars l with
    | error d => rfl
    | ok c? =>
      cases c? with
      | none =>
        dsimp only
        rw [ih, hnumber]
      | some c =>
        dsimp only
        rw [ih, hnumber]
        cases readLines (n + 1) ls with
        | error d => rfl
        | ok cs =>
          cases readLines (n + (l :: ls).length) ms with
          | error d => rfl
          | ok ds => rfl

/-- A complaint of `readLines` has the family `.format`. -/
theorem family_of_readLines {n : Int} {ls : List (List Char)} {d : Diagnostic}
    (h : readLines n ls = .error d) : d.family = .format := by
  obtain ⟨before, l, d, hfirst, rfl⟩ := exists_failsFirst_of_readLines h
  rw [Diagnostic.family_atLine]
  exact family_of_readLineChars hfirst.fails

/-- If `readSequence text = .ok cs`, or if it only lacks chord lines and `cs = []`, then
`readLines 1` of the lines is `.ok cs`. -/
theorem readLines_of_readSequence {text : String} {cs : List Chord}
    (h : readSequence text = .ok cs ∨
      cs = [] ∧ ∃ d, readSequence text = .error d ∧ d.family = .empty) :
    readLines 1 (splitOn '\n' text.toList) = .ok cs := by
  rw [readSequence] at h
  cases hread : readLines 1 (splitOn '\n' text.toList) with
  | error e =>
    -- a complaint about a line is not the one about an empty text
    rw [hread] at h
    rcases h with h | ⟨-, d, h, hfamily⟩
    · exact absurd h (by simp)
    · rw [← Except.error.inj h, family_of_readLines hread] at hfamily
      exact absurd hfamily (by decide)
  | ok ds =>
    rw [hread, ok_bind] at h
    split at h
    · next hempty =>
      rcases h with h | ⟨rfl, -⟩
      · exact absurd h (by simp [complain])
      · rw [List.isEmpty_iff.1 hempty]
    · rcases h with h | ⟨-, d, h, -⟩
      · rw [Except.ok.inj h]
      · exact absurd h (by simp)

/-- `cs ≠ []` if `readSequence text = .ok cs`. -/
theorem ne_nil_of_readSequence {text : String} {cs : List Chord}
    (h : readSequence text = .ok cs) : cs ≠ [] := by
  obtain ⟨ds, -, h⟩ := bind_eq_ok_iff.1 h
  split at h
  · exact absurd h (by simp [complain])
  · next hne =>
    obtain rfl := Except.ok.inj h
    exact fun hnil => hne (List.isEmpty_iff.2 hnil)

end Monochord
