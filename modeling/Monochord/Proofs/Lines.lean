import Monochord.Proofs.Sequence

/-! # Texts that are joined line by line

Chord text is read line by line, and the first bad line stops. What a text holds is therefore put
together from what its parts hold, if they are cut apart at a line feed.

* **`lineCount`** — the lines of a text.
* **`readLines_add`**, **`exists_line_of_readLines`** — later lines are complained about by later
  numbers, each of which is the number of a line.
* **`HoldsChords`** — the chords of a text that is not malformed, of which there may be none.
* **`readLines_eq_of_trim`** — blanks around lines do not matter, **`withCarriageReturns`** among
  them.
* **`readSequence_join`** — what two texts hold that are joined by a line feed. -/

namespace Monochord

open Text

/-! ## Numbers of lines -/

/-- The lines of a text. -/
def lineCount (text : String) : ℕ := (splitOn '\n' text.toList).length

/-- The same complaint `k` lines further down. -/
def Diagnostic.later (d : Diagnostic) (k : ℤ) : Diagnostic :=
  { d with line := d.line.map (· + k) }

/-- **Later lines are read alike**: `readLines (n + k) ls` is `readLines n ls`, and only the numbers
in complaints are greater by `k`. -/
theorem readLines_add (n k : ℤ) (ls : List (List Char)) :
    readLines (n + k) ls = (readLines n ls).mapError (·.later k) := by
  induction ls generalizing n with
  | nil => rfl
  | cons l ls ih =>
    have hnext : n + k + 1 = n + 1 + k := by omega
    rw [readLines, readLines, hnext, ih]
    cases readLineChars l with
    | error d => rfl
    | ok c? =>
      cases c? with
      | none => rfl
      | some c =>
        cases readLines (n + 1) ls with
        | error d => rfl
        | ok cs => rfl

/-- A complaint of `readLines n ls` bears the number `n + i` of one of the lines. -/
theorem exists_line_of_readLines {n : ℤ} {ls : List (List Char)} {d : Diagnostic}
    (h : readLines n ls = .error d) : ∃ i : ℕ, i < ls.length ∧ d.line = some (n + i) := by
  obtain ⟨before, l, d, hfirst, rfl⟩ := exists_failsFirst_of_readLines h
  have hlength := hfirst.position.length_le
  rw [List.length_append, List.length_singleton] at hlength
  exact ⟨before.length, hlength, rfl⟩

/-- A complaint with `d.line = some n` shows `Line n: ` in front of its detail. -/
theorem Diagnostic.message_of_line {d : Diagnostic} {n : ℤ} (h : d.line = some n) :
    d.message = "Line " ++ toString n ++ ": " ++ d.detail := by
  rw [message, h]

/-! ## Chords of a text -/

/-- The chords of a text that is not malformed. A text without chord lines has none, and is refused
for that reason alone. -/
def HoldsChords (text : String) (cs : List Chord) : Prop :=
  cs ≠ [] ∧ readSequence text = .ok cs ∨ cs = [] ∧ readSequence text = complain .noChords

/-- `readSequence text` is `readLines 1` of the lines, where no chords at all are complained about.
-/
theorem readSequence_eq (text : String) :
    readSequence text = (readLines 1 (splitOn '\n' text.toList) >>= fun cs =>
      if cs.isEmpty then complain .noChords else pure cs) := rfl

/-- `HoldsChords text cs` exactly if `readLines 1` of the lines of `text` is `.ok cs`. -/
theorem holdsChords_iff {text : String} {cs : List Chord} :
    HoldsChords text cs ↔ readLines 1 (splitOn '\n' text.toList) = .ok cs := by
  rw [HoldsChords, readSequence_eq]
  cases hread : readLines 1 (splitOn '\n' text.toList) with
  | error d =>
    -- a malformed line is not complained about as a text without chords
    have hne : d ≠ Cause.noChords.diagnostic := by
      rintro rfl
      exact absurd (family_of_readLines hread) (by decide)
    simp [complain, hne]
  | ok ds =>
    rw [ok_bind, Except.ok.injEq]
    cases ds with
    | nil =>
      -- without a chord line the text is refused
      rw [List.isEmpty_nil, if_pos rfl]
      refine ⟨fun h => ?_, fun h => .inr ⟨h.symm, rfl⟩⟩
      rcases h with ⟨-, h⟩ | ⟨h, -⟩
      · exact absurd h (by simp [complain])
      · exact h.symm
    | cons d ds =>
      rw [List.isEmpty_cons, if_neg Bool.false_ne_true, pure_eq_ok]
      refine ⟨fun h => ?_, fun h => .inl ⟨h ▸ List.cons_ne_nil d ds, congrArg Except.ok h⟩⟩
      rcases h with ⟨-, h⟩ | ⟨-, h⟩
      · exact Except.ok.inj h
      · exact absurd h (by simp [complain])

/-- `readSequence text` fails with a complaint about the form exactly if `readLines 1` of the lines
does. -/
theorem readSequence_eq_error_iff {text : String} {d : Diagnostic} :
    readSequence text = .error d ∧ d.family = .format ↔
      readLines 1 (splitOn '\n' text.toList) = .error d := by
  rw [readSequence_eq]
  cases hread : readLines 1 (splitOn '\n' text.toList) with
  | error e =>
    have hfamily := family_of_readLines hread
    simp only [error_bind, Except.error.injEq]
    exact ⟨fun h => h.1, fun h => ⟨h, h ▸ hfamily⟩⟩
  | ok cs =>
    simp only [ok_bind, reduceCtorEq, iff_false, not_and]
    intro h
    split at h
    · rw [← Except.error.inj h]
      decide
    · exact absurd h (by simp)

/-- **Every text is malformed or holds some chords**: its complaint has the family `.format`, or
there are `cs` with `HoldsChords text cs`. -/
theorem malformed_or_holdsChords (text : String) :
    (∃ d, readSequence text = .error d ∧ d.family = .format) ∨ ∃ cs, HoldsChords text cs := by
  cases hread : readLines 1 (splitOn '\n' text.toList) with
  | error d => exact .inl ⟨d, readSequence_eq_error_iff.2 hread⟩
  | ok cs => exact .inr ⟨cs, holdsChords_iff.2 hread⟩

/-! ## Joined texts -/

/-- The lines of `a ++ "\n" ++ b` are those of `a`, and then those of `b` with numbers that are
greater by `lineCount a`. -/
theorem readLines_join (a b : String) :
    readLines 1 (splitOn '\n' (a ++ "\n" ++ b).toList) =
      (readLines 1 (splitOn '\n' a.toList) >>= fun cs =>
        ((readLines 1 (splitOn '\n' b.toList)).mapError (·.later (lineCount a))).map
          (cs ++ ·)) := by
  have hfeed : ("\n" : String).toList = ['\n'] := by decide
  rw [String.toList_append, String.toList_append, hfeed, List.append_assoc, List.singleton_append,
    splitOn_append_cons, readLines_append, readLines_add]
  rfl

/-- If `a` is malformed, `readSequence (a ++ "\n" ++ b)` fails as `readSequence a` does. -/
theorem readSequence_join_of_malformed {a : String} {d : Diagnostic} (b : String)
    (h : readSequence a = .error d) (hd : d.family = .format) :
    readSequence (a ++ "\n" ++ b) = .error d := by
  have ha := readSequence_eq_error_iff.1 ⟨h, hd⟩
  refine (readSequence_eq_error_iff.2 ?_).1
  rw [readLines_join, ha, error_bind]

/-- If `a` is not malformed and `b` is, the complaint about `b` is that about `a ++ "\n" ++ b`, with
a number greater by `lineCount a`. -/
theorem readSequence_join_of_later {a b : String} {cs : List Chord} {d : Diagnostic}
    (ha : HoldsChords a cs) (h : readSequence b = .error d) (hd : d.family = .format) :
    readSequence (a ++ "\n" ++ b) = .error (d.later (lineCount a)) := by
  have hb := readSequence_eq_error_iff.1 ⟨h, hd⟩
  refine (readSequence_eq_error_iff.2 ?_).1
  rw [readLines_join, holdsChords_iff.1 ha, hb, ok_bind]
  rfl

/-- `HoldsChords` of two texts gives `HoldsChords` of the joined text, with `cs ++ ds`. -/
theorem HoldsChords.join {a b : String} {cs ds : List Chord} (ha : HoldsChords a cs)
    (hb : HoldsChords b ds) : HoldsChords (a ++ "\n" ++ b) (cs ++ ds) := by
  rw [holdsChords_iff, readLines_join, holdsChords_iff.1 ha, holdsChords_iff.1 hb, ok_bind]
  rfl

/-- `readSequence text = complain .noChords` exactly if `HoldsChords text []`. -/
theorem readSequence_eq_noChords_iff {text : String} :
    readSequence text = complain .noChords ↔ HoldsChords text [] := by
  simp [HoldsChords]

/-- Joined texts fail with `complain .noChords` exactly if both of them do. -/
theorem readSequence_join_eq_noChords_iff (a b : String) :
    readSequence (a ++ "\n" ++ b) = complain .noChords ↔
      readSequence a = complain .noChords ∧ readSequence b = complain .noChords := by
  rw [readSequence_eq_noChords_iff, readSequence_eq_noChords_iff, readSequence_eq_noChords_iff]
  constructor
  · intro h
    have hlines := holdsChords_iff.1 h
    rw [readLines_join, bind_eq_ok_iff] at hlines
    obtain ⟨cs, ha, hlines⟩ := hlines
    obtain ⟨ds, hb, happend⟩ := map_eq_ok_iff.1 hlines
    obtain ⟨rfl, rfl⟩ := List.append_eq_nil_iff.1 happend
    refine ⟨holdsChords_iff.2 ha, holdsChords_iff.2 ?_⟩
    cases hread : readLines 1 (splitOn '\n' b.toList) with
    | error d =>
      rw [hread] at hb
      exact absurd hb (by simp [Except.mapError])
    | ok cs =>
      rw [hread] at hb
      exact hb
  · rintro ⟨ha, hb⟩
    exact ha.join hb

/-! ## Carriage returns -/

/-- The text with a carriage return in front of every line feed. -/
def withCarriageReturns (text : String) : String :=
  String.ofList (text.toList.flatMap fun c => if c = '\n' then ['\r', '\n'] else [c])

/-- `readLineChars l` depends only on `trim l`. -/
theorem readLineChars_eq_of_trim {l m : List Char} (h : trim l = trim m) :
    readLineChars l = readLineChars m := by
  unfold readLineChars
  rw [h]

/-- `readLines n ls` depends only on the lines of `ls` without the blanks around them. -/
theorem readLines_eq_of_trim {ls ms : List (List Char)}
    (h : List.Forall₂ (fun l m => trim l = trim m) ls ms) (n : ℤ) :
    readLines n ls = readLines n ms := by
  induction h generalizing n with
  | nil => rfl
  | cons hlm _ ih =>
    unfold readLines
    simp only [readLineChars_eq_of_trim hlm, ih]

/-- If every `'\n'` becomes `'\r'` and `'\n'`, each line stays or gets `'\r'` at its end. -/
theorem splitOn_carriageReturns (cs : List Char) :
    List.Forall₂ (fun l m => l = m ∨ l = m ++ ['\r'])
      (splitOn '\n' (cs.flatMap fun c => if c = '\n' then ['\r', '\n'] else [c]))
      (splitOn '\n' cs) := by
  induction cs with
  | nil => exact .cons (.inl rfl) .nil
  | cons c cs ih =>
    rw [List.flatMap_cons]
    by_cases hc : c = '\n'
    · subst hc
      exact .cons (.inr rfl) ih
    · rw [if_neg hc, List.singleton_append, splitOn, splitOn, if_neg hc, if_neg hc]
      refine forall₂_consFirst (fun p q hpq => ?_) (.inl rfl) ih
      rcases hpq with rfl | rfl
      · exact .inl rfl
      · exact .inr rfl

/-- **`readSequence (withCarriageReturns text) = readSequence text`.** -/
theorem readSequence_withCarriageReturns (text : String) :
    readSequence (withCarriageReturns text) = readSequence text := by
  have hreturn : IsBlanks ['\r'] := List.forall_mem_singleton.2 (by decide)
  have hlines : List.Forall₂ (fun l m => trim l = trim m)
      (splitOn '\n' (withCarriageReturns text).toList) (splitOn '\n' text.toList) := by
    rw [withCarriageReturns, String.toList_ofList]
    refine (splitOn_carriageReturns text.toList).imp fun l m hlm => ?_
    rcases hlm with rfl | rfl
    · rfl
    · exact trim_append_blanks hreturn m
  rw [readSequence_eq, readSequence_eq, readLines_eq_of_trim hlines]

/-! ## What joined texts hold -/

/-- **What two texts hold decides what `a ++ "\n" ++ b` holds.** A complaint about `a` stays as it
is; otherwise one about line `n` of `b` becomes one about line `n + lineCount a`, and says the same
behind it. If neither text is malformed, the joined text has the chords of both, and none only if
neither has any. `withCarriageReturns` changes nothing. -/
theorem readSequence_join (a b : String) :
    (∀ d, readSequence a = .error d → d.family = .format →
      readSequence (a ++ "\n" ++ b) = .error d) ∧
    (∀ cs d, HoldsChords a cs → readSequence b = .error d → d.family = .format →
      ∃ (n : ℤ) (e : Diagnostic), 1 ≤ n ∧ n ≤ lineCount b ∧ d.line = some n ∧
        d.message = "Line " ++ toString n ++ ": " ++ d.detail ∧
        readSequence (a ++ "\n" ++ b) = .error e ∧ e.family = d.family ∧ e.kind = d.kind ∧
        e.line = some (n + lineCount a) ∧
        e.message = "Line " ++ toString (n + lineCount a) ++ ": " ++ d.detail) ∧
    (∀ cs ds, HoldsChords a cs → HoldsChords b ds →
      HoldsChords (a ++ "\n" ++ b) (cs ++ ds)) ∧
    (readSequence (a ++ "\n" ++ b) = complain .noChords ↔
      readSequence a = complain .noChords ∧ readSequence b = complain .noChords) ∧
    (∀ text, (∃ d, readSequence text = .error d ∧ d.family = .format) ∨
      ∃ cs, HoldsChords text cs) ∧
    ∀ text, readSequence (withCarriageReturns text) = readSequence text := by
  refine ⟨fun d h hd => readSequence_join_of_malformed b h hd, fun cs d ha h hd => ?_,
    fun cs ds ha hb => ha.join hb, readSequence_join_eq_noChords_iff a b,
    malformed_or_holdsChords, readSequence_withCarriageReturns⟩
  -- the second text complains about one of its lines, and the number of this line is shifted
  obtain ⟨i, hi, hline⟩ := exists_line_of_readLines (readSequence_eq_error_iff.1 ⟨h, hd⟩)
  have hlater : (d.later (lineCount a)).line = some (1 + i + lineCount a) := by
    rw [Diagnostic.later, hline]
    rfl
  have hcount : i < lineCount b := hi
  exact ⟨1 + i, d.later (lineCount a), by omega, by omega, hline,
    Diagnostic.message_of_line hline, readSequence_join_of_later ha h hd, rfl, rfl, hlater,
    Diagnostic.message_of_line hlater⟩

/-- The third line of `# up\nA4: 1\nC4` has no colon. -/
theorem readSequence_join_third_line :
    ∃ (cs : List Chord) (d e : Diagnostic), HoldsChords "# up\nA4: 1" cs ∧
      readSequence "C4" = .error d ∧ d.family = .format ∧ d.line = some 1 ∧
      readSequence "# up\nA4: 1\nC4" = .error e ∧ e.line = some 3 ∧
      e.message = "Line 3: " ++ d.detail := by
  have ha : HoldsChords "# up\nA4: 1" [⟨"A4", ["1"], .float 1.0⟩] :=
    .inl ⟨List.cons_ne_nil _ _, rfl⟩
  have hb : readSequence "C4" = .error (Cause.lineWithoutColon.diagnostic.atLine 1) := rfl
  obtain ⟨n, e, -, -, hn, -, he, -, -, hline, hmessage⟩ :=
    (readSequence_join "# up\nA4: 1" "C4").2.1 _ _ ha hb rfl
  obtain rfl : 1 = n := Option.some.inj hn
  exact ⟨_, _, e, ha, hb, rfl, rfl, he, hline, hmessage⟩

end Monochord
