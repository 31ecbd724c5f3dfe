import Monochord.Proofs.NoteName
import Monochord.Proofs.Numeral
import Monochord.Proofs.Outcome
import Monochord.Proofs.Text.Pieces
import Monochord.Sequence

/-! # Names inside chord lines

A chord line separates its parts by a colon and by commas. Note names and spelt interval symbols
contain neither, so that they are found again.

* **`NameText`**, **`nameText_of_read?`** — a note name starts with a letter, has no colon and no
  blanks around it, and has a line feed at most at its end.
* **`PartText`**, **`partText_of_spell`** — a spelt interval is a part that is read as an interval.
  -/

namespace Monochord

open Text

/-! ## Note names -/

/-- A text that starts with a letter of the scale and has neither a colon nor a line feed, nor
blanks around it. -/
structure NameText (cs : List Char) : Prop where
  /-- It starts with a letter of the scale. -/
  letter : ∃ c rest, cs = c :: rest ∧ (Letter.ofChar? c).isSome = true
  /-- It has no blanks around it. -/
  trim : trim cs = cs
  /-- It has no colon. -/
  colon : ':' ∉ cs
  /-- It has no line feed. -/
  lineFeed : '\n' ∉ cs

/-- A character with `Letter.ofChar? c ≠ none` is not blank. -/
theorem isBlank_of_letter {c : Char} (h : (Letter.ofChar? c).isSome = true) :
    isBlank c = false := by
  rw [Letter.ofChar?.eq_def] at h
  split at h <;> first | rfl | exact absurd h Bool.false_ne_true

/-- What satisfies `IsOctave` is digits behind an optional sign, and perhaps `'\n'` at its end. -/
theorem NoteName.IsOctave.exists_eq {cs : List Char} {octave : ℤ} (h : IsOctave cs octave) :
    ∃ body, (cs = body ∨ cs = body ++ ['\n']) ∧ (∀ c ∈ body, isDigit c = true ∨ c = '-') ∧
      ∃ c, body.getLast? = some c ∧ isDigit c = true := by
  cases h with
  | plain hn =>
    obtain ⟨run, ds, hrun, hne, -, hcs⟩ := hn
    exact ⟨run, hcs, fun c hc => .inl (hrun.isDigit c hc), run.getLast hne,
      List.getLast?_eq_some_getLast hne, hrun.isDigit _ (List.getLast_mem hne)⟩
  | minus hn =>
    obtain ⟨run, ds, hrun, hne, -, hcs⟩ := hn
    refine ⟨'-' :: run, ?_, ?_, run.getLast hne, ?_, hrun.isDigit _ (List.getLast_mem hne)⟩
    · rcases hcs with rfl | rfl
      · exact .inl rfl
      · exact .inr rfl
    · exact List.forall_mem_cons.2 ⟨.inr rfl, fun c hc => .inl (hrun.isDigit c hc)⟩
    · rw [List.getLast?_cons_of_ne_nil hne, List.getLast?_eq_some_getLast hne]

/-- **A note name has no colon, and `'\n'` at most at its end.** -/
theorem nameText_of_read? {cs : List Char} {n : NoteName} (h : NoteName.read? cs = some n) :
    ∃ name, (cs = name ∨ cs = name ++ ['\n']) ∧ NameText name := by
  obtain ⟨octave, rfl, hoctave⟩ := NoteName.read?_eq_some_iff.1 h
  obtain ⟨body, hbody, hchars, last, hlast, hdigit⟩ := hoctave.exists_eq
  have hletter : (Letter.ofChar? n.letter.char).isSome = true := by
    rw [Letter.ofChar?_eq_some_iff.2 rfl]
    rfl
  have hplain : ∀ c ∈ n.letter.char :: (n.accidental.chars ++ body), c ≠ ':' ∧ c ≠ '\n' := by
    refine List.forall_mem_cons.2 ⟨?_, List.forall_mem_append.2 ⟨?_, fun c hc => ?_⟩⟩
    · cases n.letter <;> exact ⟨by decide, by decide⟩
    · cases n.accidental with
      | none => exact fun c hc => absurd hc List.not_mem_nil
      | sharp => exact List.forall_mem_singleton.2 ⟨by decide, by decide⟩
      | flat => exact List.forall_mem_singleton.2 ⟨by decide, by decide⟩
    · rcases hchars c hc with hc | rfl
      · exact ⟨ne_of_isDigit hc (by decide), ne_of_isDigit hc (by decide)⟩
      · exact ⟨by decide, by decide⟩
  refine ⟨n.letter.char :: (n.accidental.chars ++ body), ?_, ⟨_, _, rfl, hletter⟩, ?_,
    fun hmem => (hplain _ hmem).1 rfl, fun hmem => (hplain _ hmem).2 rfl⟩
  · rcases hbody with rfl | rfl
    · exact .inl rfl
    · right
      rw [List.cons_append, List.append_assoc]
  · -- a letter in front, and a digit at the end
    refine trim_eq_self (fun d hd => ?_) (fun d hd => ?_)
    · rw [← Option.some.inj hd]
      exact isBlank_of_letter hletter
    · have hd' : (n.letter.char :: n.accidental.chars ++ body).getLast? = some d := hd
      rw [List.getLast?_append, hlast] at hd'
      rw [← Option.some.inj hd']
      exact isBlank_of_digit hdigit

/-- `NoteName.read?` accepts a text for which `noteFrequency` is a success. -/
theorem read?_of_noteFrequency {note : String} {x : Float} (h : noteFrequency note = .ok x) :
    ∃ n, NoteName.read? note.toList = some n := by
  obtain ⟨s, hs, -⟩ := bind_eq_ok_iff.1 h
  rw [diagnosing_eq_ok_iff, noteSemitones] at hs
  cases hn : NoteName.read? note.toList with
  | none =>
    rw [hn] at hs
    exact absurd hs (by simp [complain])
  | some n => exact ⟨n, rfl⟩

/-! ## Interval symbols -/

/-- A part of a line that is read as an interval: it is not empty, has no blanks around it and no
comma or line feed in it, and does not start with the keyword of an assignment. -/
structure PartText (cs : List Char) : Prop where
  /-- It is not empty. -/
  ne_nil : cs ≠ []
  /-- It has no comma. -/
  comma : ',' ∉ cs
  /-- It has no line feed. -/
  lineFeed : '\n' ∉ cs
  /-- It has no blanks around it. -/
  trim : trim cs = cs
  /-- It does not start with the keyword. -/
  keyword : startsWithKeyword cs = false

/-- A character of an interval symbol. -/
def IsSymbolChar (c : Char) : Prop := c = '#' ∨ c = 'b' ∨ c.isDigit = true

/-- The characters of `s.text` satisfy `IsSymbolChar`. -/
theorem isSymbolChar_of_mem {s : Symbol} {c : Char} (h : c ∈ s.text.toList) : IsSymbolChar c := by
  rw [Symbol.text, String.toList_ofList, List.mem_append] at h
  rcases h with h | h
  · cases hs : s.accidental with
    | none =>
      rw [hs] at h
      exact absurd h List.not_mem_nil
    | sharp =>
      rw [hs] at h
      exact .inl (List.mem_singleton.1 h)
    | flat =>
      rw [hs] at h
      exact .inr (.inl (List.mem_singleton.1 h))
  · exact .inr (.inr (isDigits_digits s.degree c h))

/-- What satisfies `IsSymbolChar` is no blank, no comma and no line feed, and does not start the
keyword. -/
theorem IsSymbolChar.plain {c : Char} (h : IsSymbolChar c) :
    isBlank c = false ∧ c ≠ ',' ∧ c ≠ '\n' ∧ lower c ≠ 'd' := by
  rcases h with rfl | rfl | h
  · exact ⟨by decide, by decide, by decide, by decide⟩
  · exact ⟨by decide, by decide, by decide, by decide⟩
  · obtain ⟨hlow, hhigh⟩ := isDigit_toNat h
    refine ⟨isBlank_of_isDigit h, ?_, ?_, ?_⟩
    · rintro rfl
      exact absurd hlow (by decide)
    · rintro rfl
      exact absurd hlow (by decide)
    · -- digits have no case
      have hlower : lower c = c := by
        refine if_neg fun hupper => ?_
        have hle : 65 ≤ c.toNat := hupper.1
        omega
      rw [hlower]
      rintro rfl
      exact absurd hhigh (by decide)

/-- **`PartText s.text.toList`**: the text of a symbol is a part that is read as an interval. -/
theorem partText_text (s : Symbol) : PartText s.text.toList := by
  have hplain : ∀ c ∈ s.text.toList, isBlank c = false ∧ c ≠ ',' ∧ c ≠ '\n' ∧ lower c ≠ 'd' :=
    fun c hc => (isSymbolChar_of_mem hc).plain
  have hne : s.text.toList ≠ [] := by
    rw [Symbol.text, String.toList_ofList]
    exact List.append_ne_nil_of_right_ne_nil _ Nat.toDigits_ne_nil
  refine ⟨hne, fun h => (hplain _ h).2.1 rfl, fun h => (hplain _ h).2.2.1 rfl, ?_, ?_⟩
  · refine trim_eq_self (fun c hc => ?_) (fun c hc => ?_)
    · exact (hplain c (List.mem_of_mem_head? hc)).1
    · exact (hplain c (List.mem_of_mem_getLast? hc)).1
  · -- the first letter of the keyword is enough
    obtain ⟨c, cs, hcs⟩ := List.exists_cons_of_ne_nil hne
    have hc := (hplain c (by rw [hcs]; exact List.mem_cons_self)).2.2.2
    have hkeyword : durationKeyword = ['d', 'u', 'r', 'a', 't', 'i', 'o', 'n'] := by decide
    rw [hcs, startsWithKeyword, hkeyword, beq_eq_false_iff_ne]
    exact fun heq => hc (List.cons.inj heq).1

/-- **`PartText s.toList` if `spell n = .ok s`.** -/
theorem partText_of_spell {n : Int} {s : String} (h : spell n = .ok s) : PartText s.toList := by
  rw [spell] at h
  split at h
  · -- distances downwards have no spelling
    split at h
    · exact absurd h (by simp [complain])
    · exact absurd h (by simp)
  · dsimp only at h
    split at h
    · rw [← Except.ok.inj h]
      exact partText_text _
    · exact absurd h (by simp)

end Monochord
