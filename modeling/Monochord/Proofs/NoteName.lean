import Monochord.NoteName
import Monochord.Proofs.Numeral.Grammar

/-! # The grammar of note names

A note name is a letter, an optional accidental and an octave: an optional minus sign and digits in
any scripts. A line feed may end it.

* **`NoteName.IsOctave`**, **`NoteName.IsSpelling`** — the grammar of octaves and of note names.
* **`NoteName.read?_eq_some_iff`** — the reader accepts exactly this grammar. -/

namespace Monochord

open Text

/-- `Accidental.read (a.chars ++ rest) = (a, rest)` if `rest` does not start with an accidental. -/
theorem Accidental.read_append (a : Accidental) {rest : List Char}
    (hrest : ∀ c ∈ rest.head?, c ≠ '#' ∧ c ≠ 'b') :
    Accidental.read (a.chars ++ rest) = (a, rest) := by
  cases a with
  | sharp => rfl
  | flat => rfl
  | none =>
    rw [chars, List.nil_append, Accidental.read.eq_def]
    split
    · exact absurd rfl (hrest '#' rfl).1
    · exact absurd rfl (hrest 'b' rfl).2
    · rfl

/-- A digit is neither `'#'` nor `'b'`. -/
theorem ne_accidental_of_isDigit {c : Char} (h : isDigit c = true) : c ≠ '#' ∧ c ≠ 'b' :=
  ⟨ne_of_isDigit h (by decide), ne_of_isDigit h (by decide)⟩

/-- `cs` is the accidental that `Accidental.read` finds and the rest. -/
theorem Accidental.chars_read (cs : List Char) :
    cs = (Accidental.read cs).1.chars ++ (Accidental.read cs).2 := by
  rw [Accidental.read.eq_def]
  split <;> rfl

/-- `ofChar? c = some l` exactly if `c = l.char`. -/
theorem Letter.ofChar?_eq_some_iff {c : Char} {l : Letter} : ofChar? c = some l ↔ c = l.char := by
  constructor
  · intro h
    rw [ofChar?.eq_def] at h
    split at h <;> cases h <;> rfl
  · rintro rfl
    cases l <;> rfl

namespace NoteName

/-! ## Octaves -/

/-- Digits that write a number, at the end of a text or of its only line. -/
def IsMagnitude (cs : List Char) (n : ℕ) : Prop :=
  ∃ run ds, DigitRun run ds ∧ run ≠ [] ∧ ofDigits ds = n ∧ (cs = run ∨ cs = run ++ ['\n'])

/-- The number of an octave: digits, with a minus sign in front if it is negative. -/
inductive IsOctave : List Char → ℤ → Prop
  /-- Digits alone. -/
  | plain {cs : List Char} {n : ℕ} (h : IsMagnitude cs n) : IsOctave cs n
  /-- Digits behind a minus sign. -/
  | minus {cs : List Char} {n : ℕ} (h : IsMagnitude cs n) : IsOctave ('-' :: cs) (-n)

/-- What satisfies `IsMagnitude` starts with a digit. -/
theorem IsMagnitude.head {cs : List Char} {n : ℕ} (h : IsMagnitude cs n) :
    ∃ c rest, cs = c :: rest ∧ isDigit c = true := by
  obtain ⟨run, ds, hrun, hne, -, hcs⟩ := h
  obtain ⟨c, rest, rfl⟩ := List.exists_cons_of_ne_nil hne
  have hc := hrun.isDigit c List.mem_cons_self
  rcases hcs with rfl | rfl
  · exact ⟨c, rest, rfl, hc⟩
  · exact ⟨c, rest ++ ['\n'], rfl, hc⟩

/-- The reader of octaves behind the sign. -/
def signedDigits? (negative : Bool) (cs : List Char) : Option ℤ :=
  match takeDigits cs, dropDigits cs with
  | [], _ => none
  | ds, [] | ds, ['\n'] => some (if negative then -(ofDigits ds : ℤ) else ofDigits ds)
  | _, _ => none

/-- `signedDigits?` reads an `IsMagnitude`, and negates its number if there is a sign. -/
theorem signedDigits?_eq_some_iff {negative : Bool} {cs : List Char} {octave : ℤ} :
    signedDigits? negative cs = some octave ↔
      ∃ n : ℕ, IsMagnitude cs n ∧ octave = if negative then -(n : ℤ) else n := by
  constructor
  · intro h
    obtain ⟨run, hcs, hrun⟩ := exists_digitRun_append cs
    rw [signedDigits?] at h
    split at h
    · exact absurd h (by simp)
    · next hdrop htake =>
      rw [hdrop, List.append_nil] at hcs
      exact ⟨_, ⟨run, _, hrun, mt hrun.eq_nil_iff.1 htake, rfl, .inl hcs⟩, (Option.some.inj h).symm⟩
    · next hdrop htake =>
      rw [hdrop] at hcs
      exact ⟨_, ⟨run, _, hrun, mt hrun.eq_nil_iff.1 htake, rfl, .inr hcs⟩, (Option.some.inj h).symm⟩
    · exact absurd h (by simp)
  · rintro ⟨_, ⟨run, ds, hrun, hne, rfl, hcs⟩, rfl⟩
    obtain ⟨d, ds, rfl⟩ := List.exists_cons_of_ne_nil (mt hrun.eq_nil_iff.2 hne)
    have hread : ∀ tail, cs = run ++ tail → (∀ c ∈ tail.head?, digit? c = none) →
        takeDigits cs = d :: ds ∧ dropDigits cs = tail := by
      rintro tail rfl htail
      rw [takeDigits_append hrun, dropDigits_append hrun, takeDigits_eq_nil htail,
        dropDigits_eq_self htail, List.append_nil]
      exact ⟨rfl, rfl⟩
    rcases hcs with hcs | hcs
    · obtain ⟨htake, hdrop⟩ := hread [] (by rw [hcs, List.append_nil]) (by simp)
      rw [signedDigits?, htake, hdrop]
    · obtain ⟨htake, hdrop⟩ := hread ['\n'] hcs fun c hc => by
        rw [← Option.some.inj hc]
        decide
      rw [signedDigits?, htake, hdrop]
      rfl

/-- **`readOctave? cs = some octave` exactly if `IsOctave cs octave`.** -/
theorem readOctave?_eq_some_iff {cs : List Char} {octave : ℤ} :
    readOctave? cs = some octave ↔ IsOctave cs octave := by
  constructor
  · intro h
    by_cases hsign : ∃ body, cs = '-' :: body
    · obtain ⟨body, rfl⟩ := hsign
      change signedDigits? true body = some octave at h
      obtain ⟨n, hn, rfl⟩ := signedDigits?_eq_some_iff.1 h
      exact .minus hn
    · rw [readOctave?] at h
      · change signedDigits? false cs = some octave at h
        obtain ⟨n, hn, rfl⟩ := signedDigits?_eq_some_iff.1 h
        exact .plain hn
      · exact fun body hbody => hsign ⟨body, hbody⟩
  · intro h
    cases h with
    | plain hn =>
      have hread : signedDigits? false cs = some _ := signedDigits?_eq_some_iff.2 ⟨_, hn, rfl⟩
      obtain ⟨c, rest, rfl, hc⟩ := hn.head
      rw [readOctave?]
      · exact hread
      · rintro body hbody
        rw [(List.cons.inj hbody).1] at hc
        exact absurd hc (by decide)
    | minus hn => exact signedDigits?_eq_some_iff.2 ⟨_, hn, rfl⟩

/-! ## Names -/

/-- A text that spells a note name: the letter, the accidental if there is one, and the octave. -/
def IsSpelling (cs : List Char) (n : NoteName) : Prop :=
  ∃ octave, cs = n.letter.char :: (n.accidental.chars ++ octave) ∧ IsOctave octave n.octave

/-- What satisfies `IsOctave` does not start with `'#'` or `'b'`. -/
theorem IsOctave.ne_accidental {cs : List Char} {octave : ℤ} (h : IsOctave cs octave) :
    ∀ c ∈ cs.head?, c ≠ '#' ∧ c ≠ 'b' := by
  intro d hd
  cases h with
  | plain hn =>
    obtain ⟨c, rest, rfl, hc⟩ := hn.head
    obtain rfl : c = d := Option.some.inj hd
    exact ne_accidental_of_isDigit hc
  | minus =>
    rw [← Option.some.inj hd]
    exact ⟨by decide, by decide⟩

/-- **`read? cs = some n` exactly if `IsSpelling cs n`**: the reader of note names accepts the
grammar. -/
theorem read?_eq_some_iff {cs : List Char} {n : NoteName} :
    read? cs = some n ↔ IsSpelling cs n := by
  constructor
  · intro h
    cases cs with
    | nil => exact absurd h (by simp [read?])
    | cons c cs =>
      have hread := Accidental.chars_read cs
      rw [read?] at h
      split at h
      next accidental tail haccidental =>
      rw [haccidental] at hread
      split at h
      · next letter octave hletter hoctave =>
        obtain rfl := Option.some.inj h
        refine ⟨tail, ?_, readOctave?_eq_some_iff.1 hoctave⟩
        rw [Letter.ofChar?_eq_some_iff.1 hletter, ← hread]
      · exact absurd h (by simp)
  · rintro ⟨octave, rfl, hoctave⟩
    rw [read?, Accidental.read_append _ hoctave.ne_accidental]
    dsimp only
    rw [Letter.ofChar?_eq_some_iff.2 rfl, readOctave?_eq_some_iff.2 hoctave]

end NoteName

end Monochord
