import Monochord.Proofs.Fundamental
import Monochord.Proofs.NoteName

/-! # The chromatic scale

Twelve names stand for the keys of an octave, from C upwards, and octaves follow each other without
a gap. A name with a flat stands for the key of a name with a sharp, except that nothing stands
between E and F or between B and C.

* **`sharpNames`** — the twelve names of `keyOffsets`; **`NoteName.offset?_eq`**: the distance from A
  counts them.
* **`NoteName.semitones?_eq_some_iff`** — the distance from the reference pitch counts the keys.
* **`NoteName.isSpelling_text`**, **`noteSemitones_of_isSpelling`** — every note name can be
  written, and all its spellings have the same distance.
* **`noteFrequency_unnamed_iff`** — which names are refused.
* **`noteSemitones_chromatic`** — every distance is that of exactly one of the names in exactly one
  octave. -/

namespace Monochord

open Text

/-! ## Names of keys -/

/-- The names of the keys of an octave, upwards from C and without flats. -/
def sharpNames : List String := keyOffsets.map (·.1)

/-- The names that stand for no key of their own, since two letters are neighbours there. -/
def keylessNames : List String := ["E#", "B#", "Fb", "Cb"]

namespace NoteName

/-- `n.offset?` counts the keys of the octave from A, which is the tenth of them:
`idxOf (sharpName n.key) - 9`. -/
theorem offset?_eq (n : NoteName) :
    n.offset? =
      if sharpName n.key ∈ sharpNames then some ((sharpNames.idxOf (sharpName n.key) : ℤ) - 9)
      else none := by
  obtain ⟨letter, accidental, octave⟩ := n
  cases letter <;> cases accidental <;> rfl

/-- `sharpName n.key` is a key exactly if `n.key` is none of `keylessNames`. -/
theorem sharpName_mem_iff (n : NoteName) : sharpName n.key ∈ sharpNames ↔ n.key ∉ keylessNames := by
  -- the octave does not matter
  have h : ∀ letter accidental, sharpName (key ⟨letter, accidental, 0⟩) ∈ sharpNames ↔
      key ⟨letter, accidental, 0⟩ ∉ keylessNames := by
    intro letter accidental
    cases letter <;> cases accidental <;> decide
  exact h n.letter n.accidental

/-- `sharpName name = name` for the names without flats. -/
theorem sharpName_eq_self : ∀ name ∈ sharpNames, sharpName name = name := by decide

/-- Each of `sharpNames` is the `key` of a letter with or without a sharp. -/
theorem exists_key_eq (octave : ℤ) :
    ∀ name ∈ sharpNames, ∃ letter accidental, key ⟨letter, accidental, octave⟩ = name := by
  simp only [sharpNames, keyOffsets, List.map_cons, List.map_nil, List.forall_mem_cons]
  exact ⟨⟨.c, .none, rfl⟩, ⟨.c, .sharp, rfl⟩, ⟨.d, .none, rfl⟩, ⟨.d, .sharp, rfl⟩, ⟨.e, .none, rfl⟩,
    ⟨.f, .none, rfl⟩, ⟨.f, .sharp, rfl⟩, ⟨.g, .none, rfl⟩, ⟨.g, .sharp, rfl⟩, ⟨.a, .none, rfl⟩,
    ⟨.a, .sharp, rfl⟩, ⟨.b, .none, rfl⟩, fun _ h => absurd h List.not_mem_nil⟩

/-- A note name is given by its `key` and its `octave`. -/
theorem eq_of_key_eq {n m : NoteName} (hkey : n.key = m.key) (hoctave : n.octave = m.octave) :
    n = m := by
  obtain ⟨hchar, hchars⟩ := List.cons.inj (String.ofList_inj.1 hkey)
  have hletter : some n.letter = some m.letter := by
    rw [← Letter.ofChar?_eq_some_iff.2 hchar, Letter.ofChar?_eq_some_iff.2 rfl]
  have haccidental : n.accidental = m.accidental := by
    have hread : Accidental.read (n.accidental.chars ++ []) = (n.accidental, []) :=
      n.accidental.read_append (by simp)
    rw [hchars, m.accidental.read_append (by simp)] at hread
    exact (Prod.mk.inj hread).1.symm
  obtain ⟨letter, accidental, octave⟩ := n
  obtain rfl := Option.some.inj hletter
  obtain rfl := haccidental
  obtain rfl := hoctave
  rfl

/-! ## Distances -/

/-- **`n.semitones?` counts the keys**, twelve to an octave, from the reference pitch on: it is
`12 * n.octave + idxOf (sharpName n.key) - 57`. -/
theorem semitones?_eq_some_iff {n : NoteName} {k : ℤ} :
    n.semitones? = some k ↔ sharpName n.key ∈ sharpNames ∧
      k = 12 * n.octave + sharpNames.idxOf (sharpName n.key) - 57 := by
  rw [semitones?, offset?_eq]
  split
  · next hmem =>
    rw [Option.map_some, Option.some_inj, referenceOctave]
    constructor
    · rintro rfl
      exact ⟨hmem, by ring⟩
    · rintro ⟨-, rfl⟩
      ring
  · next hmem => simp [hmem]

/-- `sharpNames.idxOf name < 12` for the names without flats. -/
theorem idxOf_lt {name : String} (h : name ∈ sharpNames) : sharpNames.idxOf name < 12 :=
  List.idxOf_lt_length_of_mem h

/-- Two names have the same `semitones?` exactly if they are names for one key of one octave. -/
theorem semitones?_inj_iff {n m : NoteName} {k l : ℤ} (hn : n.semitones? = some k)
    (hm : m.semitones? = some l) :
    k = l ↔ n.octave = m.octave ∧ sharpName n.key = sharpName m.key := by
  obtain ⟨hnmem, rfl⟩ := semitones?_eq_some_iff.1 hn
  obtain ⟨hmmem, rfl⟩ := semitones?_eq_some_iff.1 hm
  have hnlt := idxOf_lt hnmem
  have hmlt := idxOf_lt hmmem
  constructor
  · intro h
    -- the octave is the quotient by twelve, and the key the remainder
    exact ⟨by omega, (List.idxOf_inj hnmem).1 (by omega)⟩
  · rintro ⟨hoctave, hname⟩
    rw [hoctave, hname]

/-- Names without flats that have the same `semitones?` are equal. -/
theorem eq_of_semitones? {n m : NoteName} {k : ℤ} (hn : n.key ∈ sharpNames)
    (hm : m.key ∈ sharpNames) (hnk : n.semitones? = some k) (hmk : m.semitones? = some k) :
    n = m := by
  obtain ⟨hoctave, hname⟩ := (semitones?_inj_iff hnk hmk).1 rfl
  rw [sharpName_eq_self _ hn, sharpName_eq_self _ hm] at hname
  exact eq_of_key_eq hname hoctave

/-- Every integer `k` is `n.semitones?` of a name without a flat. -/
theorem exists_semitones?_eq (k : ℤ) :
    ∃ n : NoteName, n.key ∈ sharpNames ∧ n.semitones? = some k := by
  have hlt : ((k + 57) % 12).toNat < sharpNames.length := by
    rw [show sharpNames.length = 12 from rfl]
    omega
  have hmem := List.getElem_mem hlt
  obtain ⟨letter, accidental, hkey⟩ := exists_key_eq ((k + 57) / 12) _ hmem
  refine ⟨⟨letter, accidental, (k + 57) / 12⟩, hkey ▸ hmem, ?_⟩
  rw [semitones?_eq_some_iff, hkey, sharpName_eq_self _ hmem,
    List.Nodup.idxOf_getElem (by decide) _ hlt]
  dsimp only
  exact ⟨hmem, by omega⟩

/-- One octave up, `semitones?` is greater by twelve. -/
theorem semitones?_octave {n : NoteName} {k : ℤ} (h : n.semitones? = some k) :
    semitones? { n with octave := n.octave + 1 } = some (k + 12) := by
  obtain ⟨hmem, rfl⟩ := semitones?_eq_some_iff.1 h
  refine semitones?_eq_some_iff.2 ⟨hmem, ?_⟩
  change _ = 12 * (n.octave + 1) + (sharpNames.idxOf (sharpName n.key) : ℤ) - 57
  ring

/-- `n.semitones? = none` exactly for the four names of `keylessNames`. -/
theorem semitones?_eq_none_iff {n : NoteName} : n.semitones? = none ↔ n.key ∈ keylessNames := by
  rw [semitones?, offset?_eq, ← not_iff_not, ← sharpName_mem_iff]
  split
  · next hmem => simp [hmem]
  · next hmem => simp [hmem]

/-! ## Texts -/

/-- A note name as it is usually written. -/
def text (n : NoteName) : String := n.key ++ toString n.octave

/-- `toString octave` satisfies `IsOctave`: digits, with a minus sign in front of a negative number.
-/
theorem isOctave_toString (octave : ℤ) : IsOctave (toString octave).toList octave := by
  have hdigits (n : ℕ) : IsMagnitude (toString n).toList n := by
    rw [toList_toString]
    exact ⟨_, _, (isDigits_digits n).digitRun, Nat.toDigits_ne_nil, ofDigits_digits n, .inl rfl⟩
  cases octave with
  | ofNat n => exact .plain (hdigits n)
  | negSucc n =>
    have hminus : (toString (Int.negSucc n)).toList = '-' :: (toString (n + 1)).toList := by
      show ("-" ++ toString (n + 1)).toList = _
      rw [String.toList_append]
      rfl
    rw [hminus]
    exact .minus (hdigits (n + 1))

/-- **`n.text` spells `n`.** -/
theorem isSpelling_text (n : NoteName) : IsSpelling n.text.toList n := by
  refine ⟨(toString n.octave).toList, ?_, isOctave_toString n.octave⟩
  rw [text, key, String.toList_append, String.toList_ofList, List.cons_append]

end NoteName

/-- `noteSemitones text = n.semitones?` if `text` spells `n`, and a complaint if there is none. -/
theorem noteSemitones_of_isSpelling {text : String} {n : NoteName}
    (h : NoteName.IsSpelling text.toList n) :
    noteSemitones text = n.semitones?.elim (complain (.noteUnnamed n.key)) .ok := by
  rw [noteSemitones, NoteName.read?_eq_some_iff.2 h]
  dsimp only
  cases n.semitones? with
  | none => rfl
  | some k => rfl

/-- `noteSemitones text = complain (.noteMalformed text)` if `text` spells no note name. -/
theorem noteSemitones_of_not_isSpelling {text : String}
    (h : ∀ n, ¬NoteName.IsSpelling text.toList n) :
    noteSemitones text = complain (.noteMalformed text) := by
  have hread : NoteName.read? text.toList = none :=
    Option.eq_none_iff_forall_ne_some.2 fun n hn => h n (NoteName.read?_eq_some_iff.1 hn)
  rw [noteSemitones, hread]

/-- `noteSemitones n.text = .ok k` exactly if `n.semitones? = some k`. -/
theorem noteSemitones_text_iff {n : NoteName} {k : ℤ} :
    noteSemitones n.text = .ok k ↔ n.semitones? = some k := by
  rw [noteSemitones_of_isSpelling n.isSpelling_text]
  cases n.semitones? with
  | none => simp [complain]
  | some l => simp

/-- **`noteFrequency` complains with `.invalidNoteName`** exactly about the spellings of
`keylessNames`. -/
theorem noteFrequency_unnamed_iff {text : String} {n : NoteName}
    (h : NoteName.IsSpelling text.toList n) :
    (∃ d, noteFrequency text = .error (.diagnosed d) ∧ d.kind = .invalidNoteName) ↔
      n.key ∈ keylessNames := by
  rw [← NoteName.semitones?_eq_none_iff]
  have htext := noteSemitones_of_isSpelling h
  cases hn : n.semitones? with
  | none =>
    rw [hn] at htext
    refine iff_of_true ⟨(Cause.noteUnnamed n.key).diagnostic, ?_, rfl⟩ rfl
    rw [noteFrequency_eq, htext]
    rfl
  | some k =>
    rw [hn] at htext
    refine iff_of_false ?_ (by simp)
    rintro ⟨d, hd, -⟩
    rw [noteFrequency_of_semitones htext] at hd
    split at hd
    · exact absurd hd (by simp)
    · exact absurd (frequencyAbove_eq_error hd) (by simp)

/-- **Note names number the chromatic scale**, without gaps and without collisions. All spellings of
a note name `n` have the same `noteSemitones`, from which the frequency is computed. Every integer
is `noteSemitones n.text` of exactly one name without a flat in one octave; the next octave is
twelve semitones up; only names for one key in one octave have the same distance; and the four names
that stand for no key are refused. -/
theorem noteSemitones_chromatic :
    (∀ text n, NoteName.IsSpelling text.toList n → noteSemitones text = noteSemitones n.text ∧
      ∀ k, noteSemitones text = .ok k → noteFrequency text =
        if exceedsDigitLimit text.toList then .error .tooManyDigits else frequencyAbove k) ∧
    (∀ text, (∀ n, ¬NoteName.IsSpelling text.toList n) →
      noteSemitones text = complain (.noteMalformed text)) ∧
    (∀ k, ∃! n : NoteName, n.key ∈ sharpNames ∧ noteSemitones n.text = .ok k) ∧
    (∀ (n : NoteName) k, noteSemitones n.text = .ok k →
      noteSemitones (NoteName.text { n with octave := n.octave + 1 }) = .ok (k + 12)) ∧
    (∀ (n m : NoteName) k l, noteSemitones n.text = .ok k → noteSemitones m.text = .ok l →
      (k = l ↔ n.octave = m.octave ∧ sharpName n.key = sharpName m.key)) ∧
    ∀ text n, NoteName.IsSpelling text.toList n →
      ((∃ d, noteFrequency text = .error (.diagnosed d) ∧ d.kind = .invalidNoteName) ↔
        n.key ∈ keylessNames) := by
  refine ⟨fun text n h => ⟨?_, fun k => noteFrequency_of_semitones⟩,
    fun text => noteSemitones_of_not_isSpelling, fun k => ?_, fun n k h => ?_,
    fun n m k l hn hm => ?_, fun text n => noteFrequency_unnamed_iff⟩
  · rw [noteSemitones_of_isSpelling h, noteSemitones_of_isSpelling n.isSpelling_text]
  · simp only [noteSemitones_text_iff]
    obtain ⟨n, hn, hk⟩ := NoteName.exists_semitones?_eq k
    exact ⟨n, ⟨hn, hk⟩, fun m hm => NoteName.eq_of_semitones? hm.1 hn hm.2 hk⟩
  · exact noteSemitones_text_iff.2 (NoteName.semitones?_octave (noteSemitones_text_iff.1 h))
  · exact NoteName.semitones?_inj_iff (noteSemitones_text_iff.1 hn) (noteSemitones_text_iff.1 hm)

/-- Digits of other scripts and a line feed at the end change nothing, and an octave above B of
octave 3 is B of octave 4. -/
theorem noteSemitones_chromatic_lineFeed :
    noteSemitones "B٣\n" = .ok (-10) ∧ noteSemitones "B4" = .ok 2 := by
  obtain ⟨hspelling, -, -, hoctave, -⟩ := noteSemitones_chromatic
  have hb : noteSemitones (NoteName.text ⟨.b, .none, 3⟩) = .ok (-10) := by decide
  have htext : NoteName.IsSpelling "B٣\n".toList ⟨.b, .none, 3⟩ :=
    NoteName.read?_eq_some_iff.1 (by decide)
  constructor
  · rw [(hspelling _ _ htext).1, hb]
  · exact hoctave ⟨.b, .none, 3⟩ _ hb

end Monochord
