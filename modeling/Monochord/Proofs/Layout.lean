import Monochord.Proofs.Assignment

/-! # Layouts of chord lines

A chord line is a fundamental, a colon and any parts in any order, with any blanks around each of
them. Whatever the layout, the line is read as the chord of which it consists, or refused for the
first part that cannot be read.

* **`Assignment`**, **`Part`** — a part of a line together with what is known of its text.
* **`LineLayout`**, **`LineLayout.text`** — a line that is put together from parts and blanks.
* **`readParts_map_text`** — every part is read as what it is.
* **`readLine_layout`** — what is read from a line in any layout. -/

namespace Monochord

open Text Binary64

/-! ## Assignments -/

/-- A text of blanks. -/
abbrev Blanks := {cs : List Char // IsBlanks cs}

/-- An assignment of the duration, in any mix of cases and with any blanks around the equals sign.
The value is decimal, and the double that is nearest to it is finite and positive. -/
structure Assignment where
  /-- The keyword as it is written. -/
  keyword : List Char
  /-- The blanks before the equals sign. -/
  before : Blanks
  /-- The blanks behind it. -/
  after : Blanks
  /-- The digits before the point. -/
  whole : List Char
  /-- The digits behind the point; without any there is no point. -/
  fraction : List Char
  /-- The double that is nearest to the value. -/
  duration : Float
  /-- The keyword is written in ASCII letters of any case. -/
  spells : keyword.map lower = durationKeyword
  /-- There are only digits before the point. -/
  isDigits_whole : IsDigits whole
  /-- There are only digits behind the point. -/
  isDigits_fraction : IsDigits fraction
  /-- There is a digit. -/
  ne_nil : whole ++ fraction ≠ []
  /-- No other double is nearer to the value. -/
  nearest : IsPattern (decimalValue whole fraction) (pattern duration)
  /-- The double is finite. -/
  finite : duration.isFinite = true
  /-- The double is positive. -/
  positive : 0.0 < duration

namespace Assignment

/-- The value as it is written. -/
def value (a : Assignment) : List Char := pointed a.whole a.fraction

/-- The text of an assignment. -/
def text (a : Assignment) : List Char :=
  a.keyword ++ (a.before.1 ++ '=' :: (a.after.1 ++ a.value))

/-- `StartsDecimal a.value a.whole a.fraction`, and nothing follows. -/
theorem startsDecimal (a : Assignment) : StartsDecimal a.value a.whole a.fraction := by
  unfold value pointed
  have hne := a.ne_nil
  split
  · next hnil =>
    rw [hnil, List.append_nil] at hne
    rw [hnil]
    exact .whole a.isDigits_whole hne
  · have h := StartsDecimal.point a.isDigits_whole a.isDigits_fraction hne
      (show ∀ c ∈ ([] : List Char).head?, c = '.' from fun c hc => absurd hc (by simp))
    rw [List.append_nil] at h
    exact h

/-- `HasValue a.value a.duration`: the written value stands for the duration. -/
theorem hasValue (a : Assignment) : HasValue a.value a.duration where
  nearest := ⟨a.whole, a.fraction, a.startsDecimal, a.nearest⟩
  finite := a.finite
  positive := a.positive

/-- All characters of `a.value` are digits and points. -/
theorem isValueChar (a : Assignment) : ∀ c ∈ a.value, isValueChar c = true := by
  have hdigit {c : Char} (hc : c.isDigit = true) : Monochord.isValueChar c = true := by
    rw [Monochord.isValueChar, Bool.or_eq_true]
    exact .inl hc
  intro c hc
  unfold value pointed at hc
  split at hc
  · exact hdigit (a.isDigits_whole c hc)
  · rcases List.mem_append.1 hc with hc | hc
    · exact hdigit (a.isDigits_whole c hc)
    · rcases List.mem_cons.1 hc with rfl | hc
      · decide
      · exact hdigit (a.isDigits_fraction c hc)

/-- The written value is not empty. -/
theorem value_ne_nil (a : Assignment) : a.value ≠ [] := by
  unfold value pointed
  have hne := a.ne_nil
  split
  · next hnil => simpa [hnil] using hne
  · simp

/-- `c` counts as a letter of the keyword that is `lower c`. -/
theorem isKeywordLetter_lower (c : Char) : isKeywordLetter (lower c) c = true := by
  simp [isKeywordLetter]

/-- `SpellsKeyword a.keyword`. -/
theorem spellsKeyword (a : Assignment) : SpellsKeyword a.keyword := by
  rw [SpellsKeyword, ← a.spells, List.forall₂_map_left_iff, List.forall₂_same]
  intro c _
  exact isKeywordLetter_lower c

/-- **`Assigns a.text a.value`**: an assignment assigns its value. -/
theorem assigns (a : Assignment) : Assigns a.text a.value := by
  have h := AssignsHere.intro a.spellsKeyword a.before.2 a.after.2 a.value_ne_nil a.isValueChar
    (show ∀ c ∈ ([] : List Char).head?, Monochord.isValueChar c = false from
      fun c hc => absurd hc (by simp))
  rw [List.append_nil] at h
  exact .here h

/-- `readDuration a.text = .ok a.duration`. -/
theorem readDuration_text (a : Assignment) : readDuration a.text = .ok a.duration :=
  readDuration_eq_ok_iff.2 ⟨a.value, a.assigns, a.hasValue⟩

/-- `a.text` starts with the keyword. -/
theorem startsWithKeyword_text (a : Assignment) : startsWithKeyword a.text = true := by
  have hlength : a.keyword.length = durationKeyword.length := by
    rw [← a.spells, List.length_map]
  rw [startsWithKeyword, text, ← hlength, List.take_left, a.spells, beq_self_eq_true]

/-- A character whose `lower` is a letter of the keyword is neither blank nor a comma. -/
theorem plain_of_lower {c : Char} (h : lower c ∈ durationKeyword) :
    isBlank c = false ∧ c ≠ ',' := by
  by_cases hupper : 'A' ≤ c ∧ c ≤ 'Z'
  · have hlow : 65 ≤ c.toNat := hupper.1
    have hhigh : c.toNat ≤ 90 := hupper.2
    refine ⟨?_, ?_⟩
    · simp only [isBlank, Bool.or_eq_false_iff, Bool.and_eq_false_iff, decide_eq_false_iff_not,
        beq_eq_false_iff_ne]
      omega
    · rintro rfl
      exact absurd hlow (by decide)
  · have hlower : lower c = c := if_neg hupper
    rw [hlower] at h
    have hall : durationKeyword.all (fun d => !isBlank d && d != ',') = true := by decide
    simpa using List.all_eq_true.1 hall c h

/-- The characters of `a.keyword` are neither blank nor commas. -/
theorem keyword_plain (a : Assignment) : ∀ c ∈ a.keyword, isBlank c = false ∧ c ≠ ',' := by
  intro c hc
  refine plain_of_lower ?_
  rw [← a.spells]
  exact List.mem_map_of_mem hc

end Assignment

/-! ## Parts -/

/-- A text between two commas, without the blanks around it. -/
structure IsPart (cs : List Char) : Prop where
  /-- It has no blanks around it. -/
  trim : trim cs = cs
  /-- It has no comma. -/
  comma : ',' ∉ cs

/-- A part of a chord line. -/
inductive Part
  /-- An interval symbol, which may be any text that does not start with the keyword. -/
  | interval (symbol : List Char) (hpart : IsPart symbol) (hne : symbol ≠ [])
    (hkeyword : startsWithKeyword symbol = false)
  /-- An assignment of the duration. -/
  | assignment (a : Assignment)
  /-- Nothing but blanks. -/
  | blank
  /-- A text that starts with the keyword and has no value that can be read. -/
  | unreadable (cs : List Char) (hpart : IsPart cs) (hkeyword : startsWithKeyword cs = true)
    (cause : Cause) (hcause : Unreadable cs cause)

namespace Part

/-- The text of a part. -/
def text : Part → List Char
  | interval symbol _ _ _ => symbol
  | assignment a => a.text
  | blank => []
  | unreadable cs _ _ _ _ => cs

/-- The interval that a part names. -/
def symbol? : Part → Option String
  | interval symbol _ _ _ => some (String.ofList symbol)
  | _ => none

/-- The duration that a part assigns. -/
def duration? : Part → Option Float
  | assignment a => some a.duration
  | _ => none

/-- What is complained about in a part. -/
def cause? : Part → Option Cause
  | unreadable _ _ _ cause _ => some cause
  | _ => none

/-- **`IsPart p.text`**: no comma and no blanks at the ends, so that the texts of all parts are
found again between the commas. -/
theorem isPart_text (p : Part) : IsPart p.text := by
  cases p with
  | interval symbol hpart hne hkeyword => exact hpart
  | blank => exact ⟨rfl, List.not_mem_nil⟩
  | unreadable cs hpart hkeyword cause hcause => exact hpart
  | assignment a =>
    constructor
    · -- the first character is one of the keyword, and the last one belongs to the value
      refine trim_eq_self (fun c hc => ?_) fun c hc => ?_
      · have hne : a.keyword ≠ [] := by
          intro hnil
          have h := a.spells
          rw [hnil] at h
          exact absurd h (by decide)
        rw [text, Assignment.text, List.head?_append_of_ne_nil _ hne] at hc
        exact (a.keyword_plain c (List.mem_of_mem_head? hc)).1
      · have hsplit : a.text = (a.keyword ++ (a.before.1 ++ '=' :: a.after.1)) ++ a.value := by
          simp [Assignment.text]
        rw [text, hsplit, List.getLast?_append_of_ne_nil _ a.value_ne_nil] at hc
        exact (isValueChar_plain (a.isValueChar c (List.mem_of_mem_getLast? hc))).1
    · intro hmem
      have hblanks (bs : Blanks) : ',' ∉ bs.1 := fun h => absurd (bs.2 _ h) (by decide)
      simp only [text, Assignment.text, List.mem_append, List.mem_cons] at hmem
      rcases hmem with hmem | hmem | hmem | hmem | hmem
      · exact (a.keyword_plain _ hmem).2 rfl
      · exact hblanks _ hmem
      · exact absurd hmem (by decide)
      · exact hblanks _ hmem
      · exact (isValueChar_plain (a.isValueChar _ hmem)).2.1 rfl

end Part

/-- The intervals that `parts` name, in the order in which they are written. -/
def symbolsOf (parts : List Part) : List String := parts.filterMap Part.symbol?

/-- The duration that is assigned last, or `duration` if there is none. -/
def durationOf (parts : List Part) (duration : Float) : Float :=
  (parts.filterMap Part.duration?).getLast?.getD duration

/-- The complaint about the first part that cannot be read. -/
def causeOf? (parts : List Part) : Option Cause := parts.findSome? Part.cause?

/-- **Every part is read as what it is**: `readParts` complains about `causeOf? parts`, or gives
`symbolsOf parts` and `durationOf parts duration`. -/
theorem readParts_map_text (parts : List Part) (duration : Float) :
    readParts (parts.map Part.text) duration =
      match causeOf? parts with
      | some cause => complain cause
      | none => .ok (symbolsOf parts, durationOf parts duration) := by
  induction parts generalizing duration with
  | nil => rfl
  | cons p parts ih =>
    rw [List.map_cons, readParts]
    cases p with
    | interval symbol hpart hne hkeyword =>
      have hempty : symbol.isEmpty = false := List.isEmpty_eq_false_iff.2 hne
      simp only [Part.text, hkeyword, hempty, Bool.false_eq_true, if_false, ih]
      simp only [causeOf?, List.findSome?_cons, Part.cause?]
      cases parts.findSome? Part.cause? with
      | some cause => rfl
      | none => rfl
    | assignment a =>
      simp only [Part.text, a.startsWithKeyword_text, if_true, a.readDuration_text, ok_bind, ih]
      simp only [causeOf?, List.findSome?_cons, Part.cause?]
      cases parts.findSome? Part.cause? with
      | some cause => rfl
      | none =>
        simp [symbolsOf, durationOf, Part.symbol?, Part.duration?, List.getLast?_cons,
          List.filterMap_cons]
    | blank =>
      have hkeyword : startsWithKeyword [] = false := by decide
      simp only [Part.text, hkeyword, List.isEmpty_nil, Bool.false_eq_true, if_false, if_true, ih]
      rfl
    | unreadable cs hpart hkeyword cause hcause =>
      simp only [Part.text, hkeyword, if_true, readDuration_of_unreadable hcause]
      rfl

/-! ## Lines -/

/-- A part with blanks around it. -/
structure PaddedPart where
  /-- The blanks in front. -/
  before : Blanks
  /-- The part. -/
  part : Part
  /-- The blanks behind. -/
  after : Blanks

/-- The text of a part with its blanks. -/
def PaddedPart.text (p : PaddedPart) : List Char := p.before.1 ++ p.part.text ++ p.after.1

/-- A chord line that is put together from a fundamental and parts. The fundamental may be any text
without a colon that does not start a comment. -/
structure LineLayout where
  /-- The blanks in front of the line. -/
  before : Blanks
  /-- The fundamental. -/
  fundamental : List Char
  /-- The blanks before the colon. -/
  beforeColon : Blanks
  /-- The parts, of which the blanks in front of the first one stand behind the colon. -/
  padded : List PaddedPart
  /-- The blanks behind the line. -/
  after : Blanks
  /-- The fundamental has no colon. -/
  colon : ':' ∉ fundamental
  /-- The fundamental has no blanks around it. -/
  trim : trim fundamental = fundamental
  /-- The line is no comment that starts with a hash. -/
  hash : ¬['#'] <+: fundamental
  /-- The line is no comment that starts with slashes. -/
  slashes : ¬['/', '/'] <+: fundamental

namespace LineLayout

/-- The fundamental and the blanks behind it. -/
def head (l : LineLayout) : List Char := l.fundamental ++ l.beforeColon.1

/-- The parts with commas between them. -/
def tail (l : LineLayout) : List Char := [','].intercalate (l.padded.map PaddedPart.text)

/-- The characters of a line. -/
def chars (l : LineLayout) : List Char := l.before.1 ++ (l.head ++ ':' :: l.tail) ++ l.after.1

/-- The text of a line. -/
def text (l : LineLayout) : String := String.ofList l.chars

/-- The parts of a line. -/
def parts (l : LineLayout) : List Part := l.padded.map PaddedPart.part

/-- `trim l.chars` is the head, the colon and the tail without the blanks at both ends. -/
theorem trim_chars (l : LineLayout) :
    Text.trim l.chars = dropBlanks l.head ++ ':' :: dropTrailingBlanks l.tail := by
  rw [chars, trim_append_blanks l.after.2, trim_blanks_append l.before.2,
    trim_append_cons (by decide)]

/-- `dropBlanks l.head = l.head` if the fundamental is not empty. -/
theorem dropBlanks_head (l : LineLayout) (hne : l.fundamental ≠ []) :
    dropBlanks l.head = l.head := by
  have hfundamental := dropBlanks_eq_self_of_trim l.trim
  rw [head, dropBlanks_append_of_ne_nil (by rw [hfundamental]; exact hne), hfundamental]

/-- **The line is no comment**: `isCommentTrimmed (trim l.chars) = false`. -/
theorem isCommentTrimmed_chars (l : LineLayout) :
    isCommentTrimmed (Text.trim l.chars) = false := by
  rw [trim_chars]
  by_cases hnil : l.fundamental = []
  · -- the colon is the first character
    rw [head, hnil, List.nil_append, dropBlanks_blanks l.beforeColon.2]
    rfl
  · obtain ⟨c, cs, hcs⟩ := List.exists_cons_of_ne_nil hnil
    have hhash := l.hash
    have hslashes := l.slashes
    rw [l.dropBlanks_head hnil, head]
    rw [hcs] at hhash hslashes ⊢
    simp only [List.cons_append]
    unfold isCommentTrimmed
    split
    · next heq => exact absurd heq (by simp)
    · next heq =>
      rw [(List.cons.inj heq).1] at hhash
      exact absurd (by simp) hhash
    · next heq =>
      -- a second slash would have to belong to the fundamental
      rw [(List.cons.inj heq).1] at hslashes
      have hsecond := (List.cons.inj heq).2
      cases cs with
      | cons d ds =>
        rw [(List.cons.inj hsecond).1] at hslashes
        exact absurd (by simp) hslashes
      | nil =>
        have hblanks := l.beforeColon.2
        cases hpad : l.beforeColon.1 with
        | nil =>
          rw [hpad] at hsecond
          exact absurd (List.cons.inj hsecond).1 (by decide)
        | cons b bs =>
          rw [hpad] at hsecond hblanks
          have hb := hblanks b List.mem_cons_self
          rw [(List.cons.inj hsecond).1] at hb
          exact absurd hb (by decide)
    · rfl

/-- `trim` of the head is `l.fundamental`. -/
theorem trim_dropBlanks_head (l : LineLayout) : Text.trim (dropBlanks l.head) = l.fundamental := by
  rw [trim_dropBlanks, head, trim_append_blanks l.beforeColon.2, l.trim]

/-- There is no `':'` in the head. -/
theorem colon_head (l : LineLayout) : ':' ∉ dropBlanks l.head := by
  intro hmem
  rcases List.mem_append.1 ((List.dropWhile_suffix isBlank).subset hmem) with hmem | hmem
  · exact l.colon hmem
  · exact absurd (l.beforeColon.2 _ hmem) (by decide)

/-- `trim p.text = p.part.text` for a part between its blanks. -/
theorem trim_padded (p : PaddedPart) : Text.trim p.text = p.part.text := by
  rw [PaddedPart.text, trim_append_blanks p.after.2, trim_blanks_append p.before.2,
    p.part.isPart_text.trim]

/-- There is no `','` in the text of a part with its blanks. -/
theorem comma_padded (p : PaddedPart) : ',' ∉ p.text := by
  have hblanks (bs : Blanks) : ',' ∉ bs.1 := fun h => absurd (bs.2 _ h) (by decide)
  rw [PaddedPart.text, List.mem_append, List.mem_append, not_or, not_or]
  exact ⟨⟨hblanks _, p.part.isPart_text.comma⟩, hblanks _⟩

/-- **The trimmed texts between the commas are those of `l.parts`**, whatever blanks stand around
them. A line without parts has one empty text behind its colon. -/
theorem map_trim_splitOn_tail (l : LineLayout) :
    (splitOn ',' (dropTrailingBlanks l.tail)).map Text.trim =
      if l.parts = [] then [[]] else l.parts.map Part.text := by
  obtain ⟨bs, hbs, hsplit⟩ := exists_dropTrailingBlanks_eq l.tail
  have hblanks := map_trim_splitOn_append_blanks (show isBlank ',' = false from by decide) hbs
    (dropTrailingBlanks l.tail)
  rw [← hsplit] at hblanks
  rw [← hblanks, tail, parts]
  by_cases hnil : l.padded = []
  · rw [hnil]
    rfl
  · have hne : l.padded.map PaddedPart.text ≠ [] := by simpa using hnil
    have hcomma : ∀ cs ∈ l.padded.map PaddedPart.text, ',' ∉ cs := by
      intro cs hcs
      obtain ⟨p, -, rfl⟩ := List.mem_map.1 hcs
      exact comma_padded p
    rw [splitOn_intercalate hne hcomma, if_neg (by simpa using hnil), List.map_map, List.map_map]
    exact List.map_congr_left fun p _ => trim_padded p

/-- **The parts of the line are read**: `readParts` of its tail is that of `l.parts`. -/
theorem readParts_tail (l : LineLayout) :
    readParts ((splitOn ',' (dropTrailingBlanks l.tail)).map Text.trim) defaultDuration =
      match causeOf? l.parts with
      | some cause => complain cause
      | none => .ok (symbolsOf l.parts, durationOf l.parts defaultDuration) := by
  rw [map_trim_splitOn_tail]
  split
  · next hnil =>
    rw [hnil]
    rfl
  · exact readParts_map_text l.parts defaultDuration

/-- **`readLine l.text` is what the parts say**: a complaint about `causeOf? l.parts`, one about
missing intervals, or the chord of `symbolsOf l.parts` and `durationOf l.parts`. -/
theorem readLine_text (l : LineLayout) :
    readLine l.text =
      match causeOf? l.parts with
      | some cause => complain cause
      | none =>
        if symbolsOf l.parts = [] then
          complain (.lineWithoutIntervals (String.ofList l.fundamental))
        else .ok (some ⟨String.ofList l.fundamental, symbolsOf l.parts,
          .float (durationOf l.parts defaultDuration)⟩) := by
  rw [readLine, text, String.toList_ofList, readLineChars, l.isCommentTrimmed_chars,
    if_neg Bool.false_ne_true, trim_chars, readChord, cut?_append l.colon_head]
  dsimp only
  rw [l.readParts_tail, l.trim_dropBlanks_head]
  cases causeOf? l.parts with
  | some cause => rfl
  | none =>
    simp only [ok_bind, List.isEmpty_iff]
    split
    · rfl
    · rfl

end LineLayout

/-- The kind of `causeOf? parts` is `.invalidDurationFormat` or `.invalidDurationValue`. -/
theorem kind_of_causeOf? {parts : List Part} {cause : Cause} (h : causeOf? parts = some cause) :
    cause.diagnostic.kind = .invalidDurationFormat ∨
      cause.diagnostic.kind = .invalidDurationValue := by
  obtain ⟨p, -, hp⟩ := List.exists_of_findSome?_eq_some h
  cases p with
  | unreadable cs hpart hkeyword cause hcause =>
    obtain rfl := Option.some.inj hp
    cases hcause with
    | unassigned h => exact .inl rfl
    | notPositive h hvalue => exact .inr rfl
  | interval symbol hpart hne hkeyword => exact absurd hp (by simp [Part.cause?])
  | assignment a => exact absurd hp (by simp [Part.cause?])
  | blank => exact absurd hp (by simp [Part.cause?])

/-- **A chord line is read in every layout.** If some part starts with the keyword and has no value,
`readLine l.text` complains about the first such part. Otherwise a line with
`symbolsOf l.parts = []` is refused, and any other line has its fundamental, all its intervals in
the order in which they are written, and the duration that is assigned last, one if there is none.
-/
theorem readLine_layout (l : LineLayout) :
    (∀ cause, causeOf? l.parts = some cause →
      readLine l.text = complain cause ∧
        (cause.diagnostic.kind = .invalidDurationFormat ∨
          cause.diagnostic.kind = .invalidDurationValue)) ∧
    ((∀ p ∈ l.parts, p.cause? = none) → symbolsOf l.parts = [] →
      readLine l.text = complain (.lineWithoutIntervals (String.ofList l.fundamental))) ∧
    ((∀ p ∈ l.parts, p.cause? = none) → symbolsOf l.parts ≠ [] →
      readLine l.text = .ok (some
        { fundamental := String.ofList l.fundamental
          intervals := symbolsOf l.parts
          duration := .float (durationOf l.parts 1.0) })) := by
  have hread := l.readLine_text
  have hnone (h : ∀ p ∈ l.parts, p.cause? = none) : causeOf? l.parts = none :=
    List.findSome?_eq_none_iff.2 h
  refine ⟨fun cause h => ⟨?_, kind_of_causeOf? h⟩, fun h hnil => ?_, fun h hne => ?_⟩
  · rw [hread, h]
  · rw [hread, hnone h]
    exact if_pos hnil
  · rw [hread, hnone h]
    exact if_neg hne

/-- An assignment without digits before the point, in mixed case and between blanks. -/
def halfAssignment : Assignment where
  keyword := "dUrATIOn".toList
  before := ⟨['\u00a0'], by decide⟩
  after := ⟨['\t', ' '], by decide⟩
  whole := []
  fraction := ['5']
  duration := 0.5
  spells := by decide
  isDigits_whole := by decide
  isDigits_fraction := by decide
  ne_nil := by decide
  nearest := isPattern_decimalValue (by decide) (by decide +kernel)
  finite := by decide
  positive := by decide

/-- A line with an assignment and a blank part between two other parts. -/
def mixedLayout (first last : Part) : LineLayout where
  before := ⟨[' '], by decide⟩
  fundamental := "C 4".toList
  beforeColon := ⟨['\u3000'], by decide⟩
  padded :=
    [⟨⟨[], by decide⟩, first, ⟨[], by decide⟩⟩,
      ⟨⟨[], by decide⟩, .assignment halfAssignment, ⟨[' '], by decide⟩⟩,
      ⟨⟨[], by decide⟩, .blank, ⟨['\t'], by decide⟩⟩,
      ⟨⟨[' '], by decide⟩, last, ⟨[], by decide⟩⟩]
  after := ⟨['\r'], by decide⟩
  colon := by decide
  trim := by decide
  hash := by decide
  slashes := by decide

/-- A line with a colon in its last interval, one without intervals, and one in which an assignment
lacks its equals sign. -/
theorem readLine_mixedLayout :
    readLine " C 4\u3000:b3,dUrATIOn\u00a0=\t .5 ,\t, x:y\r" =
        .ok (some ⟨"C 4", ["b3", "x:y"], .float 0.5⟩) ∧
      readLine " C 4\u3000:,dUrATIOn\u00a0=\t .5 ,\t, \r" =
        complain (.lineWithoutIntervals "C 4") ∧
      readLine " C 4\u3000:b3,dUrATIOn\u00a0=\t .5 ,\t, DURATION 2\r" =
        complain (.durationNotAssigned "DURATION 2") := by
  have hunassigned : Unreadable "DURATION 2".toList (.durationNotAssigned "DURATION 2") :=
    .unassigned fun value h => by
      have hnone : assigned? "DURATION 2".toList = none := rfl
      rw [assigned?_eq_some_iff.2 h] at hnone
      exact absurd hnone (by simp)
  let first : Part := .interval "b3".toList ⟨by decide, by decide⟩ (by decide) (by decide)
  let last : Part := .interval "x:y".toList ⟨by decide, by decide⟩ (by decide) (by decide)
  let bad : Part :=
    .unreadable "DURATION 2".toList ⟨by decide, by decide⟩ (by decide) _ hunassigned
  refine ⟨?_, ?_, ?_⟩
  · exact (readLine_layout (mixedLayout first last)).2.2 (List.findSome?_eq_none_iff.1 rfl)
      (List.cons_ne_nil _ _)
  · exact (readLine_layout (mixedLayout .blank .blank)).2.1 (List.findSome?_eq_none_iff.1 rfl) rfl
  · exact ((readLine_layout (mixedLayout first bad)).1 _ rfl).1

end Monochord
