import Monochord.Proofs.Duration
import Monochord.Proofs.Sequence

/-! # Assignments inside parts

A part of a chord line that starts with the keyword assigns the value of the first assignment in it.
This module says in terms of the characters of the part which assignment that is and which number
its value denotes, and shows that the reader finds just them.

* **`StartsDecimal`**, **`HasValue`** — the decimal at the start of a text of digits and points, and
  the double that is nearest to it.
* **`leadingNumber?_accepted_iff`** — the reader of numbers finds that double.
* **`AssignsHere`**, **`Assigns`** — an assignment at the start of a text, and the first one in it.
* **`assigned?_eq_some_iff`** — the reader of parts finds it.
* **`readDuration_eq_ok_iff`** — which parts have a value.
* **`Unreadable`**, **`readDuration_of_unreadable`** — what is complained about in the others. -/

namespace Monochord

open Text Binary64

/-! ## Decimals -/

/-- A text of digits and points starts with a decimal: the digits before the first point, and those
between this point and the next one. One of the two runs may be empty. -/
inductive StartsDecimal : List Char → List Char → List Char → Prop
  /-- Digits without a point. -/
  | whole {whole : List Char} (hwhole : IsDigits whole) (hne : whole ≠ []) :
    StartsDecimal whole whole []
  /-- Digits around a point, which the end of the text or another point follows. -/
  | point {whole fraction rest : List Char} (hwhole : IsDigits whole)
    (hfraction : IsDigits fraction) (hne : whole ++ fraction ≠ [])
    (hrest : ∀ c ∈ rest.head?, c = '.') :
    StartsDecimal (whole ++ '.' :: (fraction ++ rest)) whole fraction

/-- The number that digits before and after a point write. -/
def decimalValue (whole fraction : List Char) : ℚ :=
  ofDigits (digitValues (whole ++ fraction)) * 10 ^ (-fraction.length : ℤ)

/-- The pattern nearest to a decimal can be computed. -/
theorem isPattern_decimalValue {whole fraction : List Char} {p : ℕ}
    (hp : p < infinityPattern)
    (h : Decimal.pattern ⟨ofDigits (digitValues (whole ++ fraction)), -fraction.length⟩ = p) :
    IsPattern (decimalValue whole fraction) p := (Decimal.pattern_eq_iff hp).1 h

/-- The double `x` that is nearest to the decimal at the start of `value`, if it is finite and
positive. -/
structure HasValue (value : List Char) (x : Float) : Prop where
  /-- The double is nearest to the decimal. -/
  nearest : ∃ whole fraction, StartsDecimal value whole fraction ∧
    IsPattern (decimalValue whole fraction) (pattern x)
  /-- The double is finite. -/
  finite : x.isFinite = true
  /-- The double is positive. -/
  positive : 0.0 < x

namespace Numeral

/-- `whole ++ '.' :: fraction` is a mantissa, with the values of these digits. -/
theorem isMantissa_point {whole fraction : List Char} (hwhole : IsDigits whole)
    (hfraction : IsDigits fraction) (hne : whole ++ fraction ≠ []) :
    IsMantissa (whole ++ '.' :: fraction) (digitValues whole) (digitValues fraction) := by
  by_cases hnil : whole = []
  · subst hnil
    exact .fraction hfraction.digitRun hne
  · exact .point hwhole.digitRun hnil hfraction.digitRun

/-- `readMantissa?` reads `whole ++ '.' :: fraction`, and leaves `rest` if that starts with another
point. -/
theorem readMantissa?_point {whole fraction rest : List Char} (hwhole : IsDigits whole)
    (hfraction : IsDigits fraction) (hne : whole ++ fraction ≠ [])
    (hrest : ∀ c ∈ rest.head?, c = '.') :
    readMantissa? (whole ++ '.' :: (fraction ++ rest)) =
      some (digitValues whole, digitValues fraction, rest) := by
  have hend : ∀ c ∈ rest.head?, digit? c = none := by
    intro c hc
    rw [hrest c hc]
    exact digit?_point
  rw [readMantissa?_point_append hwhole.digitRun hfraction.digitRun hne, takeDigits_eq_nil hend,
    dropDigits_eq_self hend, List.append_nil]

/-- **A decimal at the start of a text is read**: `read? value` has its digits and no exponent. -/
theorem read?_of_startsDecimal {value whole fraction : List Char}
    (h : StartsDecimal value whole fraction) :
    ∃ rest, read? value = some (⟨false, digitValues whole, digitValues fraction, 0⟩, rest) := by
  cases h with
  | whole hwhole hne =>
    refine ⟨[], ?_⟩
    have hread := (isLiteral_pointed hwhole hne isDigits_nil).read?_eq
    rw [pointed, if_pos rfl] at hread
    exact hread
  | @point _ _ rest hwhole hfraction hne hrest =>
    -- neither the end of the text nor a point is an exponent
    have hexponent : readExponent rest = (0, rest) := readExponent_eq_self fun c hc => by
      rw [hrest c hc]
      exact ⟨by decide, by decide⟩
    have hsign := (isMantissa_point hwhole hfraction hne).ne_sign rest
    rw [List.append_assoc, List.cons_append] at hsign
    have hread := read?_of_readMantissa? .absent hsign
      (readMantissa?_point hwhole hfraction hne hrest)
    rw [hexponent] at hread
    exact ⟨rest, hread⟩

end Numeral

/-- A text of digits and points is `whole ++ tail`, where `whole` has only digits, and `tail` is
empty or starts with a point. -/
theorem exists_isDigits_append {value : List Char} (h : ∀ c ∈ value, isValueChar c = true) :
    ∃ whole tail, value = whole ++ tail ∧ IsDigits whole ∧ ∀ c ∈ tail.head?, c = '.' := by
  induction value with
  | nil => exact ⟨[], [], rfl, isDigits_nil, fun c hc => absurd hc (by simp)⟩
  | cons c cs ih =>
    have hc := h c List.mem_cons_self
    rw [isValueChar, Bool.or_eq_true, beq_iff_eq] at hc
    rcases hc with hdigit | rfl
    · obtain ⟨whole, tail, rfl, hwhole, htail⟩ := ih fun d hd => h d (List.mem_cons_of_mem c hd)
      exact ⟨c :: whole, tail, rfl, List.forall_mem_cons.2 ⟨hdigit, hwhole⟩, htail⟩
    · exact ⟨[], '.' :: cs, rfl, isDigits_nil, fun d hd => (Option.some.inj hd).symm⟩

/-- `read? ('.' :: rest) = none` if `rest` is empty or starts with a point. -/
theorem Numeral.read?_point_eq_none {rest : List Char} (hrest : ∀ c ∈ rest.head?, c = '.') :
    read? ('.' :: rest) = none := by
  have htake : takeDigits rest = [] := takeDigits_eq_nil fun d hd => by
    rw [hrest d hd]
    exact digit?_point
  have hmantissa : readMantissa? ('.' :: rest) = none := by
    rw [readMantissa?, takeDigits, dropDigits, digit?_point]
    exact if_pos htake
  show (readMantissa? ('.' :: rest)).map _ = none
  rw [hmantissa]
  rfl

/-- **A text of digits and points starts with a decimal, or `Numeral.read?` finds nothing in it.**
-/
theorem startsDecimal_or_read?_eq_none {value : List Char}
    (h : ∀ c ∈ value, isValueChar c = true) :
    (∃ whole fraction, StartsDecimal value whole fraction) ∨ Numeral.read? value = none := by
  obtain ⟨whole, tail, rfl, hwhole, htail⟩ := exists_isDigits_append h
  cases tail with
  | nil =>
    -- only digits, if there are any
    rw [List.append_nil]
    by_cases hne : whole = []
    · right
      rw [hne]
      rfl
    · exact .inl ⟨whole, [], .whole hwhole hne⟩
  | cons c cs =>
    obtain rfl := htail c rfl
    have hcs : ∀ d ∈ cs, isValueChar d = true :=
      fun d hd => h d (List.mem_append_right whole (List.mem_cons_of_mem _ hd))
    obtain ⟨fraction, rest, rfl, hfraction, hrest⟩ := exists_isDigits_append hcs
    by_cases hne : whole ++ fraction = []
    · obtain ⟨rfl, rfl⟩ := List.append_eq_nil_iff.1 hne
      exact .inr (Numeral.read?_point_eq_none hrest)
    · exact .inl ⟨whole, fraction, .point hwhole hfraction hne hrest⟩

/-! ## Values -/

/-- `dropBlanks value = value` for a text of digits and points. -/
theorem dropBlanks_of_isValueChar {value : List Char} (h : ∀ c ∈ value, isValueChar c = true) :
    dropBlanks value = value :=
  dropBlanks_eq_self fun c hc => (isValueChar_plain (h c (List.mem_of_mem_head? hc))).1

/-- `n.toFloat = x` for a positive finite `x` exactly if the pattern of `x` is nearest to `n.value`.
-/
theorem Numeral.toFloat_eq_iff {n : Numeral} {x : Float} (hn : n.negative = false)
    (hx : x.isFinite = true) (hpos : 0.0 < x) : n.toFloat = x ↔ IsPattern n.value (pattern x) := by
  have hp := isFinite_iff.1 hx
  obtain ⟨hplus, -⟩ := (zero_lt_iff hp).1 hpos
  have hx' := ofPattern_pattern x hp.le
  rw [hplus] at hx'
  constructor
  · intro h
    rw [toFloat, Decimal.toFloat, hn] at h
    have hpattern := pattern_ofPattern false n.decimal.pattern
    rw [h] at hpattern
    rw [value, hn, if_neg Bool.false_ne_true, one_mul, ← Decimal.pattern_eq_iff hp]
    omega
  · intro h
    rw [toFloat_eq hn hp h, hx']

/-- **`leadingNumber?` finds a finite positive `x` at the start of `value` exactly if
`HasValue value x`.** -/
theorem leadingNumber?_accepted_iff {value : List Char} {x : Float}
    (h : ∀ c ∈ value, isValueChar c = true) :
    leadingNumber? (String.ofList value) = some x ∧ x.isFinite = true ∧ 0.0 < x ↔
      HasValue value x := by
  have hread : leadingNumber? (String.ofList value) =
      (Numeral.read? value).map fun p => p.1.toFloat := by
    rw [leadingNumber?, String.toList_ofList, dropBlanks_of_isValueChar h]
  -- the number of the numeral that is read
  have hvalue (whole fraction : List Char) :
      Numeral.value ⟨false, digitValues whole, digitValues fraction, 0⟩ =
        decimalValue whole fraction := by
    rw [Numeral.value_pointed, zero_sub, decimalValue]
  rw [hread]
  constructor
  · rintro ⟨hsome, hx, hpos⟩
    refine ⟨?_, hx, hpos⟩
    rcases startsDecimal_or_read?_eq_none h with ⟨whole, fraction, hstart⟩ | hnone
    · refine ⟨whole, fraction, hstart, ?_⟩
      obtain ⟨rest, hrest⟩ := Numeral.read?_of_startsDecimal hstart
      rw [hrest, Option.map_some, Option.some.injEq, Numeral.toFloat_eq_iff rfl hx hpos, hvalue]
        at hsome
      exact hsome
    · rw [hnone] at hsome
      exact absurd hsome (by simp)
  · rintro ⟨⟨whole, fraction, hstart, hnearest⟩, hx, hpos⟩
    obtain ⟨rest, hrest⟩ := Numeral.read?_of_startsDecimal hstart
    refine ⟨?_, hx, hpos⟩
    rw [hrest, Option.map_some, Option.some.injEq, Numeral.toFloat_eq_iff rfl hx hpos, hvalue]
    exact hnearest

/-! ## Assignments -/

/-- A text spells the keyword, in any mix of cases. The two letters I of Turkish count as one. -/
def SpellsKeyword (cs : List Char) : Prop :=
  List.Forall₂ (fun letter c => isKeywordLetter letter c = true) durationKeyword cs

/-- A text starts with an assignment: the keyword, an equals sign with optional blanks around it,
and the longest run of digits and points behind it, which is not empty. -/
inductive AssignsHere : List Char → List Char → Prop
  /-- The pieces of the text. -/
  | intro {keyword before after value rest : List Char} (hkeyword : SpellsKeyword keyword)
    (hbefore : IsBlanks before) (hafter : IsBlanks after) (hne : value ≠ [])
    (hvalue : ∀ c ∈ value, isValueChar c = true)
    (hrest : ∀ c ∈ rest.head?, isValueChar c = false) :
    AssignsHere (keyword ++ (before ++ '=' :: (after ++ (value ++ rest)))) value

/-- The first assignment in a text assigns a value. -/
inductive Assigns : List Char → List Char → Prop
  /-- The text starts with an assignment. -/
  | here {cs value : List Char} (h : AssignsHere cs value) : Assigns cs value
  /-- The first assignment stands further back. -/
  | later {c : Char} {cs value : List Char} (hc : ∀ v, ¬AssignsHere (c :: cs) v)
    (h : Assigns cs value) : Assigns (c :: cs) value

/-- `afterKeyword? ks cs = some rest` exactly if `cs = keyword ++ rest`, where `keyword` spells
`ks`. -/
theorem afterKeyword?_eq_some_iff {ks cs rest : List Char} :
    afterKeyword? ks cs = some rest ↔
      ∃ keyword, List.Forall₂ (fun letter c => isKeywordLetter letter c = true) ks keyword ∧
        cs = keyword ++ rest := by
  induction ks generalizing cs with
  | nil => simp [afterKeyword?]
  | cons k ks ih =>
    cases cs with
    | nil =>
      simp only [afterKeyword?, reduceCtorEq, false_iff, not_exists, not_and]
      rintro keyword (_ | ⟨_, _⟩) hnil
      exact absurd hnil (by simp)
    | cons c cs =>
      rw [afterKeyword?]
      by_cases hc : isKeywordLetter k c = true
      · rw [if_pos hc, ih]
        constructor
        · rintro ⟨keyword, hletters, rfl⟩
          exact ⟨c :: keyword, .cons hc hletters, rfl⟩
        · rintro ⟨_, _ | ⟨_, hletters⟩, heq⟩
          exact ⟨_, hletters, (List.cons.inj heq).2⟩
      · rw [if_neg hc]
        simp only [reduceCtorEq, false_iff, not_exists, not_and]
        rintro _ (_ | ⟨hletter, _⟩) heq
        exact hc ((List.cons.inj heq).1 ▸ hletter)

/-- `dropBlanks (before ++ '=' :: cs) = '=' :: cs` if `before` is blank. -/
theorem dropBlanks_append_equals {before : List Char} (h : IsBlanks before) (cs : List Char) :
    dropBlanks (before ++ '=' :: cs) = '=' :: cs := by
  rw [dropBlanks_append h, dropBlanks_cons, if_neg (by decide)]

/-- `takeWhile isValueChar` takes `value` from `value ++ rest`, if `rest` starts with another
character. -/
theorem takeWhile_isValueChar_append {value rest : List Char}
    (hvalue : ∀ c ∈ value, isValueChar c = true)
    (hrest : ∀ c ∈ rest.head?, isValueChar c = false) :
    (value ++ rest).takeWhile isValueChar = value := by
  rw [List.takeWhile_append_of_pos hvalue]
  cases rest with
  | nil => simp
  | cons c cs => simp [hrest c rfl]

/-- If `'='` follows the keyword and blanks, `assignedHere?` takes digits and points from what
follows, and fails if there are none. -/
theorem assignedHere?_of_dropBlanks {cs after rest : List Char}
    (h : afterKeyword? durationKeyword cs = some after) (hequals : dropBlanks after = '=' :: rest) :
    assignedHere? cs =
      if ((dropBlanks rest).takeWhile isValueChar).isEmpty then none
      else some ((dropBlanks rest).takeWhile isValueChar) := by
  rw [assignedHere?, h, Option.map_some, hequals]
  rfl

/-- A value that `assignedHere?` finds stands after the keyword, blanks, `'='` and blanks. -/
theorem exists_of_assignedHere? {cs value : List Char} (h : assignedHere? cs = some value) :
    ∃ after rest, afterKeyword? durationKeyword cs = some after ∧ dropBlanks after = '=' :: rest ∧
      (dropBlanks rest).takeWhile isValueChar = value ∧ value ≠ [] := by
  rw [assignedHere?] at h
  split at h
  · next rest hafter =>
    obtain ⟨after, hkeyword, hequals⟩ := Option.map_eq_some_iff.1 hafter
    dsimp only at h
    split at h
    · exact absurd h (by simp)
    · next hne =>
      obtain rfl := Option.some.inj h
      exact ⟨after, rest, hkeyword, hequals, rfl, mt List.isEmpty_iff.2 hne⟩
  · exact absurd h (by simp)

/-- `cs` is `cs.takeWhile isValueChar` and a rest that does not start with a digit or a point. -/
theorem exists_takeWhile_isValueChar (cs : List Char) :
    ∃ rest, cs = cs.takeWhile isValueChar ++ rest ∧
      (∀ c ∈ cs.takeWhile isValueChar, isValueChar c = true) ∧
      ∀ c ∈ rest.head?, isValueChar c = false := by
  refine ⟨cs.dropWhile isValueChar, List.takeWhile_append_dropWhile.symm,
    fun c hc => List.mem_takeWhile_imp hc, fun c hc => ?_⟩
  have hnot := List.head?_dropWhile_not isValueChar cs
  rw [Option.mem_def.1 hc] at hnot
  simpa using hnot

/-- **`assignedHere? cs = some value` exactly if `AssignsHere cs value`.** -/
theorem assignedHere?_eq_some_iff {cs value : List Char} :
    assignedHere? cs = some value ↔ AssignsHere cs value := by
  constructor
  · intro h
    obtain ⟨tail, rest, hkeyword, hequals, hvalue, hne⟩ := exists_of_assignedHere? h
    obtain ⟨keyword, hletters, rfl⟩ := afterKeyword?_eq_some_iff.1 hkeyword
    obtain ⟨before, hbefore, hsplit⟩ := exists_dropBlanks_eq tail
    obtain ⟨after, hafter, hsplit'⟩ := exists_dropBlanks_eq rest
    obtain ⟨others, hvalued, hall, hothers⟩ := exists_takeWhile_isValueChar (dropBlanks rest)
    rw [hvalue] at hvalued hall
    rw [hsplit, hequals, hsplit', hvalued]
    exact .intro hletters hbefore hafter hne hall hothers
  · rintro ⟨hkeyword, hbefore, hafter, hne, hvalue, hrest⟩
    next keyword before after rest =>
    have hletters : afterKeyword? durationKeyword
        (keyword ++ (before ++ '=' :: (after ++ (value ++ rest)))) =
          some (before ++ '=' :: (after ++ (value ++ rest))) :=
      afterKeyword?_eq_some_iff.2 ⟨keyword, hkeyword, rfl⟩
    have hstart : dropBlanks (after ++ (value ++ rest)) = value ++ rest := by
      rw [dropBlanks_append hafter]
      refine dropBlanks_eq_self fun c hc => ?_
      rw [List.head?_append_of_ne_nil _ hne] at hc
      exact (isValueChar_plain (hvalue c (List.mem_of_mem_head? hc))).1
    rw [assignedHere?_of_dropBlanks hletters (dropBlanks_append_equals hbefore _), hstart,
      takeWhile_isValueChar_append hvalue hrest, if_neg (by simp [hne])]

/-- `cs ≠ []` if `AssignsHere cs value`. -/
theorem AssignsHere.ne_nil {cs value : List Char} (h : AssignsHere cs value) : cs ≠ [] := by
  cases h with
  | intro => simp

/-- **`assigned? cs = some value` exactly if `Assigns cs value`.** -/
theorem assigned?_eq_some_iff {cs value : List Char} :
    assigned? cs = some value ↔ Assigns cs value := by
  induction cs with
  | nil =>
    simp only [assigned?, reduceCtorEq, false_iff]
    rintro (h | _)
    exact h.ne_nil rfl
  | cons c cs ih =>
    rw [assigned?]
    cases hhere : assignedHere? (c :: cs) with
    | some v =>
      -- an assignment here goes before any later one
      have hv := assignedHere?_eq_some_iff.1 hhere
      constructor
      · intro h
        rw [← Option.some.inj h]
        exact .here hv
      · rintro (h | ⟨hnot, h⟩)
        · rw [assignedHere?_eq_some_iff.2 h] at hhere
          exact hhere.symm
        · exact absurd hv (hnot v)
    | none =>
      have hnot (v : List Char) : ¬AssignsHere (c :: cs) v := fun h => by
        rw [assignedHere?_eq_some_iff.2 h] at hhere
        exact absurd hhere (by simp)
      dsimp only
      rw [ih]
      constructor
      · exact .later hnot
      · rintro (h | ⟨-, h⟩)
        · exact absurd h (hnot value)
        · exact h

/-- `value ≠ []` has only digits and points, if `Assigns cs value`. -/
theorem Assigns.isValueChar {cs value : List Char} (h : Assigns cs value) :
    value ≠ [] ∧ ∀ c ∈ value, isValueChar c = true := by
  induction h with
  | here h =>
    cases h with
    | intro _ _ _ hne hvalue _ => exact ⟨hne, hvalue⟩
  | later _ _ ih => exact ih

/-- What is wrong with a `part` that starts with the keyword and has no value. -/
inductive Unreadable (part : List Char) : Cause → Prop
  /-- There is no assignment in it. -/
  | unassigned (h : ∀ value, ¬Assigns part value) :
    Unreadable part (.durationNotAssigned (String.ofList part))
  /-- The value of the first assignment is no finite positive number. -/
  | notPositive {value : List Char} (h : Assigns part value) (hvalue : ∀ x, ¬HasValue value x) :
    Unreadable part (.durationNotPositive (String.ofList value))

/-- If `Assigns part value`, then `readDuration part` is the `x` with `HasValue value x`, or a
complaint if there is none. -/
theorem readDuration_of_assigns {part value : List Char} (h : Assigns part value) :
    (∃ x, HasValue value x ∧ readDuration part = .ok x) ∨
      (∀ x, ¬HasValue value x) ∧
        readDuration part = complain (.durationNotPositive (String.ofList value)) := by
  have haccepted (x : Float) := leadingNumber?_accepted_iff (x := x) h.isValueChar.2
  rw [readDuration, assigned?_eq_some_iff.2 h]
  dsimp only
  cases hnumber : leadingNumber? (String.ofList value) with
  | none =>
    refine .inr ⟨fun x hx => ?_, rfl⟩
    rw [← haccepted, hnumber] at hx
    exact absurd hx.1 (by simp)
  | some x =>
    dsimp only
    by_cases hgood : (x.isFinite && decide (0.0 < x)) = true
    · obtain ⟨hfinite, hpos⟩ := Bool.and_eq_true_iff.1 hgood
      exact .inl ⟨x, (haccepted x).1 ⟨hnumber, hfinite, of_decide_eq_true hpos⟩, if_pos hgood⟩
    · refine .inr ⟨fun y hy => hgood ?_, if_neg hgood⟩
      obtain ⟨hy, hfinite, hpos⟩ := (haccepted y).2 hy
      rw [hnumber, Option.some.injEq] at hy
      rw [hy, hfinite, decide_eq_true hpos]
      rfl

/-- `HasValue value` holds of one double at most. -/
theorem HasValue.unique {value : List Char} {x y : Float}
    (hvalue : ∀ c ∈ value, isValueChar c = true) (hx : HasValue value x) (hy : HasValue value y) :
    x = y := by
  have h := ((leadingNumber?_accepted_iff hvalue).2 hx).1
  rw [((leadingNumber?_accepted_iff hvalue).2 hy).1] at h
  exact (Option.some.inj h).symm

/-- **`readDuration part = complain cause`** if the part is `Unreadable` for this cause. -/
theorem readDuration_of_unreadable {part : List Char} {cause : Cause}
    (h : Unreadable part cause) : readDuration part = complain cause := by
  cases h with
  | unassigned h =>
    have hnone : assigned? part = none :=
      Option.eq_none_iff_forall_ne_some.2 fun v hv => h v (assigned?_eq_some_iff.1 hv)
    rw [readDuration, hnone]
  | notPositive h hvalue =>
    rcases readDuration_of_assigns h with ⟨x, hx, -⟩ | ⟨-, h⟩
    · exact absurd hx (hvalue x)
    · exact h

/-- **`readDuration part = .ok x` exactly if `Assigns part value` and `HasValue value x`** for some
`value`. -/
theorem readDuration_eq_ok_iff {part : List Char} {x : Float} :
    readDuration part = .ok x ↔ ∃ value, Assigns part value ∧ HasValue value x := by
  constructor
  · intro h
    by_cases hassigns : ∃ value, Assigns part value
    · obtain ⟨value, hassigns⟩ := hassigns
      rcases readDuration_of_assigns hassigns with ⟨y, hy, hread⟩ | ⟨-, hread⟩
      · rw [hread, Except.ok.injEq] at h
        exact ⟨value, hassigns, h ▸ hy⟩
      · rw [hread] at h
        exact absurd h (by simp [complain])
    · rw [readDuration_of_unreadable (.unassigned (not_exists.1 hassigns))] at h
      exact absurd h (by simp [complain])
  · rintro ⟨value, hassigns, hx⟩
    rcases readDuration_of_assigns hassigns with ⟨y, hy, hread⟩ | ⟨hnone, -⟩
    · rw [hread, hx.unique hassigns.isValueChar.2 hy]
    · exact absurd hx (hnone x)

end Monochord
