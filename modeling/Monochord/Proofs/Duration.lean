import Monochord.Keyboard
import Monochord.Proofs.Binary64.Bits
import Monochord.Proofs.Numeral
import Monochord.Proofs.Outcome
import Monochord.Proofs.Text.Pieces

/-! # Durations as text

A chord line shows a duration in digits without an exponent, whatever its size. The same number
could also be written in its usual form, and read back it is the duration.

* **`textValue?`** — the number that a text denotes.
* **`exists_plain_eq`**, **`textValue?_natural`** — both forms of a positive double denote its
  shortest decimal, the first of them without an exponent.
* **`Numeral.toFloat_eq`** — which double a numeral stands for.
* **`DurationText`**, **`durationText_of_check`** — everything that is known of a written duration.
  -/

namespace Monochord

open Text Binary64

/-! ## Texts that denote numbers -/

/-- The number that a text denotes as a whole, or `none` if it is no numeral. -/
def textValue? (s : String) : Option ℚ :=
  match Numeral.read? s.toList with
  | some (n, []) => some n.value
  | _ => none

/-- `whole.fraction` denotes its digits, times ten to the power `-fraction.length`. -/
theorem textValue?_pointed {s : String} {whole fraction : List Char}
    (hs : s.toList = pointed whole fraction) (hwhole : IsDigits whole) (hne : whole ≠ [])
    (hfraction : IsDigits fraction) :
    textValue? s =
      some ((ofDigits (digitValues (whole ++ fraction)) : ℚ) * 10 ^ (-fraction.length : ℤ)) := by
  rw [textValue?, hs, (Numeral.isLiteral_pointed hwhole hne hfraction).read?_eq]
  dsimp only
  rw [Numeral.value_pointed, zero_sub]

/-- `whole.fraction` with an exponent `e` denotes its digits, times ten to the power
`e - fraction.length`. -/
theorem textValue?_pointed_exponent {s : String} {whole fraction : List Char} {e : ℤ}
    (hs : s.toList = pointed whole fraction ++ exponentText e) (hwhole : IsDigits whole)
    (hne : whole ≠ []) (hfraction : IsDigits fraction) :
    textValue? s =
      some ((ofDigits (digitValues (whole ++ fraction)) : ℚ) * 10 ^ (e - fraction.length : ℤ)) := by
  rw [textValue?, hs, (Numeral.isLiteral_pointed_exponentText hwhole hne hfraction e).read?_eq]
  dsimp only
  rw [Numeral.value_pointed]

/-! ## Doubles -/

/-- The last character of `digits n` is the digit `n % 10`. -/
theorem getLast?_digits (n : Nat) : (digits n).getLast? = some (n % 10).digitChar := by
  rw [digits, Nat.toDigits_eq_if (by decide)]
  split
  · next h => rw [Nat.mod_eq_of_lt h, List.getLast?_singleton]
  · rw [List.getLast?_concat]

/-- `signed false x magnitude = magnitude ()` for a finite double without a minus sign. -/
theorem signed_eq {x : Float} (h : x.isFinite = true) (hplus : isNegative x = false)
    (magnitude : Unit → List Char) : signed false x magnitude = magnitude () := by
  have hnan : ¬x.isNaN = true := Bool.eq_false_iff.1 (isNaN_of_isFinite h)
  have hsign : ¬isNegative x = true := Bool.eq_false_iff.1 hplus
  rw [signed, signText, if_neg hnan, if_neg hsign, if_neg Bool.false_ne_true, if_neg hnan, if_pos h,
    List.nil_append]

/-- `scientific` puts a point behind the first digit of `n`; with its exponent the text denotes
`n * 10 ^ e`. -/
theorem exists_scientific_eq (n : Nat) (e : ℤ) :
    ∃ whole fraction : List Char,
      scientific (digits n) ((digits n).length + e - 1) =
        pointed whole fraction ++ exponentText ((digits n).length + e - 1) ∧
      IsDigits whole ∧ whole ≠ [] ∧ IsDigits fraction ∧
      (ofDigits (digitValues (whole ++ fraction)) : ℚ) *
        10 ^ ((digits n).length + e - 1 - fraction.length) = n * 10 ^ e := by
  have hdigits := isDigits_digits n
  have hvalue := ofDigits_digits n
  obtain ⟨d, rest, hd⟩ := List.exists_cons_of_ne_nil (show digits n ≠ [] from Nat.toDigits_ne_nil)
  rw [hd] at hdigits hvalue ⊢
  refine ⟨[d], rest, ?_, ?_, by simp, ?_, ?_⟩
  · rw [pointed]
    cases rest with
    | nil => rfl
    | cons r rs => rfl
  · intro c hc
    rw [List.mem_singleton.1 hc]
    exact hdigits d List.mem_cons_self
  · exact fun c hc => hdigits c (List.mem_cons_of_mem d hc)
  · rw [List.singleton_append, hvalue, List.length_cons]
    congr 2
    push_cast
    ring

section Positive

variable {x : Float} (hplus : isNegative x = false) (h0 : 0 < pattern x)
  (hp : pattern x < infinityPattern)

include hplus h0 hp

/-- **`plain x` denotes the decimal `shortest x`**: it is digits with a fraction that does not end
in `'0'`. -/
theorem exists_plain_eq :
    ∃ whole fraction : List Char,
      (plain x).toList = pointed whole fraction ∧ IsDigits whole ∧ whole ≠ [] ∧
      IsDigits fraction ∧ fraction.getLast? ≠ some '0' ∧
      textValue? (plain x) = some (shortest x).value := by
  have hdigits := shortest_digits_ne_zero h0 hp
  obtain ⟨whole, fraction, hplace, hwhole, hne, hfraction, hvalue, -, hlast⟩ :=
    exists_placePoint_eq (shortest x).digits (shortest x).exponent
  have hs : (plain x).toList = pointed whole fraction := by
    rw [plain, String.toList_ofList, signed_eq (isFinite_iff.2 hp) hplus, if_neg hdigits, hplace]
  refine ⟨whole, fraction, hs, hwhole, hne, hfraction, ?_, ?_⟩
  · -- the last digit of the fraction is the last digit of the shortest decimal
    rcases eq_or_ne fraction [] with rfl | hsome
    · exact Option.some_ne_none _ |>.symm
    · rw [hlast hsome, getLast?_digits, ne_eq, Option.some.injEq, Nat.digitChar_eq_zero]
      exact shortest_mod h0 hp
  · rw [textValue?_pointed hs hwhole hne hfraction, hvalue, Decimal.value]

/-- **`natural x` denotes the decimal `shortest x`.** -/
theorem textValue?_natural : textValue? (natural x) = some (shortest x).value := by
  have hdigits := shortest_digits_ne_zero h0 hp
  obtain ⟨whole, fraction, hplace, hwhole, hne, hfraction, hvalue, hinteger, -⟩ :=
    exists_placePoint_eq (shortest x).digits (shortest x).exponent
  obtain ⟨cs, hs⟩ : ∃ cs, (natural x).toList = cs := ⟨_, rfl⟩
  have htext := hs
  rw [natural, String.toList_ofList, signed_eq (isFinite_iff.2 hp) hplus, if_neg hdigits, hplace]
    at htext
  split at htext
  · split at htext
    · next hlength =>
      -- an integer gets a zero after a point
      obtain rfl := hinteger (by omega)
      subst htext
      have hzero : IsDigits ['0'] := isDigits_zeros 1
      rw [List.append_nil, List.length_nil, Nat.cast_zero, neg_zero, zpow_zero, mul_one] at hvalue
      have htenth : ofDigits (digitValues (whole ++ ['0'])) =
          10 * ofDigits (digitValues whole) := by
        rw [ofDigits_digitValues, Nat.ofDigitChars_append, ← ofDigits_digitValues]
        rfl
      rw [textValue?_pointed hs hwhole hne hzero, htenth, Decimal.value, ← hvalue]
      push_cast
      norm_num
      ring
    · rw [← htext] at hs
      rw [textValue?_pointed hs hwhole hne hfraction, hvalue, Decimal.value]
  · -- very large and very small numbers have an exponent
    obtain ⟨whole, fraction, hplace, hwhole, hne, hfraction, hvalue⟩ :=
      exists_scientific_eq (shortest x).digits (shortest x).exponent
    rw [hplace] at htext
    rw [← htext] at hs
    rw [textValue?_pointed_exponent hs hwhole hne hfraction, hvalue, Decimal.value]

end Positive

/-! ## Doubles that numerals stand for -/

/-- `n.toFloat = ofPattern false p` if `p` is the finite pattern nearest to `n.value` and there is
no minus sign. -/
theorem Numeral.toFloat_eq {n : Numeral} {p : ℕ} (hn : n.negative = false)
    (hp : p < infinityPattern) (h : IsPattern n.value p) : n.toFloat = ofPattern false p := by
  rw [value, hn, if_neg Bool.false_ne_true, one_mul] at h
  rw [toFloat, Decimal.toFloat, hn, (Decimal.pattern_eq_iff hp).2 h]

/-- `leadingNumber?` of digits with a fraction is the double whose pattern is nearest to the number
`r` that they denote. -/
theorem leadingNumber?_eq {s : String} {whole fraction : List Char} {r : ℚ} {p : ℕ}
    (hs : s.toList = pointed whole fraction) (hwhole : IsDigits whole) (hne : whole ≠ [])
    (hfraction : IsDigits fraction) (hr : textValue? s = some r) (hp : p < infinityPattern)
    (h : IsPattern r p) :
    leadingNumber? s = some (ofPattern false p) := by
  have hliteral := Numeral.isLiteral_pointed hwhole hne hfraction
  rw [textValue?, hs, hliteral.read?_eq] at hr
  rw [hliteral.leadingNumber?_eq (by rw [hs, List.append_nil]) Numeral.endsLiteral_nil]
  congr 1
  refine Numeral.toFloat_eq rfl hp ?_
  rw [Option.some.inj hr]
  exact h

/-! ## Written durations -/

/-- What is known of a duration `q` and its text in a chord line: digits and a fraction that does
not end in a zero, which denote the same number as the usual text of `q`, and which read back as the
nearest double `x`, a finite and positive one. -/
structure DurationText (q : Quantity) (x : Float) (whole fraction : List Char) : Prop where
  /-- The text is digits with a fraction. -/
  text : (Selection.durationText q).toList = pointed whole fraction
  /-- There are digits before the point. -/
  isDigits_whole : IsDigits whole
  /-- There is at least one of them. -/
  whole_ne_nil : whole ≠ []
  /-- There are digits after the point, if there is one. -/
  isDigits_fraction : IsDigits fraction
  /-- The last of them is no zero. -/
  fraction_getLast : fraction.getLast? ≠ some '0'
  /-- The usual text denotes the same number. -/
  same : ∃ r, textValue? (Selection.durationText q) = some r ∧ textValue? q.text = some r
  /-- The text reads back as the double. -/
  reads : leadingNumber? (Selection.durationText q) = some x
  /-- The double is finite and positive. -/
  accepted : x.isFinite = true ∧ 0.0 < x
  /-- It is the duration as a double. -/
  number : ∃ n, q.number = .ok n ∧ n.toFloat = .ok x

/-- A number that `checkDuration.accept` lets through is itself, finite and positive. -/
theorem Record.accept_eq_ok {a b : Number} (h : Record.checkDuration.accept a = .ok b) :
    a = b ∧ (∃ x, a.toFloat = .ok x ∧ x.isFinite = true) ∧ a.isPositive = true := by
  obtain ⟨finite, hfinite, h⟩ := bind_eq_ok_iff.1 h
  obtain ⟨x, hx, hfinite⟩ := bind_eq_ok_iff.1 hfinite
  obtain rfl := Except.ok.inj hfinite
  split at h
  · next hgood =>
    obtain ⟨hfin, hpos⟩ := Bool.and_eq_true_iff.1 hgood
    exact ⟨Except.ok.inj h, ⟨x, hx, hfin⟩, hpos⟩
  · exact absurd h (by simp [complain])

/-- What `checkDuration` lets through is `.quantity b.quantity` for a number `b` that is finite and
positive. -/
theorem Record.checkDuration_eq_ok {v : Value} {b : Number} (h : Record.checkDuration v = .ok b) :
    v = .quantity b.quantity ∧ (∃ x, b.toFloat = .ok x ∧ x.isFinite = true) ∧
      b.isPositive = true := by
  rw [checkDuration.eq_def] at h
  split at h
  · obtain ⟨rfl, hx, hpos⟩ := accept_eq_ok h
    exact ⟨rfl, hx, hpos⟩
  · obtain ⟨rfl, hx, hpos⟩ := accept_eq_ok h
    exact ⟨rfl, hx, hpos⟩
  · exact absurd h (by simp [complain])

/-- `checkDuration` lets a finite positive double through. -/
theorem Record.checkDuration_float {x : Float} (hx : x.isFinite = true) (hpos : 0.0 < x) :
    Record.checkDuration (.quantity (.float x)) = .ok (.float x) := by
  have hgood : (x.isFinite && decide (0.0 < x)) = true := by
    rw [hx, decide_eq_true hpos]
    rfl
  exact if_pos hgood

/-- If a record of a text and a list passes `check` with `b`, its duration passes `checkDuration`
with `b`. -/
theorem Record.checkDuration_of_check {f : String} {items : List Value} {d : Value} {b : Number}
    (h : Record.check ⟨.text f, .list items, d⟩ = .ok b) : checkDuration d = .ok b := by
  rw [check] at h
  dsimp only at h
  by_cases hf : f.isEmpty = true
  · simp [hf, complain] at h
  · rw [if_neg hf] at h
    by_cases hitems : items.isEmpty = true
    · simp [hitems, complain] at h
    · rw [if_neg hitems] at h
      exact h

/-- `check` is `checkDuration d`, if the fundamental is a text and the intervals are a list and
neither is empty. -/
theorem Record.check_eq_checkDuration {f : String} {items : List Value} (hf : f.isEmpty = false)
    (hitems : items.isEmpty = false) (d : Value) :
    Record.check ⟨.text f, .list items, d⟩ = checkDuration d := by
  rw [check]
  dsimp only
  rw [hf, hitems]
  rfl

/-- A finite positive double has a `DurationText`. -/
theorem durationText_float {x : Float} (h : x.isFinite = true) (hpos : 0.0 < x) :
    ∃ whole fraction, DurationText (.float x) x whole fraction := by
  have hp := isFinite_iff.1 h
  obtain ⟨hplus, h0⟩ := (zero_lt_iff hp).1 hpos
  obtain ⟨whole, fraction, hs, hwhole, hne, hfraction, hlast, hvalue⟩ := exists_plain_eq hplus h0 hp
  refine ⟨whole, fraction, hs, hwhole, hne, hfraction, hlast,
    ⟨_, hvalue, textValue?_natural hplus h0 hp⟩, ?_, ⟨h, hpos⟩, ⟨.float x, rfl, rfl⟩⟩
  -- the text denotes the shortest decimal, which is rounded back to the double
  have hread := leadingNumber?_eq hs hwhole hne hfraction hvalue hp (isPattern_shortest h0 hp)
  have hx := ofPattern_pattern x hp.le
  rw [hplus] at hx
  rw [hx] at hread
  exact hread

/-- The double of a natural number `n` has the pattern `nearestPattern n 1`, which is finite. -/
theorem toFloat_natCast {n : Nat} {x : Float} (h : (Number.int n).toFloat = .ok x) :
    nearestPattern n 1 < infinityPattern ∧ x = ofPattern false (nearestPattern n 1) := by
  have hsign : decide ((n : Int) < 0) = false := decide_eq_false (by omega)
  rw [Number.toFloat, ofInt?, hsign, Int.natAbs_natCast, ofRatio?] at h
  by_cases hp : nearestPattern n 1 < infinityPattern
  · rw [if_pos hp] at h
    exact ⟨hp, (Except.ok.inj h).symm⟩
  · rw [if_neg hp] at h
    exact absurd h (by simp)

/-- `0 < nearestPattern n 1` for `0 < n`. -/
theorem nearestPattern_pos {n : Nat} (hn : 0 < n) : 0 < nearestPattern n 1 := by
  have hpattern := isPattern_nearestPattern n 1 one_pos
  have hone : value 1 ≤ 1 := by
    rw [value_one]
    exact zpow_le_one_of_nonpos₀ one_le_two (by decide)
  refine hpattern.le_of_value_le (hone.trans ?_)
  rw [Nat.cast_one, div_one]
  exact_mod_cast hn

/-- A positive integer with a double has a `DurationText`. -/
theorem durationText_int {n : Int} {x : Float} (hx : (Number.int n).toFloat = .ok x)
    (hpos : 0 < n) : ∃ whole fraction, DurationText (.int n) x whole fraction := by
  obtain ⟨m, rfl⟩ := Int.eq_ofNat_of_zero_le hpos.le
  have hm : 0 < m := by exact_mod_cast hpos
  have hs : (Selection.durationText (.int m)).toList = pointed (digits m) [] :=
    toList_toString m
  have hvalue : textValue? (Selection.durationText (.int m)) = some (m : ℚ) := by
    rw [textValue?_pointed hs (isDigits_digits m) Nat.toDigits_ne_nil isDigits_nil,
      List.append_nil, ofDigits_digits, List.length_nil, Nat.cast_zero, neg_zero, zpow_zero,
      mul_one]
  -- the integer is rounded once, as its text is
  obtain ⟨hp, rfl⟩ := toFloat_natCast hx
  have h0 := nearestPattern_pos hm
  have hpattern := isPattern_nearestPattern m 1 one_pos
  rw [Nat.cast_one, div_one] at hpattern
  have hbits := pattern_ofPattern false (nearestPattern m 1)
  rw [min_eq_left hp.le] at hbits
  have hfinite : (ofPattern false (nearestPattern m 1)).isFinite = true :=
    isFinite_iff.2 (by rw [hbits]; exact hp)
  have hpositive : 0.0 < ofPattern false (nearestPattern m 1) := by
    rw [zero_lt_iff (by rw [hbits]; exact hp), isNegative_ofPattern, hbits]
    exact ⟨rfl, h0⟩
  refine ⟨digits m, [], hs, isDigits_digits m, Nat.toDigits_ne_nil, isDigits_nil,
    (Option.some_ne_none _).symm, ⟨m, hvalue, hvalue⟩, ?_, ⟨hfinite, hpositive⟩,
    ⟨.int m, rfl, hx⟩⟩
  exact leadingNumber?_eq hs (isDigits_digits m) Nat.toDigits_ne_nil isDigits_nil hvalue hp
    hpattern

/-- **Every duration that passes `checkDuration` has a `DurationText`**: it is written as digits
that read back as the duration. -/
theorem durationText_of_check {v : Value} {b : Number} (h : Record.checkDuration v = .ok b) :
    v = .quantity b.quantity ∧
      ∃ x whole fraction, DurationText b.quantity x whole fraction := by
  obtain ⟨rfl, ⟨x, hx, hfinite⟩, hpos⟩ := Record.checkDuration_eq_ok h
  refine ⟨rfl, x, ?_⟩
  cases b with
  | int n => exact durationText_int hx (by simpa [Number.isPositive] using hpos)
  | float y =>
    obtain rfl := Except.ok.inj hx
    exact durationText_float hfinite (by simpa [Number.isPositive] using hpos)

end Monochord
