import Monochord.Binary64.Layout
import Monochord.Proofs.Binary64.Shortest
import Monochord.Proofs.Numeral.Grammar

/-! # Numerals that are written

This library writes numbers in digits with a point among them and an exponent. What it writes are
numerals.

* **`IsDigits`**, **`digitValues`** — a text of ASCII digits, and their values.
* **`pointed`** — digits with a fraction after a point, if there is one.
* **`Numeral.isLiteral_pointed`**, **`Numeral.isLiteral_pointed_exponentText`** — such a text is a
  numeral, with or without an exponent.
* **`Numeral.value`** — the number that a numeral denotes.
* **`DenotesScaled`**, **`exists_placePoint_eq`** — digits with a point put among them denote the
  digits times a power of ten. -/

namespace Monochord

open Text Binary64

/-! ## Digits -/

/-- A text of ASCII digits. -/
def IsDigits (cs : List Char) : Prop := ∀ c ∈ cs, c.isDigit = true

instance (cs : List Char) : Decidable (IsDigits cs) :=
  decidable_of_iff (cs.all Char.isDigit = true) List.all_eq_true

/-- The values of ASCII digits. -/
def digitValues (cs : List Char) : List Nat := cs.map fun c => c.toNat - '0'.toNat

/-- The code points of ASCII digits are those from 48 to 57. -/
theorem isDigit_toNat {c : Char} (h : c.isDigit = true) : 48 ≤ c.toNat ∧ c.toNat ≤ 57 := by
  simp only [Char.isDigit, Bool.and_eq_true, decide_eq_true_eq, ge_iff_le, UInt32.le_iff_toNat_le]
    at h
  exact h

/-- `digit? c` of an ASCII digit is its usual value. -/
theorem digit?_of_isDigit {c : Char} (h : c.isDigit = true) :
    digit? c = some (c.toNat - '0'.toNat) := by
  obtain ⟨hlow, hhigh⟩ := isDigit_toNat h
  rw [digit?, digitZeros, List.find?_cons_of_pos]
  · rfl
  · simp only [Bool.and_eq_true, decide_eq_true_eq]
    omega

/-- An ASCII digit is not blank. -/
theorem isBlank_of_isDigit {c : Char} (h : c.isDigit = true) : isBlank c = false := by
  refine isBlank_of_digit ?_
  rw [Text.isDigit, digit?_of_isDigit h]
  rfl

/-- ASCII digits are a `DigitRun` with their usual values. -/
theorem IsDigits.digitRun {cs : List Char} (h : IsDigits cs) : DigitRun cs (digitValues cs) :=
  List.forall₂_map_right_iff.2 (List.forall₂_same.2 fun c hc => digit?_of_isDigit (h c hc))

/-- `ofDigits (digitValues cs)` is `Nat.ofDigitChars 10 cs 0`. -/
theorem ofDigits_digitValues (cs : List Char) :
    ofDigits (digitValues cs) = Nat.ofDigitChars 10 cs 0 := by
  rw [ofDigits, digitValues, List.foldl_map, Nat.ofDigitChars]

/-- `digits n` are ASCII digits. -/
theorem isDigits_digits (n : Nat) : IsDigits (digits n) := fun _ hc =>
  Nat.isDigit_of_mem_toDigits (by decide) (by decide) hc

/-- `(toString n).toList = digits n`. -/
theorem toList_toString (n : Nat) : (toString n).toList = digits n := by
  rw [Nat.toString_eq_ofList_toDigits, String.toList_ofList, digits]

/-- `IsDigits []`. -/
theorem isDigits_nil : IsDigits [] := fun _ hc => absurd hc List.not_mem_nil

/-- `zeros n` are ASCII digits. -/
theorem isDigits_zeros (n : Nat) : IsDigits (zeros n) := by
  intro c hc
  rw [List.eq_of_mem_replicate hc]
  rfl

/-- `IsDigits (as ++ bs)` if both parts are digits. -/
theorem IsDigits.append {as bs : List Char} (ha : IsDigits as) (hb : IsDigits bs) :
    IsDigits (as ++ bs) := fun c hc => (List.mem_append.1 hc).elim (ha c) (hb c)

/-- `zeros k ++ digits n` write the number `n`. -/
theorem ofDigits_zeros_append_digits (k n : Nat) :
    ofDigits (digitValues (zeros k ++ digits n)) = n := by
  rw [ofDigits_digitValues, Nat.ofDigitChars_append, zeros, Nat.ofDigitChars_replicate_zero,
    Nat.mul_zero, digits, Nat.ofDigitChars_ten_toDigits]

/-- `digits n` write the number `n`. -/
theorem ofDigits_digits (n : Nat) : ofDigits (digitValues (digits n)) = n :=
  ofDigits_zeros_append_digits 0 n

/-- `digits n ++ zeros k` write the number `10 ^ k * n`. -/
theorem ofDigits_digits_append_zeros (n k : Nat) :
    ofDigits (digitValues (digits n ++ zeros k)) = 10 ^ k * n := by
  rw [ofDigits_digitValues, Nat.ofDigitChars_append, zeros, Nat.ofDigitChars_replicate_zero, digits,
    Nat.ofDigitChars_ten_toDigits]

/-! ## Reading -/

/-- Digits, and a fraction after a point if there is one. -/
def pointed (whole fraction : List Char) : List Char :=
  if fraction = [] then whole else whole ++ '.' :: fraction

namespace Numeral

/-- `pointed whole fraction` is a mantissa with the values of these digits. -/
theorem isMantissa_pointed {whole fraction : List Char} (hwhole : IsDigits whole)
    (hne : whole ≠ []) (hfraction : IsDigits fraction) :
    IsMantissa (pointed whole fraction) (digitValues whole) (digitValues fraction) := by
  rw [pointed]
  split
  · next hempty =>
    subst hempty
    exact .whole hwhole.digitRun hne
  · exact .point hwhole.digitRun hne hfraction.digitRun

/-- `exponentText e` is an exponent of the value `e`. -/
theorem isExponent_exponentText (e : Int) : IsExponent (exponentText e) e := by
  have hdigits : IsDigits (zeros (2 - (digits e.natAbs).length) ++ digits e.natAbs) :=
    (isDigits_zeros _).append (isDigits_digits _)
  have hne : zeros (2 - (digits e.natAbs).length) ++ digits e.natAbs ≠ [] :=
    List.append_ne_nil_of_right_ne_nil _ Nat.toDigits_ne_nil
  have hvalue := ofDigits_zeros_append_digits (2 - (digits e.natAbs).length) e.natAbs
  rw [exponentText, List.cons_append, List.cons_append]
  -- the sign is always written, and the digits are those of the magnitude
  by_cases he : e < 0
  · have hletter := IsExponent.letter (.inl rfl) .minus hdigits.digitRun hne
    rw [hvalue, if_pos rfl, show -(e.natAbs : Int) = e by omega] at hletter
    rw [if_pos he]
    exact hletter
  · have hletter := IsExponent.letter (.inl rfl) .plus hdigits.digitRun hne
    rw [hvalue, if_neg Bool.false_ne_true, show (e.natAbs : Int) = e by omega] at hletter
    rw [if_neg he]
    exact hletter

/-- **`pointed whole fraction` is a numeral** without an exponent. -/
theorem isLiteral_pointed {whole fraction : List Char} (hwhole : IsDigits whole) (hne : whole ≠ [])
    (hfraction : IsDigits fraction) :
    IsLiteral (pointed whole fraction) ⟨false, digitValues whole, digitValues fraction, 0⟩ :=
  ⟨[], _, [], (List.append_nil _).symm, .absent, isMantissa_pointed hwhole hne hfraction, .absent⟩

/-- **`pointed whole fraction ++ exponentText e` is a numeral** with the exponent `e`. -/
theorem isLiteral_pointed_exponentText {whole fraction : List Char} (hwhole : IsDigits whole)
    (hne : whole ≠ []) (hfraction : IsDigits fraction) (e : Int) :
    IsLiteral (pointed whole fraction ++ exponentText e)
      ⟨false, digitValues whole, digitValues fraction, e⟩ :=
  ⟨[], _, _, rfl, .absent, isMantissa_pointed hwhole hne hfraction, isExponent_exponentText e⟩

/-! ## Value -/

/-- The number that a numeral denotes. -/
def value (n : Numeral) : ℚ := (if n.negative then -1 else 1) * n.decimal.value

/-- A numeral of the digits `whole` and `fraction` with the exponent `e` denotes all digits times
`10 ^ (e - fraction.length)`. -/
theorem value_pointed (whole fraction : List Char) (e : Int) :
    value ⟨false, digitValues whole, digitValues fraction, e⟩ =
      ofDigits (digitValues (whole ++ fraction)) * 10 ^ (e - fraction.length) := by
  rw [value, if_neg Bool.false_ne_true, one_mul, decimal, Decimal.value]
  dsimp only
  rw [digitValues, digitValues, digitValues, List.length_map, List.map_append]

end Numeral

/-! ## Placing the point -/

/-- Digits before and after a point that denote digits times a power of ten. There is a fraction
only if the power is negative, and it ends as the digits do. -/
structure DenotesScaled (n : Nat) (e : Int) (whole fraction : List Char) : Prop where
  /-- There are digits before the point. -/
  isDigits_whole : IsDigits whole
  /-- There is at least one of them. -/
  whole_ne_nil : whole ≠ []
  /-- There are digits after the point, if there is one. -/
  isDigits_fraction : IsDigits fraction
  /-- They denote the digits times the power of ten. -/
  value : (ofDigits (digitValues (whole ++ fraction)) : ℚ) * 10 ^ (-fraction.length : ℤ) = n * 10 ^ e
  /-- A power that is not negative needs no fraction. -/
  integral : 0 ≤ e → fraction = []
  /-- A fraction ends as the digits do. -/
  getLast? : fraction ≠ [] → fraction.getLast? = (digits n).getLast?

/-- All digits stand behind the point if `n * 10 ^ e` is below one. -/
theorem denotesScaled_behind {n : Nat} {e : Int} (h : (digits n).length + e ≤ 0) :
    DenotesScaled n e ['0'] (zeros (-((digits n).length + e)).toNat ++ digits n) := by
  have hne : digits n ≠ [] := Nat.toDigits_ne_nil
  have hpos := List.length_pos_iff.2 hne
  refine ⟨?_, by simp, (isDigits_zeros _).append (isDigits_digits n), ?_, fun he => by omega,
    fun _ => List.getLast?_append_of_ne_nil _ hne⟩
  · intro c hc
    rw [List.mem_singleton.1 hc]
    rfl
  · have hvalue := ofDigits_zeros_append_digits ((-((digits n).length + e)).toNat + 1) n
    rw [zeros, List.replicate_succ, ← zeros] at hvalue
    rw [List.singleton_append, ← List.cons_append, hvalue, List.length_append, zeros,
      List.length_replicate]
    congr 2
    omega

/-- All digits of `n * 10 ^ k` stand before the point, and zeros follow them. -/
theorem denotesScaled_front (n k : Nat) : DenotesScaled n k (digits n ++ zeros k) [] := by
  have hne : digits n ≠ [] := Nat.toDigits_ne_nil
  refine ⟨(isDigits_digits n).append (isDigits_zeros _), by simp [hne], isDigits_nil, ?_,
    fun _ => rfl, fun h => absurd rfl h⟩
  rw [List.append_nil, ofDigits_digits_append_zeros, List.length_nil, zpow_natCast]
  push_cast
  ring

/-- The point stands behind the first `w` of the digits of `n`. -/
theorem denotesScaled_among {n w : Nat} {e : Int} (hw : (digits n).length + e = w) (hpos : 0 < w)
    (hlt : w < (digits n).length) :
    DenotesScaled n e ((digits n).take w) ((digits n).drop w) := by
  have hdigits := isDigits_digits n
  refine ⟨fun c hc => hdigits c (List.mem_of_mem_take hc), ?_,
    fun c hc => hdigits c (List.mem_of_mem_drop hc), ?_, fun he => by omega, fun _ => ?_⟩
  · rw [← List.length_pos_iff, List.length_take]
    omega
  · rw [List.take_append_drop, ofDigits_digits, List.length_drop]
    congr 2
    omega
  · rw [List.getLast?_drop, if_neg (by omega)]

/-- **`placePoint` writes `n * 10 ^ e`**: it puts the point among `digits n`, with zeros where there
are no digits. -/
theorem exists_placePoint_eq (n : Nat) (e : Int) :
    ∃ whole fraction : List Char,
      placePoint (digits n) ((digits n).length + e) = pointed whole fraction ∧
      DenotesScaled n e whole fraction := by
  have hne : digits n ≠ [] := Nat.toDigits_ne_nil
  rw [placePoint]
  split
  · next hbehind =>
    refine ⟨_, _, ?_, denotesScaled_behind hbehind⟩
    rw [pointed, if_neg (by simp [hne])]
    rfl
  · next hpos =>
    split
    · next hlength =>
      obtain ⟨k, rfl⟩ := Int.eq_ofNat_of_zero_le (show 0 ≤ e by omega)
      have hk : ((digits n).length + (k : ℤ)).toNat - (digits n).length = k := by omega
      rw [hk]
      exact ⟨_, [], rfl, denotesScaled_front n k⟩
    · next hlength =>
      obtain ⟨w, hw⟩ := Int.eq_ofNat_of_zero_le (show 0 ≤ (digits n).length + e by omega)
      rw [hw, Int.toNat_natCast] at hlength ⊢
      have hdrop : (digits n).drop w ≠ [] := by
        rw [ne_eq, List.drop_eq_nil_iff]
        exact hlength
      exact ⟨_, _, (if_neg hdrop).symm, denotesScaled_among hw (by omega) (by omega)⟩

end Monochord
