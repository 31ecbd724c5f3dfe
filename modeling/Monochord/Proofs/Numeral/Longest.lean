import Monochord.Proofs.Binary64.Operations
import Monochord.Proofs.Numeral

/-! # The longest numeral at the start of a text

A text that starts with a numeral starts with several: with `1`, `12`, `12.`, `12.5` and `12.5e3` if
it starts with `12.5e3`, but only with the first four if it starts with `12.5e+`. The reader never
steps back, and still finds the longest of them.

* **`Numeral.IsLongest`** — the longest numeral at the start of a text;
  **`Numeral.read?_eq_some_iff`**, **`Numeral.read?_eq_none_iff`**: the reader finds just this one.
* **`Numeral.rounds_toFloat`** — a numeral stands for its number, rounded;
  **`Numeral.IsLiteral.wholeNumber?_eq`**: so it does as a whole text.
* **`leadingNumber?_longest`** — all this together. -/

namespace Monochord

open Text Binary64

namespace Numeral

/-! ## Reading -/

/-- The numeral `x` is the longest one at the start of `cs`. -/
structure IsLongest (cs x : List Char) (n : Numeral) : Prop where
  /-- It is a numeral. -/
  literal : IsLiteral x n
  /-- The text starts with it. -/
  initial : x <+: cs
  /-- No numeral with which the text starts is longer. -/
  longest : ∀ y m, IsLiteral y m → y <+: cs → y.length ≤ x.length

/-- `readMantissa? (mantissa ++ rest)` leaves no more than `rest`. -/
theorem IsMantissa.exists_readMantissa?_append {mantissa : List Char} {ds es : List Nat}
    (h : IsMantissa mantissa ds es) (rest : List Char) :
    ∃ ds' es' rest', readMantissa? (mantissa ++ rest) = some (ds', es', rest') ∧
      rest'.length ≤ rest.length := by
  have hlength := length_dropDigits_le rest
  cases h with
  | whole hwhole hne =>
    rw [Numeral.readMantissa?_append hwhole hne]
    split
    · next tail htail =>
      -- a point follows after some more digits, and digits may follow it
      have htail' := length_dropDigits_le tail
      rw [htail, List.length_cons] at hlength
      exact ⟨_, _, _, rfl, by omega⟩
    · exact ⟨_, _, _, rfl, hlength⟩
  | point hwhole hne hfraction =>
    rw [List.append_assoc, List.cons_append, readMantissa?_point_append hwhole hfraction
      (List.append_ne_nil_of_left_ne_nil hne _)]
    exact ⟨_, _, _, rfl, hlength⟩
  | fraction hfraction hne =>
    exact ⟨_, _, _, readMantissa?_point_append .nil hfraction hne rest, hlength⟩

/-- `read? (x ++ rest)` leaves no more than `rest`. -/
theorem IsLiteral.exists_read?_append {x : List Char} {n : Numeral} (h : IsLiteral x n)
    (rest : List Char) :
    ∃ m rest', read? (x ++ rest) = some (m, rest') ∧ rest'.length ≤ rest.length := by
  obtain ⟨sign, mantissa, exponent, rfl, hsign, hmantissa, hexponent⟩ := h
  rw [List.append_assoc, List.append_assoc]
  generalize n.exponent = e at hexponent
  cases hexponent with
  | absent =>
    -- the digits may go on, and an exponent may follow them
    obtain ⟨ds, es, tail, hread, hlength⟩ := hmantissa.exists_readMantissa?_append rest
    obtain ⟨exponent, htail, -⟩ := exists_isExponent tail
    refine ⟨_, _, read?_of_readMantissa? hsign (hmantissa.ne_sign _) hread, ?_⟩
    have hsum := congrArg List.length htail
    rw [List.length_append] at hsum
    omega
  | letter hc hnegative hrun hne =>
    -- only the digits of the exponent may go on
    refine ⟨_, _, read?_of_readMantissa? hsign (hmantissa.ne_sign _)
      (hmantissa.readMantissa?_append (endsMantissa_letter hc _ _)), ?_⟩
    rw [readExponent_letter hc hnegative hrun hne]
    exact length_dropDigits_le rest

/-- **`read? cs = some (n, rest)` exactly if `cs = x ++ rest`, where `x` is the longest numeral** at
the start of `cs`. -/
theorem read?_eq_some_iff {cs rest : List Char} {n : Numeral} :
    read? cs = some (n, rest) ↔ ∃ x, cs = x ++ rest ∧ IsLongest cs x n := by
  constructor
  · intro h
    obtain ⟨x, hx, hliteral⟩ := exists_isLiteral h
    refine ⟨x, hx, hliteral, ⟨rest, hx.symm⟩, ?_⟩
    -- at least any other numeral is read
    rintro y m hy ⟨tail, rfl⟩
    obtain ⟨m', tail', hread, hlength⟩ := hy.exists_read?_append tail
    rw [h] at hread
    obtain ⟨-, rfl⟩ := Prod.mk.inj (Option.some.inj hread)
    have hsum := congrArg List.length hx
    rw [List.length_append, List.length_append] at hsum
    omega
  · rintro ⟨x, rfl, hx⟩
    -- what is read is no longer and no shorter
    obtain ⟨m, rest', hread, hlength⟩ := hx.literal.exists_read?_append rest
    obtain ⟨y, hy, hliteral⟩ := exists_isLiteral hread
    have hle := hx.longest y m hliteral ⟨rest', hy.symm⟩
    have hsum := congrArg List.length hy
    rw [List.length_append, List.length_append] at hsum
    obtain ⟨rfl, rfl⟩ := List.append_inj hy (by omega)
    rw [hread, hliteral.unique hx.literal]

/-- **`read? cs = none` exactly if `cs` starts with no numeral.** -/
theorem read?_eq_none_iff {cs : List Char} :
    read? cs = none ↔ ∀ x n, IsLiteral x n → ¬ x <+: cs := by
  constructor
  · rintro h x n hx ⟨rest, rfl⟩
    obtain ⟨m, rest', hread, -⟩ := hx.exists_read?_append rest
    rw [h] at hread
    exact absurd hread (by simp)
  · intro h
    rw [Option.eq_none_iff_forall_ne_some]
    rintro ⟨n, rest⟩ hread
    obtain ⟨x, hx, hliteral⟩ := exists_isLiteral hread
    exact h x n hliteral ⟨rest, hx.symm⟩

/-! ## The double of a numeral -/

/-- **`n.toFloat` is the number `n.value`, rounded.** -/
theorem rounds_toFloat (n : Numeral) : Rounds n.value n.toFloat := by
  obtain ⟨p, hp, hmin⟩ := n.decimal.exists_isPattern
  have hnonneg := n.decimal.value_nonneg
  have hpattern : pattern n.toFloat = min p infinityPattern :=
    (pattern_ofPattern _ _).trans hmin
  have hsign : isNegative n.toFloat = n.negative := isNegative_ofPattern _ _
  rw [value]
  cases hn : n.negative with
  | false =>
    rw [if_neg Bool.false_ne_true, one_mul]
    refine ⟨⟨p, ?_, hpattern⟩, fun hneg => absurd hneg hnonneg.not_gt, fun _ => hsign.trans hn⟩
    rwa [abs_of_nonneg hnonneg]
  | true =>
    rw [if_pos rfl, neg_one_mul]
    refine ⟨⟨p, ?_, hpattern⟩, fun _ => hsign.trans hn, fun hpos => ?_⟩
    · rwa [abs_neg, abs_of_nonneg hnonneg]
    · linarith

/-- `n.toFloat` is never nan. -/
theorem isNaN_toFloat (n : Numeral) : n.toFloat.isNaN = false := by
  refine isNaN_of_pattern_le ?_
  rw [toFloat, Decimal.toFloat, pattern_ofPattern]
  exact min_le_right _ _

end Numeral

/-! ## Whole texts -/

/-- `dropSpacing cs = cs` if `cs` has no blanks. -/
theorem dropSpacing_eq_self {cs : List Char} (h : ∀ c ∈ cs, isBlank c = false) :
    dropSpacing cs = cs := by
  have hdrop : ∀ ds : List Char, (∀ c ∈ ds, isBlank c = false) → ds.dropWhile isSpacing = ds := by
    intro ds hds
    cases ds with
    | nil => rfl
    | cons d ds =>
      rw [List.dropWhile_cons_of_neg]
      simp [isSpacing, hds d List.mem_cons_self]
  rw [dropSpacing, hdrop cs h, hdrop _ fun c hc => h c (List.mem_reverse.1 hc),
    List.reverse_reverse]

/-- `joinGroups? afterDigit cs = some cs` if `cs` has no underscores. -/
theorem joinGroups?_eq_some {cs : List Char} (h : ∀ c ∈ cs, c ≠ '_') (afterDigit : Bool) :
    joinGroups? afterDigit cs = some cs := by
  induction cs generalizing afterDigit with
  | nil => rfl
  | cons c cs ih =>
    rw [joinGroups?, if_neg (h c List.mem_cons_self),
      ih (fun d hd => h d (List.mem_cons_of_mem c hd)), Option.map_some]

/-- **`wholeNumber?` of a numeral is `n.toFloat`.** -/
theorem Numeral.IsLiteral.wholeNumber?_eq {x : List Char} {n : Numeral} (h : IsLiteral x n) :
    wholeNumber? (String.ofList x) = some n.toFloat := by
  rw [wholeNumber?, String.toList_ofList, dropSpacing_eq_self fun c hc => (h.isPlain c hc).1,
    joinGroups?_eq_some (fun c hc => (h.isPlain c hc).2), Option.bind_some, wholePlain?, h.read?_eq]

/-- **`leadingNumber? s` is the longest numeral at the start of `dropBlanks s.toList`**, and `none`
exactly if there is no numeral. The number `y` is that of the numeral as a whole text, rounded, with
its sign, and not nan; the numeral ends with a digit or with a point. What follows a numeral does
not matter if `Numeral.EndsLiteral rest`. -/
theorem leadingNumber?_longest (s : String) :
    (leadingNumber? s = none ↔ ∀ x n, Numeral.IsLiteral x n → ¬ x <+: dropBlanks s.toList) ∧
    (∀ y, leadingNumber? s = some y → ∃ x n, Numeral.IsLongest (dropBlanks s.toList) x n ∧
      wholeNumber? (String.ofList x) = some y ∧ Rounds n.value y ∧ isNegative y = n.negative ∧
      y.isNaN = false ∧ ∀ c ∈ x.getLast?, isDigit c = true ∨ c = '.') ∧
    ∀ x n rest, Numeral.IsLiteral x n → Numeral.EndsLiteral rest →
      leadingNumber? (String.ofList (x ++ rest)) = leadingNumber? (String.ofList x) := by
  refine ⟨?_, fun y hy => ?_, fun x n rest hx hrest => ?_⟩
  · rw [leadingNumber?, Option.map_eq_none_iff]
    exact Numeral.read?_eq_none_iff
  · obtain ⟨⟨n, rest⟩, hread, rfl⟩ := Option.map_eq_some_iff.1 hy
    obtain ⟨x, -, hx⟩ := Numeral.read?_eq_some_iff.1 hread
    exact ⟨x, n, hx, hx.literal.wholeNumber?_eq, n.rounds_toFloat, isNegative_ofPattern _ _,
      n.isNaN_toFloat, hx.literal.getLast⟩
  · have hx' : (String.ofList x).toList = x ++ [] := by rw [String.toList_ofList, List.append_nil]
    rw [hx.leadingNumber?_eq hx' Numeral.endsLiteral_nil,
      hx.leadingNumber?_eq String.toList_ofList hrest]

/-- Digits of any script count, and a letter and a sign without digits behind them do not. -/
theorem leadingNumber?_longest_arabicDigit :
    ∃ x n, Numeral.IsLongest "-٣.e+x".toList x n ∧ wholeNumber? (String.ofList x) = some (-3.0) ∧
      Rounds n.value (-3.0) := by
  have hblank : dropBlanks "\u2003-٣.e+x".toList = "-٣.e+x".toList := by decide
  obtain ⟨x, n, hx, hwhole, hrounds, -⟩ :=
    (leadingNumber?_longest "\u2003-٣.e+x").2.1 (-3.0) (by decide +kernel)
  rw [hblank] at hx
  exact ⟨x, n, hx, hwhole, hrounds⟩

end Monochord
