import Mathlib.Data.List.Forall2
import Monochord.Numeral
import Monochord.Proofs.Text.Pieces

/-! # The grammar of numerals

A numeral is an optional sign, digits with a point behind, among or in front of them, and an
optional exponent. The digits may belong to any scripts.

* **`DigitRun`** — a run of digits and their values.
* **`Numeral.IsSign`**, **`Numeral.IsMantissa`**, **`Numeral.IsExponent`** — the grammar of the
  parts; **`Numeral.IsLiteral`**: that of a whole numeral.
* **`Numeral.IsLiteral.read?_append`** — a numeral is read as what it is, and what follows it does
  not matter unless the numeral might go on with it.
* **`Numeral.exists_isLiteral`** — whatever is read is a numeral.
* **`Numeral.IsLiteral.isPlain`**, **`Numeral.IsLiteral.getLast`** — the characters of a numeral,
  and the last of them.
* **`Numeral.IsLiteral.leadingNumber?_eq`** — the double at the start of a text. -/

namespace Monochord

open Text

/-! ## Runs of digits -/

/-- Digits `cs` of any scripts, with their values `ds`. -/
def DigitRun (cs : List Char) (ds : List Nat) : Prop :=
  List.Forall₂ (fun c d => digit? c = some d) cs ds

/-- All characters of a `DigitRun` are digits. -/
theorem DigitRun.isDigit {cs : List Char} {ds : List Nat} (h : DigitRun cs ds) :
    ∀ c ∈ cs, isDigit c = true := by
  induction h with
  | nil => exact fun c hc => absurd hc List.not_mem_nil
  | cons hc _ ih =>
    refine List.forall_mem_cons.2 ⟨?_, ih⟩
    rw [Text.isDigit, hc]
    rfl

/-- A `DigitRun` is empty exactly if it has no values. -/
theorem DigitRun.eq_nil_iff {cs : List Char} {ds : List Nat} (h : DigitRun cs ds) :
    cs = [] ↔ ds = [] := by
  rw [← List.length_eq_zero_iff, h.length_eq, List.length_eq_zero_iff]

/-- `takeDigits (cs ++ rest) = ds ++ takeDigits rest` for a `DigitRun` in front. -/
theorem takeDigits_append {cs : List Char} {ds : List Nat} (h : DigitRun cs ds)
    (rest : List Char) : takeDigits (cs ++ rest) = ds ++ takeDigits rest := by
  induction h with
  | nil => rfl
  | cons hc _ ih =>
    rw [List.cons_append, takeDigits, hc]
    exact congrArg (_ :: ·) ih

/-- `dropDigits (cs ++ rest) = dropDigits rest` for a `DigitRun` in front. -/
theorem dropDigits_append {cs : List Char} {ds : List Nat} (h : DigitRun cs ds)
    (rest : List Char) : dropDigits (cs ++ rest) = dropDigits rest := by
  induction h with
  | nil => rfl
  | cons hc _ ih =>
    rw [List.cons_append, dropDigits, hc]
    exact ih

/-- `cs` is a `DigitRun` with the values `takeDigits cs`, and `dropDigits cs`. -/
theorem exists_digitRun_append (cs : List Char) :
    ∃ run, cs = run ++ dropDigits cs ∧ DigitRun run (takeDigits cs) := by
  induction cs with
  | nil => exact ⟨[], rfl, .nil⟩
  | cons c cs ih =>
    rw [dropDigits, takeDigits]
    cases hc : digit? c with
    | none => exact ⟨[], rfl, .nil⟩
    | some d =>
      obtain ⟨run, hrun, hdigits⟩ := ih
      exact ⟨c :: run, congrArg (c :: ·) hrun, .cons hc hdigits⟩

/-- `takeDigits cs = []` if `cs` does not start with a digit. -/
theorem takeDigits_eq_nil {cs : List Char} (h : ∀ c ∈ cs.head?, digit? c = none) :
    takeDigits cs = [] := by
  cases cs with
  | nil => rfl
  | cons c cs => rw [takeDigits, h c rfl]

/-- `dropDigits cs = cs` if `cs` does not start with a digit. -/
theorem dropDigits_eq_self {cs : List Char} (h : ∀ c ∈ cs.head?, digit? c = none) :
    dropDigits cs = cs := by
  cases cs with
  | nil => rfl
  | cons c cs => rw [dropDigits, h c rfl]

/-- A digit is different from any character that is none. -/
theorem ne_of_isDigit {c d : Char} (hc : isDigit c = true) (hd : isDigit d = false) : c ≠ d := by
  rintro rfl
  rw [hc] at hd
  exact Bool.noConfusion hd

/-- `digit? '.' = none`. -/
theorem digit?_point : digit? '.' = none := by decide

/-- No digit of any script is blank: `isBlank c = false`. -/
theorem isBlank_of_digit {c : Char} (h : isDigit c = true) : isBlank c = false := by
  -- the runs of digits lie between the ranges of blanks
  have hbetween : ∀ z ∈ digitZeros, (0x20 < z ∧ z + 9 < 0x85) ∨ (0xA0 < z ∧ z + 9 < 0x1680) ∨
      (0x1680 < z ∧ z + 9 < 0x2000) ∨ 0x3000 < z := by
    decide
  rw [isDigit, digit?, Option.isSome_map] at h
  obtain ⟨z, hz⟩ := Option.isSome_iff_exists.1 h
  have hrange := List.find?_some hz
  have hplace := hbetween z (List.mem_of_find?_eq_some hz)
  rw [Bool.and_eq_true, decide_eq_true_eq, decide_eq_true_eq] at hrange
  simp only [isBlank, Bool.or_eq_false_iff, Bool.and_eq_false_iff, decide_eq_false_iff_not,
    beq_eq_false_iff_ne]
  omega

namespace Numeral

/-! ## The grammar -/

/-- An optional sign: is it a minus? -/
inductive IsSign : List Char → Bool → Prop
  /-- No sign. -/
  | absent : IsSign [] false
  /-- A plus sign. -/
  | plus : IsSign ['+'] false
  /-- A minus sign. -/
  | minus : IsSign ['-'] true

/-- Digits with a point behind or among them, or a point with digits behind it: the values of the
digits before the point and of those after it. -/
inductive IsMantissa : List Char → List Nat → List Nat → Prop
  /-- Digits without a point. -/
  | whole {whole : List Char} {ds : List Nat} (hwhole : DigitRun whole ds) (hne : whole ≠ []) :
    IsMantissa whole ds []
  /-- Digits, a point, and further digits if there are any. -/
  | point {whole fraction : List Char} {ds es : List Nat} (hwhole : DigitRun whole ds)
    (hne : whole ≠ []) (hfraction : DigitRun fraction es) :
    IsMantissa (whole ++ '.' :: fraction) ds es
  /-- A point and digits. -/
  | fraction {fraction : List Char} {es : List Nat} (hfraction : DigitRun fraction es)
    (hne : fraction ≠ []) : IsMantissa ('.' :: fraction) [] es

/-- An optional exponent: the letter `e` in either case, an optional sign, and digits. -/
inductive IsExponent : List Char → Int → Prop
  /-- No exponent. -/
  | absent : IsExponent [] 0
  /-- The letter, an optional sign, and digits. -/
  | letter {c : Char} {sign run : List Char} {negative : Bool} {ds : List Nat}
    (hc : c = 'e' ∨ c = 'E') (hsign : IsSign sign negative) (hrun : DigitRun run ds)
    (hne : run ≠ []) :
    IsExponent (c :: (sign ++ run)) (if negative then -(ofDigits ds : Int) else ofDigits ds)

/-- A text `cs` that is the numeral `n` as a whole: a sign, a mantissa and an exponent. -/
def IsLiteral (cs : List Char) (n : Numeral) : Prop :=
  ∃ sign mantissa exponent, cs = sign ++ (mantissa ++ exponent) ∧ IsSign sign n.negative ∧
    IsMantissa mantissa n.whole n.fraction ∧ IsExponent exponent n.exponent

/-! ## Signs -/

/-- A digit is neither `'-'` nor `'+'`. -/
theorem ne_sign_of_isDigit {c : Char} (h : isDigit c = true) : c ≠ '-' ∧ c ≠ '+' :=
  ⟨ne_of_isDigit h (by decide), ne_of_isDigit h (by decide)⟩

/-- `readSign cs = (false, cs)` if `cs` does not start with a sign. -/
theorem readSign_eq_self {cs : List Char} (h : ∀ c ∈ cs.head?, c ≠ '-' ∧ c ≠ '+') :
    readSign cs = (false, cs) := by
  rw [readSign.eq_def]
  split
  · exact absurd rfl (h '-' rfl).1
  · exact absurd rfl (h '+' rfl).2
  · rfl

/-- `readSign (sign ++ rest) = (negative, rest)` if `rest` does not start with a sign. -/
theorem IsSign.readSign_append {sign rest : List Char} {negative : Bool} (h : IsSign sign negative)
    (hrest : ∀ c ∈ rest.head?, c ≠ '-' ∧ c ≠ '+') :
    readSign (sign ++ rest) = (negative, rest) := by
  cases h with
  | absent => exact readSign_eq_self hrest
  | plus => rfl
  | minus => rfl

/-- `cs` is the sign that `readSign` finds and the rest. -/
theorem exists_isSign (cs : List Char) :
    ∃ sign, cs = sign ++ (readSign cs).2 ∧ IsSign sign (readSign cs).1 := by
  rw [readSign.eq_def]
  split
  · exact ⟨['-'], rfl, .minus⟩
  · exact ⟨['+'], rfl, .plus⟩
  · exact ⟨[], rfl, .absent⟩

/-! ## Digits with a point -/

/-- A mantissa starts with a digit or with `'.'`. -/
theorem IsMantissa.head {mantissa : List Char} {ds es : List Nat} (h : IsMantissa mantissa ds es) :
    ∃ c rest, mantissa = c :: rest ∧ (isDigit c = true ∨ c = '.') := by
  cases h with
  | whole hwhole hne =>
    obtain ⟨c, cs, rfl⟩ := List.exists_cons_of_ne_nil hne
    exact ⟨c, cs, rfl, .inl (hwhole.isDigit c List.mem_cons_self)⟩
  | point hwhole hne =>
    obtain ⟨c, cs, rfl⟩ := List.exists_cons_of_ne_nil hne
    exact ⟨c, _, rfl, .inl (hwhole.isDigit c List.mem_cons_self)⟩
  | fraction => exact ⟨'.', _, rfl, .inr rfl⟩

/-- A mantissa does not start with a sign. -/
theorem IsMantissa.ne_sign {mantissa : List Char} {ds es : List Nat}
    (h : IsMantissa mantissa ds es) (rest : List Char) :
    ∀ c ∈ (mantissa ++ rest).head?, c ≠ '-' ∧ c ≠ '+' := by
  obtain ⟨c, tail, rfl, hc⟩ := h.head
  intro d hd
  obtain rfl : c = d := Option.some.inj hd
  rcases hc with hc | rfl
  · exact ne_sign_of_isDigit hc
  · exact ⟨by decide, by decide⟩

/-- After digits, `readMantissa?` takes a point and the digits behind it, if there is a point. -/
theorem readMantissa?_of_takeDigits {cs : List Char} {d : Nat} {ds : List Nat}
    (h : takeDigits cs = d :: ds) :
    readMantissa? cs = match dropDigits cs with
      | '.' :: rest => some (d :: ds, takeDigits rest, dropDigits rest)
      | rest => some (d :: ds, [], rest) := by
  rw [readMantissa?, h]
  cases dropDigits cs with
  | nil => rfl
  | cons c rest =>
    by_cases hc : c = '.'
    · subst hc
      rfl
    · simp [hc]

/-- `readMantissa? (whole ++ rest)` takes the run `whole` and the digits of `rest` first. -/
theorem readMantissa?_append {whole : List Char} {ds : List Nat} (h : DigitRun whole ds)
    (hne : whole ≠ []) (rest : List Char) :
    readMantissa? (whole ++ rest) = match dropDigits rest with
      | '.' :: tail => some (ds ++ takeDigits rest, takeDigits tail, dropDigits tail)
      | tail => some (ds ++ takeDigits rest, [], tail) := by
  obtain ⟨d, ds, rfl⟩ := List.exists_cons_of_ne_nil (mt h.eq_nil_iff.2 hne)
  rw [readMantissa?_of_takeDigits (takeDigits_append h rest), dropDigits_append h]
  rfl

/-- `readMantissa?` of digits around a point goes on with the digits of `rest`. -/
theorem readMantissa?_point_append {whole fraction : List Char} {ds es : List Nat}
    (hwhole : DigitRun whole ds) (hfraction : DigitRun fraction es) (hne : whole ++ fraction ≠ [])
    (rest : List Char) :
    readMantissa? (whole ++ '.' :: (fraction ++ rest)) =
      some (ds, es ++ takeDigits rest, dropDigits rest) := by
  have hpoint : ∀ c ∈ ('.' :: (fraction ++ rest)).head?, digit? c = none := by
    intro c hc
    rw [← Option.some.inj hc]
    exact digit?_point
  rw [← takeDigits_append hfraction, ← dropDigits_append hfraction]
  by_cases hwhole0 : whole = []
  · -- without digits in front there must be some behind the point
    subst hwhole0
    obtain rfl := hwhole.eq_nil_iff.1 rfl
    have htake : takeDigits (fraction ++ rest) ≠ [] := by
      rw [takeDigits_append hfraction]
      exact List.append_ne_nil_of_left_ne_nil (mt hfraction.eq_nil_iff.2 hne) _
    rw [List.nil_append, readMantissa?, takeDigits_eq_nil hpoint, dropDigits_eq_self hpoint]
    exact if_neg htake
  · rw [readMantissa?_append hwhole hwhole0, takeDigits_eq_nil hpoint, dropDigits_eq_self hpoint,
      List.append_nil]
    rfl

/-- What may follow digits that do not go on: no digit and no point. -/
def EndsMantissa (rest : List Char) : Prop := ∀ c ∈ rest.head?, digit? c = none ∧ c ≠ '.'

/-- `readMantissa? (mantissa ++ rest) = some (ds, es, rest)` if `EndsMantissa rest`. -/
theorem IsMantissa.readMantissa?_append {mantissa : List Char} {ds es : List Nat}
    (h : IsMantissa mantissa ds es) {rest : List Char} (hrest : EndsMantissa rest) :
    readMantissa? (mantissa ++ rest) = some (ds, es, rest) := by
  have htake := takeDigits_eq_nil fun c hc => (hrest c hc).1
  have hdrop := dropDigits_eq_self fun c hc => (hrest c hc).1
  cases h with
  | whole hwhole hne =>
    rw [Numeral.readMantissa?_append hwhole hne, htake, hdrop, List.append_nil]
    split
    · exact absurd rfl (hrest '.' rfl).2
    · rfl
  | point hwhole hne hfraction =>
    rw [List.append_assoc, List.cons_append, readMantissa?_point_append hwhole hfraction
      (List.append_ne_nil_of_left_ne_nil hne _), htake, hdrop, List.append_nil]
  | fraction hfraction hne =>
    have hread := readMantissa?_point_append .nil hfraction hne rest
    rw [htake, hdrop, List.append_nil] at hread
    exact hread

/-- `cs` is the mantissa that `readMantissa?` finds and the rest. -/
theorem exists_isMantissa {cs rest : List Char} {ds es : List Nat}
    (h : readMantissa? cs = some (ds, es, rest)) :
    ∃ mantissa, cs = mantissa ++ rest ∧ IsMantissa mantissa ds es := by
  obtain ⟨whole, hcs, hwhole⟩ := exists_digitRun_append cs
  rw [readMantissa?] at h
  split at h
  · -- only a point in front
    next tail htake hdrop =>
    obtain ⟨fraction, htail, hfraction⟩ := exists_digitRun_append tail
    rw [hwhole.eq_nil_iff.2 htake, List.nil_append, hdrop] at hcs
    split at h
    · exact absurd h (by simp)
    · next hsome =>
      obtain ⟨rfl, rfl, rfl⟩ : [] = ds ∧ takeDigits tail = es ∧ dropDigits tail = rest := by
        simpa using h
      refine ⟨'.' :: fraction, ?_, .fraction hfraction (mt hfraction.eq_nil_iff.1 hsome)⟩
      rw [List.cons_append, ← htail]
      exact hcs
  · exact absurd h (by simp)
  · -- digits, and a point behind them
    next tail hdrop htake =>
    obtain ⟨fraction, htail, hfraction⟩ := exists_digitRun_append tail
    obtain ⟨rfl, rfl, rfl⟩ :
        takeDigits cs = ds ∧ takeDigits tail = es ∧ dropDigits tail = rest := by
      simpa using h
    refine ⟨whole ++ '.' :: fraction, ?_, .point hwhole (mt hwhole.eq_nil_iff.1 htake) hfraction⟩
    rw [List.append_assoc, List.cons_append, ← htail, ← hdrop]
    exact hcs
  · -- digits alone
    next htake _ _ =>
    obtain ⟨rfl, rfl, rfl⟩ : takeDigits cs = ds ∧ [] = es ∧ dropDigits cs = rest := by
      simpa using h
    exact ⟨whole, hcs, .whole hwhole (mt hwhole.eq_nil_iff.1 htake)⟩

/-! ## Exponents -/

/-- `readExponent` takes the letter, the sign, the digits `run`, and those of `rest`. -/
theorem readExponent_letter {c : Char} {sign run : List Char} {negative : Bool} {ds : List Nat}
    (hc : c = 'e' ∨ c = 'E') (hsign : IsSign sign negative) (hrun : DigitRun run ds)
    (hne : run ≠ []) (rest : List Char) :
    readExponent (c :: (sign ++ run) ++ rest) =
      (if negative then -(ofDigits (ds ++ takeDigits rest) : Int)
        else ofDigits (ds ++ takeDigits rest), dropDigits rest) := by
  have hfront : ∀ c ∈ (run ++ rest).head?, c ≠ '-' ∧ c ≠ '+' := by
    obtain ⟨d, tail, rfl⟩ := List.exists_cons_of_ne_nil hne
    intro c hc
    obtain rfl : d = c := Option.some.inj hc
    exact ne_sign_of_isDigit (hrun.isDigit d List.mem_cons_self)
  have hletter : (decide (c = 'e') || decide (c = 'E')) = true := by simpa using hc
  obtain ⟨d, ds, rfl⟩ := List.exists_cons_of_ne_nil (mt hrun.eq_nil_iff.2 hne)
  rw [List.cons_append, List.append_assoc, readExponent, if_pos hletter,
    hsign.readSign_append hfront]
  dsimp only
  rw [takeDigits_append hrun, dropDigits_append hrun]
  rfl

/-- `readExponent cs = (0, cs)` if `cs` does not start with the letter `e`. -/
theorem readExponent_eq_self {cs : List Char} (h : ∀ c ∈ cs.head?, c ≠ 'e' ∧ c ≠ 'E') :
    readExponent cs = (0, cs) := by
  cases cs with
  | nil => rfl
  | cons c cs =>
    rw [readExponent, if_neg]
    simpa using h c rfl

/-- `cs` is the exponent that `readExponent` finds and the rest. -/
theorem exists_isExponent (cs : List Char) :
    ∃ exponent, cs = exponent ++ (readExponent cs).2 ∧
      IsExponent exponent (readExponent cs).1 := by
  cases cs with
  | nil => exact ⟨[], rfl, .absent⟩
  | cons c cs =>
    rw [readExponent]
    split
    · next hc =>
      obtain ⟨sign, hsign, hnegative⟩ := exists_isSign cs
      obtain ⟨run, hrun, hdigits⟩ := exists_digitRun_append (readSign cs).2
      dsimp only
      split
      · exact ⟨[], rfl, .absent⟩
      · next htake =>
        refine ⟨c :: (sign ++ run), ?_, .letter (by simpa using hc) hnegative hdigits
          (mt hdigits.eq_nil_iff.1 htake)⟩
        rw [List.cons_append, List.append_assoc, ← hrun, ← hsign]
    · exact ⟨[], rfl, .absent⟩

/-- `EndsMantissa` of a text that starts with the letter `e`. -/
theorem endsMantissa_letter {c : Char} (hc : c = 'e' ∨ c = 'E') (cs rest : List Char) :
    EndsMantissa (c :: cs ++ rest) := by
  intro d hd
  obtain rfl : c = d := Option.some.inj hd
  rcases hc with rfl | rfl
  · exact ⟨by decide, by decide⟩
  · exact ⟨by decide, by decide⟩

/-! ## Numerals -/

/-- `read? cs` is `readSign`, then `readMantissa?`, then `readExponent`. -/
theorem read?_eq (cs : List Char) :
    read? cs = (readMantissa? (readSign cs).2).map fun p =>
      (⟨(readSign cs).1, p.1, p.2.1, (readExponent p.2.2).1⟩, (readExponent p.2.2).2) := rfl

/-- `read? (sign ++ tail)` is the mantissa of `tail` with this sign, and the exponent behind it. -/
theorem read?_of_readMantissa? {sign tail rest : List Char} {negative : Bool} {ds es : List Nat}
    (hsign : IsSign sign negative) (htail : ∀ c ∈ tail.head?, c ≠ '-' ∧ c ≠ '+')
    (h : readMantissa? tail = some (ds, es, rest)) :
    read? (sign ++ tail) =
      some (⟨negative, ds, es, (readExponent rest).1⟩, (readExponent rest).2) := by
  rw [read?_eq, hsign.readSign_append htail, h, Option.map_some]

/-- What may follow a numeral that does not go on: no digit, no point and no letter of an
exponent. -/
def EndsLiteral (rest : List Char) : Prop :=
  ∀ c ∈ rest.head?, digit? c = none ∧ c ≠ '.' ∧ c ≠ 'e' ∧ c ≠ 'E'

/-- `EndsLiteral []`. -/
theorem endsLiteral_nil : EndsLiteral [] := fun _ hc => absurd hc (by simp)

/-- **`read? (x ++ rest) = some (n, rest)` if `EndsLiteral rest`**: what follows a numeral does not
matter, unless the numeral might go on with it. -/
theorem IsLiteral.read?_append {x : List Char} {n : Numeral} (h : IsLiteral x n) {rest : List Char}
    (hrest : EndsLiteral rest) : read? (x ++ rest) = some (n, rest) := by
  obtain ⟨sign, mantissa, exponent, rfl, hsign, hmantissa, hexponent⟩ := h
  obtain ⟨negative, ds, es, e⟩ := n
  dsimp only at hsign hmantissa hexponent
  rw [List.append_assoc, List.append_assoc]
  cases hexponent with
  | absent =>
    have hends : EndsMantissa rest := fun c hc => ⟨(hrest c hc).1, (hrest c hc).2.1⟩
    rw [List.nil_append, read?_of_readMantissa? hsign (hmantissa.ne_sign _)
      (hmantissa.readMantissa?_append hends),
      readExponent_eq_self fun c hc => (hrest c hc).2.2]
  | letter hc hnegative hrun hne =>
    rw [read?_of_readMantissa? hsign (hmantissa.ne_sign _)
      (hmantissa.readMantissa?_append (endsMantissa_letter hc _ _)),
      readExponent_letter hc hnegative hrun hne,
      takeDigits_eq_nil fun c hc => (hrest c hc).1, dropDigits_eq_self fun c hc => (hrest c hc).1,
      List.append_nil]

/-- `read? x = some (n, [])` for a numeral `x`. -/
theorem IsLiteral.read?_eq {x : List Char} {n : Numeral} (h : IsLiteral x n) :
    read? x = some (n, []) := by
  have hread := h.read?_append endsLiteral_nil
  rwa [List.append_nil] at hread

/-- A numeral is not empty. -/
theorem IsLiteral.exists_cons {x : List Char} {n : Numeral} (h : IsLiteral x n) :
    ∃ c rest, x = c :: rest := by
  obtain ⟨sign, mantissa, exponent, rfl, -, hmantissa, -⟩ := h
  obtain ⟨c, tail, rfl, -⟩ := hmantissa.head
  exact List.exists_cons_of_ne_nil (by simp)

/-- `cs` is the numeral that `read?` finds and the rest. -/
theorem exists_isLiteral {cs rest : List Char} {n : Numeral} (h : read? cs = some (n, rest)) :
    ∃ x, cs = x ++ rest ∧ IsLiteral x n := by
  obtain ⟨sign, hcs, hsign⟩ := exists_isSign cs
  rw [read?_eq] at h
  obtain ⟨⟨ds, es, tail⟩, hread, hn⟩ := Option.map_eq_some_iff.1 h
  obtain ⟨mantissa, hmantissa, hdigits⟩ := exists_isMantissa hread
  obtain ⟨exponent, htail, hexponent⟩ := exists_isExponent tail
  obtain ⟨rfl, rfl⟩ := Prod.mk.inj hn
  refine ⟨sign ++ (mantissa ++ exponent), ?_, sign, mantissa, exponent, rfl, hsign, hdigits,
    hexponent⟩
  rw [List.append_assoc, List.append_assoc, ← htail, ← hmantissa]
  exact hcs

/-- `IsLiteral x` holds of one numeral at most. -/
theorem IsLiteral.unique {x : List Char} {n m : Numeral} (hn : IsLiteral x n) (hm : IsLiteral x m) :
    n = m := by
  have hread := hn.read?_eq
  rw [hm.read?_eq] at hread
  exact (Prod.mk.inj (Option.some.inj hread)).1.symm

/-! ## The characters of a numeral -/

/-- A character that a number may have inside: it is not blank, and not an underscore. -/
def IsPlain (c : Char) : Prop := isBlank c = false ∧ c ≠ '_'

/-- The characters of a `DigitRun` are plain. -/
theorem isPlain_of_digitRun {run : List Char} {ds : List Nat} (h : DigitRun run ds) :
    ∀ c ∈ run, IsPlain c := by
  intro c hc
  have hdigit := h.isDigit c hc
  exact ⟨isBlank_of_digit hdigit, ne_of_isDigit hdigit (by decide)⟩

/-- The characters of a sign are plain. -/
theorem IsSign.isPlain {sign : List Char} {negative : Bool} (h : IsSign sign negative) :
    ∀ c ∈ sign, IsPlain c := by
  cases h with
  | absent => exact fun c hc => absurd hc List.not_mem_nil
  | plus =>
    intro c hc
    rw [List.mem_singleton.1 hc]
    exact ⟨by decide, by decide⟩
  | minus =>
    intro c hc
    rw [List.mem_singleton.1 hc]
    exact ⟨by decide, by decide⟩

/-- The characters of a mantissa are plain. -/
theorem IsMantissa.isPlain {mantissa : List Char} {ds es : List Nat}
    (h : IsMantissa mantissa ds es) : ∀ c ∈ mantissa, IsPlain c := by
  have hpoint : IsPlain '.' := ⟨by decide, by decide⟩
  cases h with
  | whole hwhole => exact isPlain_of_digitRun hwhole
  | point hwhole _ hfraction =>
    exact List.forall_mem_append.2
      ⟨isPlain_of_digitRun hwhole, List.forall_mem_cons.2 ⟨hpoint, isPlain_of_digitRun hfraction⟩⟩
  | fraction hfraction => exact List.forall_mem_cons.2 ⟨hpoint, isPlain_of_digitRun hfraction⟩

/-- The characters of an exponent are plain. -/
theorem IsExponent.isPlain {exponent : List Char} {e : Int} (h : IsExponent exponent e) :
    ∀ c ∈ exponent, IsPlain c := by
  cases h with
  | absent => exact fun c hc => absurd hc List.not_mem_nil
  | letter hc hsign hrun =>
    refine List.forall_mem_cons.2 ⟨?_, List.forall_mem_append.2
      ⟨hsign.isPlain, isPlain_of_digitRun hrun⟩⟩
    rcases hc with rfl | rfl
    · exact ⟨by decide, by decide⟩
    · exact ⟨by decide, by decide⟩

/-- All characters of a numeral are plain: `IsPlain c`. -/
theorem IsLiteral.isPlain {x : List Char} {n : Numeral} (h : IsLiteral x n) :
    ∀ c ∈ x, IsPlain c := by
  obtain ⟨sign, mantissa, exponent, rfl, hsign, hmantissa, hexponent⟩ := h
  exact List.forall_mem_append.2 ⟨hsign.isPlain,
    List.forall_mem_append.2 ⟨hmantissa.isPlain, hexponent.isPlain⟩⟩

/-- `'.' :: run` ends with a digit, or with `'.'` if there are none. -/
theorem getLast_point {run : List Char} {ds : List Nat} (h : DigitRun run ds) :
    ∀ c ∈ ('.' :: run).getLast?, isDigit c = true ∨ c = '.' := by
  intro c hc
  rcases List.mem_cons.1 (List.mem_of_getLast? hc) with rfl | hmem
  · exact .inr rfl
  · exact .inl (h.isDigit c hmem)

/-- A mantissa ends with a digit or with `'.'`. -/
theorem IsMantissa.getLast {mantissa : List Char} {ds es : List Nat}
    (h : IsMantissa mantissa ds es) :
    ∀ c ∈ mantissa.getLast?, isDigit c = true ∨ c = '.' := by
  cases h with
  | whole hwhole => exact fun c hc => .inl (hwhole.isDigit c (List.mem_of_getLast? hc))
  | point _ _ hfraction =>
    rw [List.getLast?_append_of_ne_nil _ (List.cons_ne_nil _ _)]
    exact getLast_point hfraction
  | fraction hfraction => exact getLast_point hfraction

/-- **A numeral ends with a digit or with `'.'`**, and so never with a letter or a sign. -/
theorem IsLiteral.getLast {x : List Char} {n : Numeral} (h : IsLiteral x n) :
    ∀ c ∈ x.getLast?, isDigit c = true ∨ c = '.' := by
  obtain ⟨sign, mantissa, exponent, rfl, hsign, hmantissa, hexponent⟩ := h
  obtain ⟨d, tail, hne, -⟩ := hmantissa.head
  rw [← List.append_assoc]
  generalize n.exponent = e at hexponent
  cases hexponent with
  | absent =>
    rw [List.append_nil, List.getLast?_append_of_ne_nil _ (by rw [hne]; exact List.cons_ne_nil _ _)]
    exact hmantissa.getLast
  | letter _ _ hrun hrunne =>
    rw [List.getLast?_append_of_ne_nil _ (List.cons_ne_nil _ _), ← List.cons_append,
      List.getLast?_append_of_ne_nil _ hrunne]
    exact fun c hc => .inl (hrun.isDigit c (List.mem_of_getLast? hc))

end Numeral

/-- **`leadingNumber? s = some n.toFloat`** if `s` is a numeral and a rest with `EndsLiteral rest`.
-/
theorem Numeral.IsLiteral.leadingNumber?_eq {s : String} {x rest : List Char} {n : Numeral}
    (h : IsLiteral x n) (hs : s.toList = x ++ rest) (hrest : EndsLiteral rest) :
    leadingNumber? s = some n.toFloat := by
  obtain ⟨c, tail, rfl⟩ := h.exists_cons
  have hblank : dropBlanks (c :: tail ++ rest) = c :: tail ++ rest :=
    dropBlanks_eq_self fun d hd => by
      rw [← Option.some.inj hd]
      exact (h.isPlain c List.mem_cons_self).1
  rw [leadingNumber?, hs, hblank, h.read?_append hrest, Option.map_some]

end Monochord
