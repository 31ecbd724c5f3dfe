import Mathlib.Data.List.Induction
import Monochord.Proofs.Interval
import Monochord.Proofs.Names

/-! # Which symbols name an interval

A symbol is an optional accidental and a number in digits of any script. Up to the octave it names
an interval only in its usual spelling; above it only the accidental and the number count, and seven
degrees are an octave.

* **`Writes`**, **`Spells`** — the grammar of numbers and of symbols;
  **`Symbol.read?_eq_some_iff`**: the reader of symbols accepts exactly this grammar.
* **`simpleNames`**, **`IsSimpleName`** — the spellings of the simple intervals.
* **`Interval.Reads`** — what becomes of a text.
* **`Names`** — the texts that name an interval; **`Interval.exists_ofTrimmed_iff`**: these are the
  texts that are accepted.
* **`Interval.namedRatio`**, **`Interval.namedSemitones`** — what a text names, however many digits
  it has; **`Interval.readings_iff_tooLong`**: how the limit on digits cuts this short.
* **`Interval.named_add_octave`** — seven degrees further up lies the same interval an octave
  higher.
* **`Interval.named_by_grammar`** — all this together. -/

namespace Monochord

open Text

/-! ## Numbers in any script -/

/-- The number that a run of digits writes, whatever scripts they belong to. -/
inductive Writes : List Char → ℕ → Prop
  /-- A digit writes its value. -/
  | digit {c : Char} {d : ℕ} : digit? c = some d → Writes [c] d
  /-- A further digit counts for one, and what stands before it for ten. -/
  | append {cs : List Char} {n : ℕ} {c : Char} {d : ℕ} :
      Writes cs n → digit? c = some d → Writes (cs ++ [c]) (10 * n + d)

/-- `cs ++ [c]` is a run of digits exactly if `cs` is one and `c` is a digit. -/
theorem dropDigits_append_singleton {cs : List Char} {c : Char} :
    dropDigits (cs ++ [c]) = [] ↔ dropDigits cs = [] ∧ ∃ d, digit? c = some d := by
  induction cs with
  | nil => cases h : digit? c <;> simp [dropDigits, h]
  | cons b cs ih =>
    cases h : digit? b with
    | none => simp [dropDigits, h]
    | some v => simpa [dropDigits, h] using ih

/-- `takeDigits (cs ++ [c]) = takeDigits cs ++ [d]` if `d` is the value of `c`. -/
theorem takeDigits_append_singleton {cs : List Char} {c : Char} {d : ℕ} (hcs : dropDigits cs = [])
    (hc : digit? c = some d) : takeDigits (cs ++ [c]) = takeDigits cs ++ [d] := by
  induction cs with
  | nil => simp [takeDigits, hc]
  | cons b cs ih =>
    cases h : digit? b with
    | none => simp [dropDigits, h] at hcs
    | some v =>
      simp only [dropDigits, h] at hcs
      simp [takeDigits, h, ih hcs]

/-- **`Writes cs n` exactly if `cs` is a run of digits**, whose values make up `n`. -/
theorem writes_iff {cs : List Char} {n : ℕ} :
    Writes cs n ↔ cs ≠ [] ∧ dropDigits cs = [] ∧ ofDigits (takeDigits cs) = n := by
  constructor
  · intro h
    induction h with
    | digit hc => simp [dropDigits, takeDigits, hc, ofDigits]
    | append _ hc ih =>
      obtain ⟨-, hdrop, rfl⟩ := ih
      refine ⟨by simp, dropDigits_append_singleton.2 ⟨hdrop, _, hc⟩, ?_⟩
      rw [takeDigits_append_singleton hdrop hc, ofDigits_append_singleton]
  · -- the last digit is split off, as the grammar does
    induction cs using List.reverseRecOn generalizing n with
    | nil => simp
    | append_singleton cs c ih =>
      rintro ⟨-, hdrop, rfl⟩
      obtain ⟨hcs, d, hc⟩ := dropDigits_append_singleton.1 hdrop
      rw [takeDigits_append_singleton hcs hc, ofDigits_append_singleton]
      by_cases hne : cs = []
      · subst hne
        simpa using Writes.digit hc
      · exact .append (ih ⟨hne, hcs, rfl⟩) hc

/-- `n < 10 ^ cs.length` if `Writes cs n`. -/
theorem Writes.lt {cs : List Char} {n : ℕ} (h : Writes cs n) : n < 10 ^ cs.length := by
  induction h with
  | digit hc => simpa using digit?_lt hc
  | append _ hc ih =>
    have hd := digit?_lt hc
    rw [List.length_append, List.length_singleton, pow_succ]
    omega

/-- All characters of `cs` are digits if `Writes cs n`. -/
theorem Writes.isDigit {cs : List Char} {n : ℕ} (h : Writes cs n) :
    ∀ c ∈ cs, isDigit c = true := by
  induction h with
  | digit hc => simp [Text.isDigit, hc]
  | append _ hc ih =>
    intro b hb
    rcases List.mem_append.1 hb with hb | hb
    · exact ih b hb
    · rw [List.mem_singleton.1 hb, Text.isDigit, hc]
      rfl

/-- `Nat.toDigits 10 n` writes `n`. -/
theorem writes_toDigits (n : ℕ) : Writes (Nat.toDigits 10 n) n := by
  have hdigits : DigitRun (Nat.toDigits 10 n) _ := (isDigits_digits n).digitRun
  have hdrop := dropDigits_append hdigits []
  have htake := takeDigits_append hdigits []
  rw [List.append_nil] at hdrop htake
  refine writes_iff.2 ⟨Nat.toDigits_ne_nil, hdrop, ?_⟩
  rw [htake, takeDigits_nil, List.append_nil]
  exact ofDigits_digits n

/-! ## Symbols -/

/-- A text that spells a symbol: the accidental, if there is one, and the degree in any digits. -/
def Spells (cs : List Char) (s : Symbol) : Prop :=
  ∃ ds, cs = s.accidental.chars ++ ds ∧ Writes ds s.degree

/-- **`Symbol.read? cs = some s` exactly if `Spells cs s`**: the reader of symbols accepts the
grammar. -/
theorem Symbol.read?_eq_some_iff {cs : List Char} {s : Symbol} :
    Symbol.read? cs = some s ↔ Spells cs s := by
  constructor
  · intro h
    rw [Symbol.read?] at h
    dsimp only at h
    split at h
    · exact absurd h (by simp)
    · next hdrop htake =>
      obtain rfl := Option.some.inj h
      refine ⟨_, Accidental.chars_read cs, writes_iff.2 ⟨?_, hdrop, rfl⟩⟩
      intro hnil
      rw [hnil] at htake
      exact htake rfl
    · exact absurd h (by simp)
  · rintro ⟨ds, rfl, hds⟩
    obtain ⟨hne, hdrop, hvalue⟩ := writes_iff.1 hds
    rw [Symbol.read?, s.accidental.read_append fun c hc =>
      ne_accidental_of_isDigit (hds.isDigit c (List.mem_of_mem_head? hc))]
    dsimp only
    split
    · next htake =>
      obtain ⟨c, cs, rfl⟩ := List.exists_cons_of_ne_nil hne
      obtain ⟨d, hd⟩ := Option.isSome_iff_exists.1 (hds.isDigit c List.mem_cons_self)
      simp [takeDigits, hd] at htake
    · rw [hvalue]
    · next hrest => exact absurd hdrop hrest

/-- `Symbol.read? cs = none` exactly if `cs` spells no symbol. -/
theorem Symbol.read?_eq_none_iff {cs : List Char} :
    Symbol.read? cs = none ↔ ¬∃ s, Spells cs s := by
  simp only [← Symbol.read?_eq_some_iff]
  exact Option.eq_none_iff_forall_not_mem.trans not_exists.symm

/-- `Spells cs` holds of one symbol at most. -/
theorem Spells.unique {cs : List Char} {s t : Symbol} (hs : Spells cs s) (ht : Spells cs t) :
    s = t := by
  rw [← Symbol.read?_eq_some_iff] at hs ht
  exact Option.some.inj (hs.symm.trans ht)

/-- `s.text` spells `s`. -/
theorem Symbol.spells_text (s : Symbol) : Spells s.text.toList s :=
  ⟨Nat.toDigits 10 s.degree, String.toList_ofList, writes_toDigits s.degree⟩

/-- `s.text = t.text` exactly if `s = t`. -/
theorem Symbol.text_inj {s t : Symbol} : s.text = t.text ↔ s = t :=
  ⟨fun h => s.spells_text.unique (h ▸ t.spells_text), fun h => h ▸ rfl⟩

/-- `trimmed s.text = s.text`. -/
theorem Symbol.trimmed_text (s : Symbol) : trimmed s.text = s.text := by
  rw [trimmed, (partText_text s).trim, String.ofList_toList]

/-! ## Names of the simple intervals -/

/-- The usual names of the simple intervals, from the unison to the octave. -/
def simpleNames : List String :=
  ["1", "b2", "2", "b3", "3", "4", "#4", "5", "b6", "6", "b7", "7", "8"]

/-- A usual name of a simple interval, or the other name of the tritone. -/
def IsSimpleName (text : String) : Prop := text ∈ simpleNames ∨ text = "b5"

/-- The symbols of the simple intervals, in the order of their names. -/
def simpleSymbols : List Symbol :=
  [⟨.none, 1⟩, ⟨.flat, 2⟩, ⟨.none, 2⟩, ⟨.flat, 3⟩, ⟨.none, 3⟩, ⟨.none, 4⟩, ⟨.sharp, 4⟩, ⟨.none, 5⟩,
    ⟨.flat, 6⟩, ⟨.none, 6⟩, ⟨.flat, 7⟩, ⟨.none, 7⟩, ⟨.none, 8⟩]

/-- `SimpleInterval.ofSymbol? s` exists exactly if `s` is one of `simpleSymbols`, or the diminished
fifth. -/
theorem SimpleInterval.ofSymbol?_isSome_iff {s : Symbol} :
    (SimpleInterval.ofSymbol? s).isSome = true ↔ s ∈ simpleSymbols ∨ s = ⟨.flat, 5⟩ := by
  constructor
  · intro h
    rw [SimpleInterval.ofSymbol?.eq_def] at h
    split at h <;> first | decide | exact absurd h Bool.false_ne_true
  · have hall : ∀ s ∈ simpleSymbols, (SimpleInterval.ofSymbol? s).isSome = true := by decide
    rintro (h | rfl)
    · exact hall s h
    · rfl

/-- **`SimpleInterval.ofSymbol? s` exists exactly if `IsSimpleName s.text`.** -/
theorem SimpleInterval.ofSymbol?_isSome_iff_text {s : Symbol} :
    (SimpleInterval.ofSymbol? s).isSome = true ↔ IsSimpleName s.text := by
  have hnames : simpleNames = simpleSymbols.map Symbol.text := by decide
  have hfifth : (Symbol.mk .flat 5).text = "b5" := by decide
  rw [ofSymbol?_isSome_iff, IsSimpleName, hnames, ← hfifth, Symbol.text_inj,
    List.mem_map_of_injective fun s t h => Symbol.text_inj.1 h]

/-- A simple name is `s.text` of a symbol with a degree up to `lastSimpleDegree`. -/
theorem IsSimpleName.exists_symbol {text : String} (h : IsSimpleName text) :
    ∃ s : Symbol, s.text = text ∧ s.degree ≤ lastSimpleDegree := by
  have hall : ∀ t ∈ "b5" :: simpleNames,
      ∃ s ∈ (⟨.flat, 5⟩ :: simpleSymbols : List Symbol),
        s.text = t ∧ s.degree ≤ lastSimpleDegree := by
    decide
  obtain ⟨s, -, hs⟩ := hall text (List.mem_cons.2 h.symm)
  exact ⟨s, hs⟩

/-! ## Names of intervals -/

/-- The simple interval at the bottom of a compound one. -/
def Symbol.base (s : Symbol) : Symbol := ⟨s.accidental, (s.degree - 1) % octaveSpan + 1⟩

/-- The texts that name an interval: a name of a simple one, or any spelling of a symbol beyond the
octave at whose bottom a simple interval lies. -/
def Names (text : String) : Prop :=
  IsSimpleName text ∨ ∃ s, Spells text.toList s ∧ 9 ≤ s.degree ∧ IsSimpleName s.base.text

namespace Interval

/-- `ofTrimmed text = complain (.intervalMalformed text)` if `text` spells no symbol. -/
theorem ofTrimmed_of_not_spells {text : String} (h : ¬∃ s, Spells text.toList s) :
    ofTrimmed text = complain (.intervalMalformed text) := by
  rw [ofTrimmed, Symbol.read?_eq_none_iff.2 h]

/-- Up to `lastSimpleDegree`, `ofTrimmed text` accepts the usual spelling of a simple interval only.
-/
theorem ofTrimmed_of_le {text : String} {s : Symbol} (hs : Spells text.toList s)
    (hle : s.degree ≤ lastSimpleDegree) :
    ofTrimmed text = match (if s.text = text then SimpleInterval.ofSymbol? s else none) with
      | some i => .ok ⟨i, 0⟩
      | none => complain (.intervalUnknown text) := by
  rw [ofTrimmed, Symbol.read?_eq_some_iff.2 hs]
  exact if_pos hle

/-- Beyond `lastSimpleDegree`, `ofTrimmed text` is the simple interval of `s.base` and whole
octaves, however `s` is spelt. -/
theorem ofTrimmed_of_lt {text : String} {s : Symbol} (hs : Spells text.toList s)
    (hlt : lastSimpleDegree < s.degree) :
    ofTrimmed text = match SimpleInterval.ofSymbol? s.base with
      | some i => .ok ⟨i, (s.degree - 1) / octaveSpan⟩
      | none => complain (.compoundUnknown text s.base.text) := by
  rw [ofTrimmed, Symbol.read?_eq_some_iff.2 hs]
  exact if_neg (Nat.not_le.2 hlt)

/-- `ofTrimmed s.text` is the simple interval of `s`, up to `lastSimpleDegree`. -/
theorem ofTrimmed_text_of_le {s : Symbol} (h : s.degree ≤ lastSimpleDegree) :
    ofTrimmed s.text = match SimpleInterval.ofSymbol? s with
      | some i => .ok ⟨i, 0⟩
      | none => complain (.intervalUnknown s.text) := by
  rw [ofTrimmed_of_le s.spells_text h, if_pos rfl]

/-- **What becomes of a text without blanks around it.** -/
inductive Reads (text : String) : Except Diagnostic Interval → Prop
  /-- It spells no symbol. -/
  | malformed (spells : ¬∃ s, Spells text.toList s) :
      Reads text (.error (Cause.intervalMalformed text).diagnostic)
  /-- It is the usual spelling of a simple interval. -/
  | simple {s : Symbol} {i : SimpleInterval} (spells : Spells text.toList s)
      (degree : s.degree ≤ lastSimpleDegree) (usual : s.text = text)
      (named : SimpleInterval.ofSymbol? s = some i) : Reads text (.ok ⟨i, 0⟩)
  /-- It spells another symbol up to the octave, or in another way. -/
  | unknown {s : Symbol} (spells : Spells text.toList s) :
      Reads text (.error (Cause.intervalUnknown text).diagnostic)
  /-- It spells a symbol beyond the octave, with a simple interval at its bottom. -/
  | compound {s : Symbol} {i : SimpleInterval} (spells : Spells text.toList s)
      (degree : lastSimpleDegree < s.degree) (named : SimpleInterval.ofSymbol? s.base = some i) :
      Reads text (.ok ⟨i, (s.degree - 1) / octaveSpan⟩)
  /-- It spells a symbol beyond the octave, without one. -/
  | compoundUnknown {s : Symbol} (spells : Spells text.toList s) :
      Reads text (.error (Cause.compoundUnknown text s.base.text).diagnostic)

/-- `Reads text (ofTrimmed text)` for every text. -/
theorem reads_ofTrimmed (text : String) : Reads text (ofTrimmed text) := by
  by_cases hspells : ∃ s, Spells text.toList s
  · obtain ⟨s, hs⟩ := hspells
    by_cases hle : s.degree ≤ lastSimpleDegree
    · rw [ofTrimmed_of_le hs hle]
      by_cases htext : s.text = text
      · rw [if_pos htext]
        cases hnamed : SimpleInterval.ofSymbol? s with
        | none => exact .unknown hs
        | some i => exact .simple hs hle htext hnamed
      · rw [if_neg htext]
        exact .unknown hs
    · rw [ofTrimmed_of_lt hs (Nat.not_le.1 hle)]
      cases hnamed : SimpleInterval.ofSymbol? s.base with
      | none => exact .compoundUnknown hs
      | some i => exact .compound hs (Nat.not_le.1 hle) hnamed
  · rw [ofTrimmed_of_not_spells hspells]
    exact .malformed hspells

/-- **`ofTrimmed text` accepts exactly the texts with `Names text`.** -/
theorem exists_ofTrimmed_iff {text : String} : (∃ i, ofTrimmed text = .ok i) ↔ Names text := by
  constructor
  · rintro ⟨i, hi⟩
    have hreads := reads_ofTrimmed text
    rw [hi] at hreads
    cases hreads with
    | simple _ _ htext hnamed =>
      refine .inl ?_
      rw [← htext, ← SimpleInterval.ofSymbol?_isSome_iff_text, hnamed]
      rfl
    | @compound s _ hs hlt hnamed =>
      refine .inr ⟨s, hs, hlt, ?_⟩
      rw [← SimpleInterval.ofSymbol?_isSome_iff_text, hnamed]
      rfl
  · rintro (hname | ⟨s, hs, hnine, hname⟩)
    · obtain ⟨s, rfl, hle⟩ := hname.exists_symbol
      rw [← SimpleInterval.ofSymbol?_isSome_iff_text] at hname
      obtain ⟨i, hi⟩ := Option.isSome_iff_exists.1 hname
      exact ⟨⟨i, 0⟩, by rw [ofTrimmed_text_of_le hle, hi]⟩
    · rw [← SimpleInterval.ofSymbol?_isSome_iff_text] at hname
      obtain ⟨i, hi⟩ := Option.isSome_iff_exists.1 hname
      exact ⟨⟨i, (s.degree - 1) / octaveSpan⟩, by rw [ofTrimmed_of_lt hs hnine, hi]⟩

/-- A complaint of `ofTrimmed text` has the kind `.unknownInterval` if the text spells a symbol, and
`.invalidInterval` otherwise. -/
theorem kind_of_ofTrimmed {text : String} {d : Diagnostic} (h : ofTrimmed text = .error d) :
    d.family = .symbol ∧
      ((∃ s, Spells text.toList s) ∧ d.kind = .unknownInterval ∨
        (¬∃ s, Spells text.toList s) ∧ d.kind = .invalidInterval) := by
  have hreads := reads_ofTrimmed text
  rw [h] at hreads
  cases hreads with
  | malformed hnot => exact ⟨rfl, .inr ⟨hnot, rfl⟩⟩
  | unknown hs => exact ⟨rfl, .inl ⟨⟨_, hs⟩, rfl⟩⟩
  | compoundUnknown hs => exact ⟨rfl, .inl ⟨⟨_, hs⟩, rfl⟩⟩

/-! ## Octaves -/

/-- An octave more doubles `ratio` and adds twelve to `semitones`. -/
theorem ratio_succ_octaves (i : SimpleInterval) (k : ℕ) :
    (Interval.mk i (k + 1)).ratio = 2 * (Interval.mk i k).ratio ∧
      (Interval.mk i (k + 1)).semitones = (Interval.mk i k).semitones + 12 := by
  constructor
  · rw [ratio, ratio, pow_succ]
    ring
  · rw [semitones, semitones]
    ring

/-- **Seven degrees further up `ofTrimmed` finds the same interval an octave higher**, and where
there is none, there is none either. -/
theorem ofTrimmed_add_octave (a : Accidental) {n : ℕ} (hn : 1 ≤ n) :
    (∃ d e, ofTrimmed (Symbol.mk a n).text = .error d ∧
      ofTrimmed (Symbol.mk a (n + 7)).text = .error e) ∨
    ∃ i j, ofTrimmed (Symbol.mk a n).text = .ok i ∧ ofTrimmed (Symbol.mk a (n + 7)).text = .ok j ∧
      j.ratio = 2 * i.ratio ∧ j.semitones = i.semitones + 12 := by
  have hbase : (Symbol.mk a (n + 7)).base = (Symbol.mk a n).base := by
    simp only [Symbol.base, octaveSpan, Symbol.mk.injEq, true_and]
    omega
  have hoctaves : (n + 7 - 1) / octaveSpan = (n - 1) / octaveSpan + 1 := by
    rw [octaveSpan]
    omega
  obtain rfl | hsimple | rfl | hcompound : n = 1 ∨ (1 < n ∧ n < 8) ∨ n = 8 ∨ 8 < n := by omega
  · -- the octave has a name of its own
    cases a with
    | none => exact .inr ⟨⟨.unison, 0⟩, ⟨.octave, 0⟩, by decide, by decide, by decide +kernel, rfl⟩
    | sharp => exact .inl ⟨_, _, rfl, rfl⟩
    | flat => exact .inl ⟨_, _, rfl, rfl⟩
  · -- a simple degree is the one at the bottom of its compound
    have hsame : (Symbol.mk a n).base = ⟨a, n⟩ := by
      simp only [Symbol.base, octaveSpan, Symbol.mk.injEq, true_and]
      omega
    have hnone : (n - 1) / octaveSpan = 0 := by
      rw [octaveSpan]
      omega
    rw [ofTrimmed_text_of_le (show n ≤ 8 by omega),
      ofTrimmed_of_lt (Symbol.mk a (n + 7)).spells_text (show 8 < n + 7 by omega), hbase, hsame,
      hoctaves, hnone]
    cases SimpleInterval.ofSymbol? ⟨a, n⟩ with
    | none => exact .inl ⟨_, _, rfl, rfl⟩
    | some i => exact .inr ⟨_, _, rfl, rfl, ratio_succ_octaves i 0⟩
  · -- two octaves are a unison above two octaves
    cases a with
    | none => exact .inr ⟨⟨.octave, 0⟩, ⟨.unison, 2⟩, by decide, by decide, by decide +kernel, rfl⟩
    | sharp => exact .inl ⟨_, _, rfl, rfl⟩
    | flat => exact .inl ⟨_, _, rfl, rfl⟩
  · -- both degrees are compound, with the same simple interval at the bottom
    rw [ofTrimmed_of_lt (Symbol.mk a n).spells_text hcompound,
      ofTrimmed_of_lt (Symbol.mk a (n + 7)).spells_text (show 8 < n + 7 by omega), hbase, hoctaves]
    cases SimpleInterval.ofSymbol? (Symbol.mk a n).base with
    | none => exact .inl ⟨_, _, rfl, rfl⟩
    | some i => exact .inr ⟨_, _, rfl, rfl, ratio_succ_octaves i _⟩

/-! ## Both readings -/

/-- The ratio that a text names, however many digits it has. -/
def namedRatio (text : String) : Except Diagnostic ℚ := (ofSymbol text).map ratio

/-- The semitones that a text names, however many digits it has. -/
def namedSemitones (text : String) : Except Diagnostic ℕ := (ofSymbol text).map semitones

/-- A text that spells a symbol in more digits than are read. -/
def TooLong (text : String) : Prop :=
  (∃ s, Spells (trimmed text).toList s) ∧ digitLimit < text.toList.countP isDigit

/-- `read text = .error .tooManyDigits` if `TooLong text`. -/
theorem read_of_tooLong {text : String} (h : TooLong text) : read text = .error .tooManyDigits := by
  obtain ⟨⟨s, hs⟩, hlimit⟩ := h
  rw [read, Symbol.read?_eq_some_iff.2 hs, exceedsDigitLimit, decide_eq_true hlimit]
  rfl

/-- `read text` is `ofSymbol text` unless `TooLong text`. -/
theorem read_of_not_tooLong {text : String} (h : ¬TooLong text) :
    read text = diagnosing (ofSymbol text) := by
  refine if_neg fun hread => h ?_
  rw [Bool.and_eq_true, exceedsDigitLimit, decide_eq_true_eq] at hread
  obtain ⟨s, hs⟩ := Option.isSome_iff_exists.1 hread.1
  exact ⟨⟨s, Symbol.read?_eq_some_iff.1 hs⟩, hread.2⟩

/-- `ratioOf text` is `namedRatio text` unless `TooLong text`. -/
theorem ratioOf_of_not_tooLong {text : String} (h : ¬TooLong text) :
    ratioOf text = diagnosing (namedRatio text) := by
  rw [ratioOf, read_of_not_tooLong h, namedRatio]
  cases ofSymbol text <;> rfl

/-- `semitonesOf text` is `namedSemitones text` unless `TooLong text`. -/
theorem semitonesOf_of_not_tooLong {text : String} (h : ¬TooLong text) :
    semitonesOf text = diagnosing (namedSemitones text) := by
  rw [semitonesOf, read_of_not_tooLong h, namedSemitones]
  cases ofSymbol text <;> rfl

/-- **`TooLong text` is all that keeps `ratioOf` and `semitonesOf`** from being `namedRatio` and
`namedSemitones`. -/
theorem readings_iff_tooLong (text : String) :
    (TooLong text ∧ ratioOf text = .error .tooManyDigits ∧
      semitonesOf text = .error .tooManyDigits) ∨
    (¬TooLong text ∧ ratioOf text = diagnosing (namedRatio text) ∧
      semitonesOf text = diagnosing (namedSemitones text)) := by
  by_cases h : TooLong text
  · refine .inl ⟨h, ?_, ?_⟩
    · rw [ratioOf, read_of_tooLong h]
      rfl
    · rw [semitonesOf, read_of_tooLong h]
      rfl
  · exact .inr ⟨h, ratioOf_of_not_tooLong h, semitonesOf_of_not_tooLong h⟩

/-- **`ofSymbol text` is an interval exactly if `Names (trimmed text)`.** -/
theorem exists_ofSymbol_iff {text : String} :
    (∃ i, ofSymbol text = .ok i) ↔ Names (trimmed text) := exists_ofTrimmed_iff

/-- `namedRatio` and `namedSemitones` complain alike about a text that names no interval. -/
theorem exists_named_eq_error {text : String} (h : ¬Names (trimmed text)) :
    ∃ d, namedRatio text = .error d ∧ namedSemitones text = .error d ∧ d.family = .symbol ∧
      ((∃ s, Spells (trimmed text).toList s) ∧ d.kind = .unknownInterval ∨
        (¬∃ s, Spells (trimmed text).toList s) ∧ d.kind = .invalidInterval) := by
  rw [← exists_ofSymbol_iff] at h
  rw [namedRatio, namedSemitones]
  cases hread : ofSymbol text with
  | ok i => exact absurd ⟨i, hread⟩ h
  | error d => exact ⟨d, rfl, rfl, kind_of_ofTrimmed hread⟩

/-- **Two compound symbols with the same accidental and degree name the same interval**:
`ofSymbol t` and `ofSymbol u` are equal, but for the words of a complaint. -/
theorem ofSymbol_congr {t u : String} {s : Symbol} (ht : Spells (trimmed t).toList s)
    (hu : Spells (trimmed u).toList s) (h : 9 ≤ s.degree) :
    (ofSymbol t).mapError (·.kind) = (ofSymbol u).mapError (·.kind) := by
  rw [ofSymbol, ofSymbol, ofTrimmed_of_lt ht h, ofTrimmed_of_lt hu h]
  cases SimpleInterval.ofSymbol? s.base <;> rfl

/-- `map` and `mapError` of a result may be swapped. -/
theorem mapError_map {α : Type} (x : Except Diagnostic Interval) (f : Interval → α) :
    (x.map f).mapError (·.kind) = (x.mapError (·.kind)).map f := by
  cases x <;> rfl

/-- **Seven degrees further up `namedRatio` is doubled and `namedSemitones` is greater by twelve.**
-/
theorem named_add_octave (a : Accidental) {n : ℕ} (hn : 1 ≤ n) :
    ((∃ r, namedRatio (Symbol.mk a (n + 7)).text = .ok r) ↔
      ∃ r, namedRatio (Symbol.mk a n).text = .ok r) ∧
    ∀ r k, namedRatio (Symbol.mk a n).text = .ok r → namedSemitones (Symbol.mk a n).text = .ok k →
      namedRatio (Symbol.mk a (n + 7)).text = .ok (2 * r) ∧
        namedSemitones (Symbol.mk a (n + 7)).text = .ok (k + 12) := by
  simp only [namedRatio, namedSemitones, ofSymbol, Symbol.trimmed_text, exists_map_eq_ok_iff]
  rcases ofTrimmed_add_octave a hn with ⟨d, e, hd, he⟩ | ⟨i, j, hi, hj, hratio, hsemitones⟩
  · rw [hd, he]
    exact ⟨by simp, fun r k hr => absurd hr (by simp [Except.map])⟩
  · rw [hi, hj]
    refine ⟨iff_of_true ⟨j, rfl⟩ ⟨i, rfl⟩, fun r k hr hk => ?_⟩
    obtain rfl := Except.ok.inj hr
    obtain rfl := Except.ok.inj hk
    exact ⟨congrArg Except.ok hratio, congrArg Except.ok hsemitones⟩

/-- **Interval symbols are accepted exactly by the grammar and are periodic in the octave.** Unless
`TooLong text`, a text has both readings if and only if `Names (trimmed text)`, and is otherwise
complained about as a malformed or as an unknown symbol. From the ninth on only the accidental and
the degree count. Seven degrees further up the ratio is doubled, and the semitones are twelve more.
-/
theorem named_by_grammar :
    (∀ text : String,
      (TooLong text ∧ ratioOf text = .error .tooManyDigits ∧
        semitonesOf text = .error .tooManyDigits) ∨
      (¬TooLong text ∧ ratioOf text = diagnosing (namedRatio text) ∧
        semitonesOf text = diagnosing (namedSemitones text))) ∧
    (∀ text : String,
      ((∃ r, namedRatio text = .ok r) ↔ Names (trimmed text)) ∧
      ((∃ n, namedSemitones text = .ok n) ↔ Names (trimmed text)) ∧
      (¬Names (trimmed text) → ∃ d, namedRatio text = .error d ∧ namedSemitones text = .error d ∧
        d.family = .symbol ∧
        ((∃ s, Spells (trimmed text).toList s) ∧ d.kind = .unknownInterval ∨
          (¬∃ s, Spells (trimmed text).toList s) ∧ d.kind = .invalidInterval))) ∧
    (∀ (t u : String) (s : Symbol), Spells (trimmed t).toList s → Spells (trimmed u).toList s →
      9 ≤ s.degree →
      (namedRatio t).mapError (·.kind) = (namedRatio u).mapError (·.kind) ∧
        (namedSemitones t).mapError (·.kind) = (namedSemitones u).mapError (·.kind)) ∧
    ∀ (a : Accidental) (n : ℕ), 1 ≤ n →
      ((∃ r, namedRatio (Symbol.mk a (n + 7)).text = .ok r) ↔
        ∃ r, namedRatio (Symbol.mk a n).text = .ok r) ∧
      ∀ r k, namedRatio (Symbol.mk a n).text = .ok r → namedSemitones (Symbol.mk a n).text = .ok k →
        namedRatio (Symbol.mk a (n + 7)).text = .ok (2 * r) ∧
          namedSemitones (Symbol.mk a (n + 7)).text = .ok (k + 12) := by
  refine ⟨readings_iff_tooLong, fun text => ⟨?_, ?_, exists_named_eq_error⟩,
    fun t u s ht hu hs => ?_, fun a n hn => named_add_octave a hn⟩
  · rw [namedRatio, exists_map_eq_ok_iff, exists_ofSymbol_iff]
  · rw [namedSemitones, exists_map_eq_ok_iff, exists_ofSymbol_iff]
  · have hsame := ofSymbol_congr ht hu hs
    exact ⟨by rw [namedRatio, namedRatio, mapError_map, mapError_map, hsame],
      by rw [namedSemitones, namedSemitones, mapError_map, mapError_map, hsame]⟩

/-- A diminished twelfth in the digits of two scripts, which is a tritone an octave higher. -/
theorem named_by_grammar_diminishedTwelfth :
    (namedSemitones " b١۲\n").mapError (·.kind) = (namedSemitones "b12").mapError (·.kind) ∧
      namedRatio "b12" = .ok (2 * (729 / 512)) ∧ namedSemitones "b12" = .ok 18 := by
  have hone : digit? '١' = some 1 := by decide
  have htwo : digit? '۲' = some 2 := by decide
  have hspells : Spells (trimmed " b١۲\n").toList ⟨.flat, 12⟩ :=
    ⟨['١', '۲'], by decide, .append (.digit hone) htwo⟩
  have hratio : namedRatio "b5" = .ok (729 / 512) := by decide +kernel
  have hsemitones : namedSemitones "b5" = .ok 6 := by decide
  obtain ⟨-, -, hcompound, hoctave⟩ := named_by_grammar
  exact ⟨(hcompound _ "b12" ⟨.flat, 12⟩ hspells (Symbol.mk .flat 12).spells_text (by decide)).2,
    (hoctave .flat 5 (by decide)).2 _ _ hratio hsemitones⟩

end Interval

end Monochord
