import Mathlib.Data.Nat.Digits.Defs
import Monochord.Proofs.Interval.Symbols

/-! # Spelling and reading distances

A distance in semitones is spelt as a symbol, seven degrees for an octave. What is spelt is read as
the same distance, and what is read is spelt as the same interval, though perhaps with another
symbol. Since no integer is written or read with more than `digitLimit` digits, there is a largest
distance that is spelt.

* **`spell_natCast`**, **`spell_of_neg`** — what `spell` does for `n : ℕ` and for `z < 0`.
* **`spell_eq_ok_iff`** — the distances that are spelt, and how.
* **`Interval.namedSemitones_spelling`** — `(spelling n).text` names `n` semitones.
* **`Interval.tooLong_text_iff`** — the degrees that have more digits than are read.
* **`Interval.degree_spelling_lt_iff`** — the distances whose degree has at most `digitLimit` digits.
* **`Interval.degree_spelling_lt`** — what was read is not too long when it is spelt again.
* **`Interval.spell_reads_back`** — spelling and reading are inverse. -/

namespace Monochord

open Text

/-! ## The symbol of a distance -/

/-- `isWritable z = true` exactly if `|z| < 10 ^ digitLimit`. -/
theorem isWritable_iff {z : ℤ} : isWritable z = true ↔ z.natAbs < 10 ^ digitLimit := by
  rw [isWritable, decide_eq_true_iff]
  exact Nat.length_toDigits_le_iff (by decide) (by decide)

/-- `spelling (n + 12)` has seven degrees more than `spelling n`. -/
theorem spelling_add_twelve (n : ℕ) :
    spelling (n + 12) = ⟨(spelling n).accidental, (spelling n).degree + 7⟩ := by
  have hdiv : (n + 12) / 12 = n / 12 + 1 := by omega
  rw [spelling, Nat.add_mod_right, hdiv, Nat.succ_mul]
  rfl

/-- The degree of `spellWithin k` is from one to seven. -/
theorem degree_spellWithin (k : ℕ) : 1 ≤ (spellWithin k).degree ∧ (spellWithin k).degree ≤ 7 := by
  rw [spellWithin.eq_def]
  split <;> decide

/-- `1 ≤ (spelling n).degree`. -/
theorem one_le_degree_spelling (n : ℕ) : 1 ≤ (spelling n).degree :=
  (degree_spellWithin _).1.trans (Nat.le_add_right _ _)

/-- **Distances upwards**: `spell n` is the text of `spelling n`, unless its degree has more than
`digitLimit` digits. -/
theorem spell_natCast (n : ℕ) : spell n =
    if (spelling n).degree < 10 ^ digitLimit then .ok (spelling n).text
    else .error .tooManyDigits := by
  have hwritable : isWritable (spelling n).degree = true ↔ (spelling n).degree < 10 ^ digitLimit := by
    rw [isWritable_iff, Int.natAbs_natCast]
  rw [spell, if_neg (Int.natCast_nonneg n).not_gt, Int.toNat_natCast]
  exact ite_congr (propext hwritable) (fun _ => rfl) fun _ => rfl

/-- **Distances downwards**: `spell z` is the complaint about `z < 0`, unless `z` itself has more than
`digitLimit` digits. -/
theorem spell_of_neg {z : ℤ} (h : z < 0) : spell z =
    if z.natAbs < 10 ^ digitLimit then .error (.diagnosed (Cause.belowFundamental z).diagnostic)
    else .error .tooManyDigits := by
  rw [spell, if_pos h]
  exact ite_congr (propext isWritable_iff) (fun _ => rfl) fun _ => rfl

/-- **`spell z = .ok text`** exactly if `z` is some `n : ℕ` whose symbol can be written, and `text` is
the text of that symbol. -/
theorem spell_eq_ok_iff {z : ℤ} {text : String} : spell z = .ok text ↔
    ∃ n : ℕ, z = n ∧ (spelling n).degree < 10 ^ digitLimit ∧ text = (spelling n).text := by
  constructor
  · intro h
    rcases lt_or_ge z 0 with hneg | hpos
    · rw [spell_of_neg hneg] at h
      split at h <;> exact absurd h (by simp)
    · obtain ⟨n, rfl⟩ := Int.eq_ofNat_of_zero_le hpos
      rw [spell_natCast] at h
      split at h
      · next hdegree => exact ⟨n, rfl, hdegree, (Except.ok.inj h).symm⟩
      · exact absurd h (by simp)
  · rintro ⟨n, rfl, hdegree, rfl⟩
    rw [spell_natCast, if_pos hdegree]

/-! ## Reading what is spelt -/

namespace Interval

/-- If `namedSemitones text = .ok n`, then `namedRatio text` is the ratio of the same interval. -/
theorem exists_namedRatio {text : String} {n : ℕ} (h : namedSemitones text = .ok n) :
    ∃ i, ofSymbol text = .ok i ∧ i.semitones = n ∧ namedRatio text = .ok i.ratio := by
  obtain ⟨i, hi, hn⟩ := map_eq_ok_iff.1 h
  exact ⟨i, hi, hn, by rw [namedRatio, hi]; rfl⟩

/-- **`namedSemitones (spelling n).text = .ok n`**: what is spelt is read back. -/
theorem namedSemitones_spelling (n : ℕ) : namedSemitones (spelling n).text = .ok n := by
  induction n using Nat.strong_induction_on with
  | _ n ih =>
    by_cases hlt : n < 12
    · have hoctave : ∀ n < 12, namedSemitones (spelling n).text = .ok n := by decide
      exact hoctave n hlt
    · -- an octave further down the symbol has seven degrees less
      obtain ⟨m, rfl⟩ := Nat.exists_eq_add_of_le' (Nat.not_lt.1 hlt)
      have hread := ih m (by omega)
      obtain ⟨i, -, -, hratio⟩ := exists_namedRatio hread
      rw [spelling_add_twelve]
      exact ((named_add_octave _ (one_le_degree_spelling m)).2 _ _ hratio hread).2

/-! ## The limit on digits -/

/-- `TooLong s.text` exactly if `10 ^ digitLimit ≤ s.degree`. -/
theorem tooLong_text_iff (s : Symbol) : TooLong s.text ↔ 10 ^ digitLimit ≤ s.degree := by
  have haccidental : s.accidental.chars.countP isDigit = 0 := by
    cases s.accidental <;> decide
  have hdigits : (Nat.toDigits 10 s.degree).countP isDigit = (Nat.toDigits 10 s.degree).length :=
    List.countP_eq_length.2 (writes_toDigits s.degree).isDigit
  have hcount : s.text.toList.countP isDigit = (Nat.toDigits 10 s.degree).length := by
    rw [Symbol.text, String.toList_ofList, List.countP_append, haccidental, hdigits, Nat.zero_add]
  have hlength : (Nat.toDigits 10 s.degree).length ≤ digitLimit ↔ s.degree < 10 ^ digitLimit :=
    Nat.length_toDigits_le_iff (by decide) (by decide)
  rw [TooLong, Symbol.trimmed_text, hcount, ← not_le, hlength, not_lt]
  exact and_iff_right ⟨s, s.spells_text⟩

/-- A text that is not too long spells a degree below `10 ^ digitLimit`. -/
theorem degree_lt_of_not_tooLong {text : String} {s : Symbol}
    (hs : Spells (trimmed text).toList s) (h : ¬TooLong text) : s.degree < 10 ^ digitLimit := by
  have hcount : text.toList.countP isDigit ≤ digitLimit := not_lt.1 fun hlt => h ⟨⟨s, hs⟩, hlt⟩
  obtain ⟨ds, htext, hds⟩ := hs
  -- trimming takes no digits away
  have htrim : (trimmed text).toList.Sublist text.toList := by
    rw [trimmed, String.toList_ofList]
    exact trim_sublist text.toList
  have hdigits : ds.length ≤ digitLimit := by
    calc ds.length = ds.countP isDigit := (List.countP_eq_length.2 hds.isDigit).symm
      _ ≤ (trimmed text).toList.countP isDigit := by
        rw [htext, List.countP_append]
        exact Nat.le_add_left _ _
      _ ≤ text.toList.countP isDigit := htrim.countP_le
      _ ≤ digitLimit := hcount
  exact hds.lt.trans_le (Nat.pow_le_pow_right (by decide) hdigits)

/-- `10 ^ digitLimit` is far above the octave, and as a degree it is a fourth some octaves up. -/
theorem digitBound_spec : 100 ≤ 10 ^ digitLimit ∧ 10 ^ digitLimit % octaveSpan = 4 := by
  decide +kernel

/-- `(spellWithin k).degree < 4` exactly if `k < 5`, within an octave. -/
theorem degree_spellWithin_lt_iff {k : ℕ} (h : k < 12) : (spellWithin k).degree < 4 ↔ k < 5 := by
  revert k
  decide

/-- **The distances that can be spelt**: the degree of `n` has at most `digitLimit` digits exactly if
`n < 12 * (10 ^ digitLimit / 7) + 5`. -/
theorem degree_spelling_lt_iff {n : ℕ} :
    (spelling n).degree < 10 ^ digitLimit ↔ n < 12 * (10 ^ digitLimit / 7) + 5 := by
  -- the bound is a fourth, so the last octave that is spelt ends below the fourth
  have hfourth := degree_spellWithin_lt_iff (Nat.mod_lt n (by decide : 0 < 12))
  have hwithin := degree_spellWithin (n % 12)
  have hbound := digitBound_spec.2
  rw [spelling]
  rw [octaveSpan] at *
  dsimp only
  generalize 10 ^ digitLimit = bound at *
  omega

/-- The degree of `spelling n` is below `10 ^ digitLimit` if `n` is. -/
theorem degree_spelling_lt_of_lt {n : ℕ} (h : n < 10 ^ digitLimit) :
    (spelling n).degree < 10 ^ digitLimit := by
  rw [degree_spelling_lt_iff]
  have hbound := digitBound_spec.1
  generalize 10 ^ digitLimit = bound at *
  omega

/-- `spellWithin` gives back the symbol of a simple interval below the octave, except that `#4`
becomes `b5`. -/
theorem spellWithin_semitones {s : Symbol} {i : SimpleInterval}
    (h : SimpleInterval.ofSymbol? s = some i) (hs : s.degree < lastSimpleDegree) :
    i.semitones < 12 ∧ (spellWithin i.semitones = s ∨
      s = ⟨.sharp, 4⟩ ∧ spellWithin i.semitones = ⟨.flat, 5⟩) := by
  rw [SimpleInterval.ofSymbol?.eq_def] at h
  split at h
  case h_14 => exact absurd hs (by decide)
  case h_15 => exact absurd h (by simp)
  all_goals
    obtain rfl := Option.some.inj h
    decide

/-- The degree of `spelling i.semitones` is that within the octave and `octaveSpan` for each octave.
-/
theorem degree_spelling_semitones {i : Interval} (h : i.simple.semitones < 12) :
    (spelling i.semitones).degree =
      (spellWithin i.simple.semitones).degree + i.octaves * octaveSpan := by
  have hmod : i.semitones % 12 = i.simple.semitones := by
    rw [semitones]
    omega
  have hdiv : i.semitones / 12 = i.octaves := by
    rw [semitones]
    omega
  rw [spelling, hmod, hdiv]

/-- **What was read is not too long when it is spelt again**: the degree stays what it was, except
that an augmented fourth becomes a fifth. -/
theorem degree_spelling_lt {text : String} {i : Interval} (hread : ofSymbol text = .ok i)
    (h : ¬TooLong text) : (spelling i.semitones).degree < 10 ^ digitLimit := by
  have hreads := reads_ofTrimmed (trimmed text)
  rw [← ofSymbol, hread] at hreads
  cases hreads with
  | @simple _ i =>
    -- a simple interval has few semitones
    have hsemitones : (Interval.mk i 0).semitones ≤ 12 := by cases i <;> decide
    have hbound := digitBound_spec.1
    apply degree_spelling_lt_of_lt
    omega
  | @compound s i hs hlt hsimple =>
    have hdegree := degree_lt_of_not_tooLong hs h
    have hbase : s.base.degree = (s.degree - 1) % 7 + 1 := rfl
    have hsmall : s.base.degree < lastSimpleDegree := by
      rw [hbase, lastSimpleDegree]
      omega
    obtain ⟨hsemitones, hspell⟩ := spellWithin_semitones hsimple hsmall
    have hbound := digitBound_spec.2
    rw [degree_spelling_semitones hsemitones]
    rw [octaveSpan] at *
    dsimp only
    generalize 10 ^ digitLimit = bound at *
    rcases hspell with hsame | ⟨htritone, hfifth⟩
    · rw [hsame, hbase]
      omega
    · -- the bound is a fourth in its octave, and so is the degree that was read
      rw [htritone] at hbase
      rw [hfifth]
      dsimp only at hbase ⊢
      omega

/-! ## Both ways -/

/-- `spelling n` has both readings, unless its degree is too long. -/
theorem exists_readings_spelling {n : ℕ} (h : (spelling n).degree < 10 ^ digitLimit) :
    ∃ i : Interval, i.semitones = n ∧ ratioOf (spelling n).text = .ok i.ratio ∧
      semitonesOf (spelling n).text = .ok n := by
  have hread := namedSemitones_spelling n
  obtain ⟨i, -, hi, hratio⟩ := exists_namedRatio hread
  have hlimit : ¬TooLong (spelling n).text := by
    rw [tooLong_text_iff]
    exact not_le.2 h
  refine ⟨i, hi, ?_, ?_⟩
  · rw [ratioOf_of_not_tooLong hlimit, hratio, diagnosing_ok]
  · rw [semitonesOf_of_not_tooLong hlimit, hread, diagnosing_ok]

/-- If `semitonesOf text = .ok n`, then `text` names an interval of `n` semitones and is not
`TooLong`. -/
theorem exists_of_semitonesOf {text : String} {n : ℕ} (h : semitonesOf text = .ok n) :
    ∃ i, ofSymbol text = .ok i ∧ i.semitones = n ∧ ratioOf text = .ok i.ratio ∧
      ¬TooLong text := by
  obtain ⟨i, hi, hn⟩ := map_eq_ok_iff.1 h
  have hlimit : ¬TooLong text := fun hlong => by
    rw [read_of_tooLong hlong] at hi
    exact absurd hi (by simp)
  refine ⟨i, ?_, hn, by rw [ratioOf, hi]; rfl, hlimit⟩
  rw [read_of_not_tooLong hlimit] at hi
  exact diagnosing_eq_ok_iff.1 hi

/-- **Spelling and reading are inverse.** A distance `n` upwards is spelt if its degree has at most
`digitLimit` digits, that is if `n < 12 * (10 ^ digitLimit / 7) + 5`, and then `semitonesOf` reads
it back as `n`; above this bound `spell n` fails with `.tooManyDigits`. So different distances are
spelt differently. A distance `z < 0` is complained about as long as `-10 ^ digitLimit < z`, so that
it can be written in the complaint. Whatever is read as `n`, once `n` is spelt again, is read as the
same ratio and the same distance. -/
theorem spell_reads_back :
    (∀ n : ℕ, n < 12 * (10 ^ digitLimit / 7) + 5 →
      ∃ text, spell n = .ok text ∧ semitonesOf text = .ok n) ∧
    (∀ n : ℕ, 12 * (10 ^ digitLimit / 7) + 5 ≤ n → spell n = .error .tooManyDigits) ∧
    (∀ (x y : ℤ) (text : String), spell x = .ok text → spell y = .ok text → x = y) ∧
    (∀ z : ℤ, z < 0 → -10 ^ digitLimit < z → ∃ d, spell z = .error (.diagnosed d) ∧
      d.family = .symbol ∧ d.kind = .unknownInterval) ∧
    (∀ z : ℤ, z ≤ -10 ^ digitLimit → spell z = .error .tooManyDigits) ∧
    ∀ (text : String) (n : ℕ), semitonesOf text = .ok n →
      ∃ (again : String) (r : ℚ), spell n = .ok again ∧ ratioOf text = .ok r ∧
        ratioOf again = .ok r ∧ semitonesOf again = .ok n := by
  refine ⟨fun n hn => ?_, fun n hn => ?_, fun x y text hx hy => ?_, fun z hneg hz => ?_,
    fun z hz => ?_, fun text n h => ?_⟩
  · -- the degree can be written, and what is written is read
    have hdegree := degree_spelling_lt_iff.2 hn
    obtain ⟨-, -, -, hread⟩ := exists_readings_spelling hdegree
    exact ⟨_, spell_eq_ok_iff.2 ⟨n, rfl, hdegree, rfl⟩, hread⟩
  · rw [spell_natCast, if_neg fun hdegree => hn.not_gt (degree_spelling_lt_iff.1 hdegree)]
  · -- the common spelling is read back as either distance
    obtain ⟨m, rfl, -, rfl⟩ := spell_eq_ok_iff.1 hx
    obtain ⟨n, rfl, -, hsame⟩ := spell_eq_ok_iff.1 hy
    have hread := namedSemitones_spelling m
    rw [hsame, namedSemitones_spelling n] at hread
    rw [Except.ok.inj hread]
  · have hbound : z.natAbs < 10 ^ digitLimit := by
      zify
      rw [abs_of_neg hneg]
      exact neg_lt.1 hz
    rw [spell_of_neg hneg, if_pos hbound]
    exact ⟨_, rfl, rfl, rfl⟩
  · have hpos : (0 : ℤ) < 10 ^ digitLimit := by positivity
    have hneg : z < 0 := by linarith
    have hbound : ¬z.natAbs < 10 ^ digitLimit := by
      zify
      rw [abs_of_neg hneg, not_lt]
      exact le_neg.1 hz
    rw [spell_of_neg hneg, if_neg hbound]
  · -- another symbol may have been read, but the preferred one is within the limit too
    obtain ⟨i, hi, rfl, hratio, hlimit⟩ := exists_of_semitonesOf h
    have hdegree := degree_spelling_lt hi hlimit
    obtain ⟨j, hj, hagain, hread⟩ := exists_readings_spelling hdegree
    refine ⟨_, i.ratio, spell_eq_ok_iff.2 ⟨_, rfl, hdegree, rfl⟩, hratio, ?_, hread⟩
    rw [hagain, ratio_eq_of_semitones_eq hj]

/-- An augmented eleventh is spelt again as a diminished twelfth, which is the same interval. -/
theorem spell_reads_back_augmentedEleventh :
    semitonesOf "#011" = .ok 18 ∧ spell 18 = .ok "b12" ∧
      ∃ (again : String) (r : ℚ), spell (18 : ℕ) = .ok again ∧ ratioOf "#011" = .ok r ∧
        ratioOf again = .ok r ∧ semitonesOf again = .ok 18 := by
  have hread : semitonesOf "#011" = .ok 18 := by decide +kernel
  have hspell : spell 18 = .ok "b12" := by decide
  exact ⟨hread, hspell, spell_reads_back.2.2.2.2.2 _ _ hread⟩

/-- **Not every distance is spelt, and not every one downwards is complained about**: the degree of
`12 * 10 ^ digitLimit` is `7 * 10 ^ digitLimit + 1`, which is too long to be written, and so is
`-10 ^ digitLimit` itself. -/
theorem spell_eq_tooManyDigits :
    spell ((12 * 10 ^ digitLimit : ℕ) : ℤ) = .error .tooManyDigits ∧
      (spelling (12 * 10 ^ digitLimit)).degree = 7 * 10 ^ digitLimit + 1 ∧
      spell (-((10 ^ digitLimit : ℕ) : ℤ)) = .error .tooManyDigits := by
  have hbound := digitBound_spec.1
  generalize hpow : 10 ^ digitLimit = bound at *
  have hdegree : (spelling (12 * bound)).degree = 7 * bound + 1 := by
    rw [spelling, Nat.mul_mod_right, Nat.mul_div_cancel_left bound (by decide), octaveSpan]
    show 1 + bound * 7 = 7 * bound + 1
    omega
  refine ⟨?_, hdegree, ?_⟩
  · rw [spell_natCast, hdegree, hpow, if_neg (by omega)]
  · rw [spell_of_neg (by omega), Int.natAbs_neg, Int.natAbs_natCast, hpow, if_neg (lt_irrefl bound)]

end Interval

end Monochord
