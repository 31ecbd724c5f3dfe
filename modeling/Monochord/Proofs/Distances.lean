import Monochord.Proofs.Fundamental
import Monochord.Proofs.Interval.Spelling
import Monochord.Proofs.Keyboard

/-! # The distances of the keys

The intervals of a keyboard chord come out of frequencies: the keys are ordered by them, and their
distances are rounded logarithms. As long as that arithmetic agrees with the numbers of semitones,
the keys survive the trip through text: the line of a selection has one interval for each key, and
the intervals are read as the distances from the fundamental upwards.

* **`Selection.InTune`** — the frequencies of the keys agree with their semitones;
  **`Selection.inTune_of_pairs`**: a check of finitely many keys.
* **`Selection.byPitch`** — the keys from the lowest to the highest;
  **`Selection.InTune.spellings`**: the intervals are their distances, spelt in this order.
* **`Selection.InTune.semitonesOf_spellings`** — what is spelt is read as the distances.
* **`Selection.InTune.intervals_eq_error`** — a key below the fundamental is complained about.
* **`Selection.line_keeps_distances`** — the line of a selection has the distances of its keys. -/

namespace Monochord

open Binary64 Text

namespace Selection

variable {f : String} {notes : List String} {p : String → ℤ} {frequency : String → Float}

/-! ## Keys in tune -/

/-- **The frequencies of the keys agree with their semitones**: they are ordered and tied alike, and
a rounded logarithm gives the distance from the fundamental. -/
structure InTune (f : String) (notes : List String) (p : String → ℤ) (frequency : String → Float) :
    Prop where
  /-- Every key names a note. -/
  semitones : ∀ k ∈ f :: notes, noteSemitones k = .ok (p k)
  /-- Every note has a frequency. -/
  frequencies : ∀ k ∈ f :: notes, noteFrequency k = .ok (frequency k)
  /-- A key does not sound above another one exactly if it has no more semitones. -/
  order : ∀ k ∈ notes, ∀ l ∈ notes, frequency k ≤ frequency l ↔ p k ≤ p l
  /-- Frequencies are as far from the fundamental as semitones are. -/
  distance : ∀ k ∈ notes, semitonesBetween (frequency k) (frequency f) = .ok (p k - p f)

/-! ## Checking keys -/

/-- `log2 (x / y)` exists, and both of the doubles around it round to the same number `n` of
semitones. -/
def RoundsTo (x y : Float) (n : ℤ) : Prop :=
  (y == 0.0) = false ∧ (x / y).isFinite = true ∧ 0.0 < x / y ∧
    roundHalfEven (12.0 * (log2Bracket (x / y)).1) = .ok n ∧
    roundHalfEven (12.0 * (log2Bracket (x / y)).2) = .ok n

instance (x y : Float) (n : ℤ) : Decidable (RoundsTo x y n) :=
  inferInstanceAs (Decidable (_ ∧ _))

/-- `semitonesBetween x y = .ok n` if `RoundsTo x y n`, whichever of the two doubles the platform
chooses. -/
theorem RoundsTo.semitonesBetween_eq {x y : Float} {n : ℤ} (h : RoundsTo x y n) :
    semitonesBetween x y = .ok n := by
  obtain ⟨hy, hfinite, hpos, hlow, hhigh⟩ := h
  have hdiv : (Quantity.float x).div (.float y) = .ok (x / y) := by
    refine if_neg ?_
    rw [hy]
    exact Bool.false_ne_true
  rw [semitonesBetween, hdiv, ok_bind, logarithm_of_isFinite hfinite hpos, ok_bind]
  rcases log2_mem_bracket (x / y) with hlog | hlog
  · rw [hlog, hlow]
  · rw [hlog, hhigh]

/-- `InTune f notes p frequency` if all keys are among `keys`, whose frequencies have been checked
in pairs. -/
theorem inTune_of_pairs {keys : List String}
    (hkeys : ∀ k ∈ keys, noteSemitones k = .ok (p k) ∧ noteFrequency k = .ok (frequency k))
    (hpairs : ∀ k ∈ keys, ∀ l ∈ keys, (frequency k ≤ frequency l ↔ p k ≤ p l) ∧
      RoundsTo (frequency k) (frequency l) (p k - p l))
    (hmem : ∀ k ∈ f :: notes, k ∈ keys) : InTune f notes p frequency := by
  obtain ⟨hf, hnotes⟩ := List.forall_mem_cons.1 hmem
  refine ⟨fun k hk => (hkeys k (hmem k hk)).1, fun k hk => (hkeys k (hmem k hk)).2, ?_, ?_⟩
  · intro k hk l hl
    exact (hpairs k (hnotes k hk) l (hnotes l hl)).1
  · intro k hk
    exact (hpairs k (hnotes k hk) f hf).2.semitonesBetween_eq

/-- The semitones of some keys from middle C on. -/
def someSemitones : String → ℤ
  | "D5" => 5
  | "D#4" | "Eb4" => -6
  | _ => -9

/-- Their frequencies. -/
def someFrequencies : String → Float
  | "D5" => 587.3295358348151
  | "D#4" | "Eb4" => 311.1269837220809
  | _ => 261.6255653005986

/-- `C4`, `D#4`, `Eb4` and `D5` are in tune. -/
theorem inTune_someKeys {f : String} {notes : List String}
    (h : ∀ k ∈ f :: notes, k ∈ ["C4", "D#4", "Eb4", "D5"]) :
    InTune f notes someSemitones someFrequencies := by
  refine inTune_of_pairs ?_ ?_ h
  · decide +kernel
  · decide +kernel

/-! ## The order of the keys -/

/-- The keys from the lowest to the highest; those of one pitch stay in their order. -/
def byPitch (p : String → ℤ) (notes : List String) : List String :=
  notes.mergeSort fun k l => p k ≤ p l

/-- `byPitch p notes` are the same keys as `notes`. -/
theorem perm_byPitch : (byPitch p notes).Perm notes := List.mergeSort_perm _ _

/-- No key of `byPitch p notes` comes before a lower one. -/
theorem pairwise_byPitch : (byPitch p notes).Pairwise fun k l => p k ≤ p l := by
  have hsorted : (byPitch p notes).Pairwise fun k l => decide (p k ≤ p l) = true := by
    apply List.pairwise_mergeSort
    · intro k l m hkl hlm
      exact decide_eq_true ((of_decide_eq_true hkl).trans (of_decide_eq_true hlm))
    · intro k l
      rw [Bool.or_eq_true, decide_eq_true_iff, decide_eq_true_iff]
      exact le_total (p k) (p l)
  exact hsorted.imp fun h => of_decide_eq_true h

/-- The sorted frequencies of keys in tune are those of `byPitch p notes`. -/
theorem InTune.mergeSort_frequencies (h : InTune f notes p frequency) :
    (notes.map frequency).mergeSort (fun a b => a ≤ b) = (byPitch p notes).map frequency := by
  refine (List.map_mergeSort fun k hk l hl => ?_).symm
  exact decide_eq_decide.2 (h.order k hk l hl).symm

/-- **`intervals f notes` spells the distances `p k - p f`** of keys in tune, from the lowest key to
the highest. -/
theorem InTune.spellings (h : InTune f notes p frequency) :
    intervals f notes = (byPitch p notes).mapM fun k => spell (p k - p f) := by
  have hfrequencies : notes.mapM noteFrequency = .ok (notes.map frequency) :=
    mapM_eq_ok_map fun k hk => h.frequencies k (List.mem_cons_of_mem f hk)
  rw [intervals, h.frequencies f List.mem_cons_self, ok_bind, hfrequencies, ok_bind]
  dsimp only
  rw [h.mergeSort_frequencies, List.mapM_map]
  refine mapM_congr fun k hk => ?_
  rw [Function.comp_apply, h.distance k (perm_byPitch.mem_iff.1 hk), ok_bind]

/-! ## Bounds on distances -/

/-- A note `n` semitones from the reference pitch that has a frequency is below 1024 octaves over it,
and `n / 12` is a double. -/
theorem semitones_mem_of_noteFrequency {note : String} {n : ℤ} {x : Float}
    (hn : noteSemitones note = .ok n) (h : noteFrequency note = .ok x) :
    -overflowBound < (n : ℚ) / 12 ∧ n < 12288 := by
  rw [noteFrequency_of_semitones hn] at h
  split at h
  · exact absurd h (by simp)
  · obtain ⟨r, hr, -⟩ := bind_eq_ok_iff.1 h
    exact semitones_mem_of_semitonePower hr

/-- `12288 + 12 * 2 ^ 1024 < 10 ^ digitLimit`: the bound on what is read is far above any distance
of two notes. -/
theorem semitones_lt_digitBound : (12288 + 12 * 2 ^ 1024 : ℤ) < (10 ^ digitLimit : ℕ) := by
  decide +kernel

/-- `-(12 * 2 ^ 1024) < p k < 12288` for the keys that are in tune. -/
theorem InTune.pitch_mem (h : InTune f notes p frequency) {k : String} (hk : k ∈ f :: notes) :
    -(12 * 2 ^ 1024) < p k ∧ p k < 12288 := by
  obtain ⟨hlow, hhigh⟩ := semitones_mem_of_noteFrequency (h.semitones k hk) (h.frequencies k hk)
  refine ⟨?_, hhigh⟩
  have hbound : overflowBound ≤ 2 ^ 1024 := sub_le_self _ (by positivity)
  rw [lt_div_iff₀ (by norm_num)] at hlow
  rw [← Int.cast_lt (R := ℚ), Int.cast_neg, Int.cast_mul, Int.cast_pow, Int.cast_ofNat,
    Int.cast_ofNat]
  generalize (2 : ℚ) ^ 1024 = bound at hbound ⊢
  linarith only [hbound, hlow]

/-- `p k - p f` has at most `digitLimit` digits. -/
theorem InTune.natAbs_distance_lt (h : InTune f notes p frequency) {k : String} (hk : k ∈ notes) :
    (p k - p f).natAbs < 10 ^ digitLimit := by
  have hkey := h.pitch_mem (List.mem_cons_of_mem f hk)
  have hbase := h.pitch_mem List.mem_cons_self
  have hlimit := semitones_lt_digitBound
  have hnonneg : (0 : ℤ) ≤ 2 ^ 1024 := by positivity
  generalize (2 : ℤ) ^ 1024 = bound at hkey hbase hlimit hnonneg
  generalize 10 ^ digitLimit = limit at hlimit ⊢
  omega

/-! ## Keys above the fundamental -/

/-- The distances of the keys from the fundamental upwards, from the lowest to the highest. -/
def distances (f : String) (notes : List String) (p : String → ℤ) : List ℕ :=
  (byPitch p notes).map fun k => (p k - p f).toNat

/-- `distances f notes p` are in order. -/
theorem pairwise_distances : (distances f notes p).Pairwise (· ≤ ·) := by
  rw [distances, List.pairwise_map]
  exact pairwise_byPitch.imp fun h => Int.toNat_le_toNat (sub_le_sub_right h _)

/-- `distances f notes p` are the distances `p k - p f`, one for each key. -/
theorem perm_distances (habove : ∀ k ∈ notes, p f ≤ p k) :
    ((distances f notes p).map ((↑) : ℕ → ℤ)).Perm (notes.map fun k => p k - p f) := by
  have hexact : (distances f notes p).map ((↑) : ℕ → ℤ) =
      (byPitch p notes).map fun k => p k - p f := by
    rw [distances, List.map_map]
    refine List.map_congr_left fun k hk => ?_
    exact Int.toNat_of_nonneg (sub_nonneg.2 (habove k (perm_byPitch.mem_iff.1 hk)))
  rw [hexact]
  exact perm_byPitch.map _

/-- The degree of a distance upwards has at most `digitLimit` digits. -/
theorem InTune.degree_spelling_lt (h : InTune f notes p frequency) {k : String} (hk : k ∈ notes) :
    (spelling (p k - p f).toNat).degree < 10 ^ digitLimit := by
  have hlt := h.natAbs_distance_lt hk
  apply Interval.degree_spelling_lt_of_lt
  generalize 10 ^ digitLimit = limit at hlt ⊢
  omega

/-- `intervals f notes` are the spellings of `distances f notes p`, if no key is below the
fundamental. -/
theorem InTune.intervals_eq_ok (h : InTune f notes p frequency) (habove : ∀ k ∈ notes, p f ≤ p k) :
    intervals f notes = .ok ((distances f notes p).map fun n => (spelling n).text) := by
  rw [h.spellings, distances, List.map_map]
  refine mapM_eq_ok_map fun k hk => ?_
  have hk := perm_byPitch.mem_iff.1 hk
  have hn := Int.toNat_of_nonneg (sub_nonneg.2 (habove k hk))
  exact spell_eq_ok_iff.2 ⟨_, hn.symm, h.degree_spelling_lt hk, rfl⟩

/-- **`semitonesOf` reads the spelt keys as `distances f notes p`.** -/
theorem InTune.semitonesOf_spellings (h : InTune f notes p frequency) :
    ((distances f notes p).map fun n => (spelling n).text).mapM Interval.semitonesOf =
      .ok (distances f notes p) := by
  rw [mapM_eq_ok_iff, List.forall₂_map_left_iff, List.forall₂_same]
  intro n hn
  obtain ⟨k, hk, rfl⟩ := List.mem_map.1 hn
  obtain ⟨-, -, -, hread⟩ :=
    Interval.exists_readings_spelling (h.degree_spelling_lt (perm_byPitch.mem_iff.1 hk))
  exact hread

/-! ## A key below the fundamental -/

/-- **`intervals f notes` complains about a key below the fundamental**, and of several such keys
about the lowest one. -/
theorem InTune.intervals_eq_error (h : InTune f notes p frequency)
    (hbelow : ∃ k ∈ notes, p k < p f) :
    ∃ k ∈ notes, (∀ l ∈ notes, p k ≤ p l) ∧ p k < p f ∧ intervals f notes =
      .error (.diagnosed (Cause.belowFundamental (p k - p f)).diagnostic) := by
  obtain ⟨l, hl, hlow⟩ := hbelow
  rw [h.spellings]
  have hsorted : (byPitch p notes).Pairwise fun k l => p k ≤ p l := pairwise_byPitch
  have hperm : (byPitch p notes).Perm notes := perm_byPitch
  cases hkeys : byPitch p notes with
  | nil =>
    rw [hkeys] at hperm
    exact absurd (hperm.mem_iff.2 hl) List.not_mem_nil
  | cons k ks =>
    -- the first key is the lowest one, and nothing is spelt before it
    rw [hkeys] at hperm hsorted
    have hlowest : ∀ l ∈ notes, p k ≤ p l := by
      intro l hl
      rcases List.mem_cons.1 (hperm.mem_iff.2 hl) with rfl | hl
      · exact le_rfl
      · exact List.rel_of_pairwise_cons hsorted hl
    have hk := (hlowest l hl).trans_lt hlow
    have hmem := hperm.mem_iff.1 List.mem_cons_self
    refine ⟨k, hmem, hlowest, hk, ?_⟩
    rw [List.mapM_cons, spell_of_neg (sub_neg.2 hk), if_pos (h.natAbs_distance_lt hmem)]
    rfl

/-! ## Chords and lines -/

/-- `s.chord (.quantity (.float x))` has the spelt intervals and the duration `x`, if `x` is finite
and positive. -/
theorem chord_of_intervals {s : Selection} {symbols : List String} {x : Float}
    (hf : s.fundamental = some f) (hne : s.notes ≠ []) (hx : x.isFinite = true) (hpos : 0.0 < x)
    (h : intervals f s.notes = .ok symbols) :
    s.chord (.quantity (.float x)) = .ok ⟨f, symbols, .float x⟩ := by
  obtain ⟨⟨base, hbase⟩, hlength, -⟩ := intervals_eq_ok h
  have hfundamental : f.isEmpty = false := by
    obtain ⟨n, hn⟩ := read?_of_noteFrequency hbase
    rw [String.isEmpty_eq_false_iff]
    rintro rfl
    exact absurd hn (by simp [NoteName.read?])
  have hsymbols : (symbols.map Value.text).isEmpty = false := by
    rw [List.isEmpty_eq_false_iff, ← List.length_pos_iff, List.length_map, hlength]
    exact List.length_pos_iff.2 hne
  rw [chord_of_fundamental hf hne, h, ok_bind, Record.check_eq_checkDuration hfundamental hsymbols,
    Record.checkDuration_float hx hpos, ok_bind]
  rfl

/-- `s.chord d` fails as `intervals f s.notes` does. -/
theorem chord_of_intervals_eq_error {s : Selection} {e : Failure} (hf : s.fundamental = some f)
    (hne : s.notes ≠ []) (h : intervals f s.notes = .error e) (d : Value) :
    s.chord d = .error e := by
  rw [chord_of_fundamental hf hne, h, error_bind]

/-- `s.line d = .ok (chordLine c)` if `s.chord d = .ok c`. -/
theorem line_of_chord {s : Selection} {d : Value} {c : Chord} (h : s.chord d = .ok c) :
    s.line d = .ok (chordLine c) := by
  rw [line, h, ok_bind, pure_eq_ok]

/-- `s.line d` fails as `s.chord d` does. -/
theorem line_of_chord_eq_error {s : Selection} {d : Value} {e : Failure} (h : s.chord d = .error e) :
    s.line d = .error e := by
  rw [line, h, error_bind]

/-- `readLine (chordLine c)` is the chord with `trimmed c.fundamental`, if its duration is a double.
-/
theorem readLine_chordLine {s : Selection} {c : Chord} {x : Float}
    (h : s.chord (.quantity (.float x)) = .ok c) :
    readLine (chordLine c) = .ok (some ⟨trimmed c.fundamental, c.intervals, .float x⟩) := by
  obtain ⟨-, hd, y, whole, fraction, hchord⟩ := chord_eq_ok h
  obtain ⟨n, hn, hy⟩ := hchord.duration.number
  rw [← Value.quantity.inj hd] at hn
  obtain rfl := Except.ok.inj hn
  obtain rfl := Except.ok.inj hy
  exact hchord.readLineChars_eq

/-- **A selection survives the trip through text.** Let the fundamental `f` and all selected keys be
`InTune`. If no key is below the fundamental, the selection has a chord `c` and a line `l` for any
finite positive double as its duration, `readLine l` is that chord, and its intervals are read as
the distances `p k - p f` of the keys, in order and one for each key. Otherwise the chord and the
line are refused with the complaint `.belowFundamental` about the lowest key. -/
theorem line_keeps_distances {s : Selection} {x : Float} (hf : s.fundamental = some f)
    (hne : s.notes ≠ []) (hx : x.isFinite = true) (hpos : 0.0 < x)
    (h : InTune f s.notes p frequency) :
    ((∀ k ∈ s.notes, p f ≤ p k) → ∃ (c : Chord) (l : String) (ds : List ℕ),
      s.chord (.quantity (.float x)) = .ok c ∧ s.line (.quantity (.float x)) = .ok l ∧
      readLine l = .ok (some ⟨trimmed f, c.intervals, .float x⟩) ∧
      c.intervals.mapM Interval.semitonesOf = .ok ds ∧ ds.Pairwise (· ≤ ·) ∧
      (ds.map ((↑) : ℕ → ℤ)).Perm (s.notes.map fun k => p k - p f)) ∧
    ((∃ k ∈ s.notes, p k < p f) → ∃ k ∈ s.notes, (∀ l ∈ s.notes, p k ≤ p l) ∧ p k < p f ∧
      ∃ d : Diagnostic, s.chord (.quantity (.float x)) = .error (.diagnosed d) ∧
        s.line (.quantity (.float x)) = .error (.diagnosed d) ∧
        d.family = .symbol ∧ d.kind = .unknownInterval ∧
        d.message = "Cannot spell " ++ toString (p k - p f) ++
          " semitones: note is below the fundamental") := by
  constructor
  · intro habove
    have hchord := chord_of_intervals hf hne hx hpos (h.intervals_eq_ok habove)
    exact ⟨_, _, _, hchord, line_of_chord hchord, readLine_chordLine hchord,
      h.semitonesOf_spellings, pairwise_distances, perm_distances habove⟩
  · intro hbelow
    obtain ⟨k, hk, hlowest, hlow, hintervals⟩ := h.intervals_eq_error hbelow
    have hchord := chord_of_intervals_eq_error hf hne hintervals (.quantity (.float x))
    exact ⟨k, hk, hlowest, hlow, _, hchord, line_of_chord_eq_error hchord, rfl, rfl, rfl⟩

/-- A ninth, two names of a third and a unison above middle C; and middle C below one of these. -/
theorem line_keeps_distances_enharmonic :
    (∃ (c : Chord) (l : String) (ds : List ℕ),
      (⟨some "C4", ["D5", "D#4", "C4", "Eb4"]⟩ : Selection).chord (.quantity (.float 1.5)) = .ok c ∧
      (⟨some "C4", ["D5", "D#4", "C4", "Eb4"]⟩ : Selection).line (.quantity (.float 1.5)) = .ok l ∧
      readLine l = .ok (some ⟨trimmed "C4", c.intervals, .float 1.5⟩) ∧
      c.intervals.mapM Interval.semitonesOf = .ok ds ∧ ds.Pairwise (· ≤ ·) ∧
      (ds.map ((↑) : ℕ → ℤ)).Perm [14, 3, 0, 3]) ∧
    ∃ d : Diagnostic,
      (⟨some "Eb4", ["D5", "C4"]⟩ : Selection).chord (.quantity (.float 1.5)) =
        .error (.diagnosed d) ∧
      (⟨some "Eb4", ["D5", "C4"]⟩ : Selection).line (.quantity (.float 1.5)) =
        .error (.diagnosed d) ∧
      d.family = .symbol ∧ d.kind = .unknownInterval ∧
      d.message = "Cannot spell -3 semitones: note is below the fundamental" := by
  have hfinite : (1.5 : Float).isFinite = true := by decide
  have hpos : (0.0 : Float) < 1.5 := by decide
  constructor
  · exact (line_keeps_distances (s := ⟨some "C4", ["D5", "D#4", "C4", "Eb4"]⟩) rfl (by decide)
      hfinite hpos (inTune_someKeys (by decide))).1 (by decide)
  · obtain ⟨k, hk, -, hlow, d, hchord, hline, hfamily, hkind, hmessage⟩ :=
      (line_keeps_distances (s := ⟨some "Eb4", ["D5", "C4"]⟩) rfl (by decide) hfinite hpos
        (inTune_someKeys (by decide))).2 (by decide)
    -- of the two keys only middle C is below the fundamental
    have hk : k = "C4" := by
      rcases List.mem_cons.1 hk with rfl | hk
      · exact absurd hlow (by decide)
      · exact List.mem_singleton.1 hk
    subst hk
    exact ⟨d, hchord, hline, hfamily, hkind, hmessage⟩

end Selection

end Monochord
