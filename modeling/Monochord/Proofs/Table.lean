import Monochord.Proofs.Pipeline
import Monochord.Proofs.Service.Containment
import Monochord.Table

/-! # The lines of the frequency table

A table is one text, and its lines are told apart by line feeds alone. The fundamentals and the
intervals in it come from outside, so it has to be shown that none of them breaks a line or adds
one. Then the block of every chord stands at a place that follows from the numbers of intervals.

* **`lineFeed_not_mem_fixed`**, **`lineFeed_not_mem_general`** — a number stays on its line.
* **`onOneLine_of_readChord`** — so do the fundamental and the intervals of a line.
* **`take_drop_joinBlocks`**, **`joinBlocks_eq_empty_iff`** — where the blocks and the empty lines
  are.
* **`Chord.IsBlock`**, **`IsTable`** — the block of a chord, and the lines of a table.
* **`exists_frequencyTable_iff`** — which chords have a table.
* **`isTable_of_frequencyTable`** — the lines of a table are its blocks, with one empty line between
  two of them. -/

namespace Monochord

open Text Binary64

/-! ## Numbers -/

/-- `'\n' ∉ cs` if `IsDigits cs`. -/
theorem lineFeed_not_mem_of_isDigits {cs : List Char} (h : IsDigits cs) : '\n' ∉ cs :=
  fun hmem => absurd (h '\n' hmem) (by decide)

/-- `placePoint ds whole` adds no line feed to `ds`. -/
theorem lineFeed_not_mem_placePoint {ds : List Char} (h : '\n' ∉ ds) (whole : ℤ) :
    '\n' ∉ placePoint ds whole := by
  have hzeros (n : ℕ) : '\n' ∉ zeros n := lineFeed_not_mem_of_isDigits (isDigits_zeros n)
  rw [placePoint]
  split
  · simp [h, hzeros]
  · split
    · simp [h, hzeros]
    · have htake : '\n' ∉ ds.take whole.toNat := fun hmem => h (List.mem_of_mem_take hmem)
      have hdrop : '\n' ∉ ds.drop whole.toNat := fun hmem => h (List.mem_of_mem_drop hmem)
      simp [htake, hdrop]

/-- `exponentText e` has no line feed. -/
theorem lineFeed_not_mem_exponentText (e : ℤ) : '\n' ∉ exponentText e := by
  have hdigits : '\n' ∉ zeros (2 - (digits e.natAbs).length) ++ digits e.natAbs :=
    lineFeed_not_mem_of_isDigits ((isDigits_zeros _).append (isDigits_digits _))
  rw [exponentText, List.cons_append, List.cons_append, List.mem_cons, List.mem_cons, not_or,
    not_or]
  refine ⟨by decide, ?_, hdigits⟩
  split <;> decide

/-- `scientific ds e` adds no line feed to `ds`. -/
theorem lineFeed_not_mem_scientific {ds : List Char} (h : '\n' ∉ ds) (e : ℤ) :
    '\n' ∉ scientific ds e := by
  have hexponent := lineFeed_not_mem_exponentText e
  unfold scientific
  split
  · exact hexponent
  · simp_all
  · simp_all

/-- `signed plus x magnitude` adds no line feed to `magnitude ()`. -/
theorem lineFeed_not_mem_signed {magnitude : Unit → List Char} (h : '\n' ∉ magnitude ())
    (plus : Bool) (x : Float) : '\n' ∉ signed plus x magnitude := by
  have hsign : '\n' ∉ signText plus x := by
    rw [signText]
    split_ifs <;> decide
  rw [signed, List.mem_append, not_or]
  refine ⟨hsign, ?_⟩
  split_ifs
  · decide
  · exact h
  · decide

/-- **`fixed places plus x` has no line feed.** -/
theorem lineFeed_not_mem_fixed (places : ℕ) (plus : Bool) (x : Float) :
    '\n' ∉ fixed places plus x := by
  refine lineFeed_not_mem_signed ?_ plus x
  exact lineFeed_not_mem_placePoint
    (lineFeed_not_mem_of_isDigits ((isDigits_zeros _).append (isDigits_digits _))) _

/-- **`general x` has no line feed.** -/
theorem lineFeed_not_mem_general (x : Float) : '\n' ∉ general x := by
  have hdigits (n : ℕ) : '\n' ∉ dropZeros (digits n) := by
    intro hmem
    have hmem : '\n' ∈ (digits n).reverse :=
      (List.dropWhile_suffix _).subset (List.mem_reverse.1 hmem)
    exact lineFeed_not_mem_of_isDigits (isDigits_digits n) (List.mem_reverse.1 hmem)
  refine lineFeed_not_mem_signed ?_ false x
  dsimp only
  split
  · decide
  · split
    · exact lineFeed_not_mem_placePoint (hdigits _) _
    · exact lineFeed_not_mem_scientific (hdigits _) _

/-- `padRight width cs` has a line feed exactly if `cs` has one. -/
theorem lineFeed_mem_padRight {width : ℕ} {cs : List Char} :
    '\n' ∈ padRight width cs ↔ '\n' ∈ cs := by
  simp [padRight]

/-- `padLeft width cs` has a line feed exactly if `cs` has one. -/
theorem lineFeed_mem_padLeft {width : ℕ} {cs : List Char} :
    '\n' ∈ padLeft width cs ↔ '\n' ∈ cs := by
  simp [padLeft]

/-! ## Chords of a line -/

/-- A chord that stands on one line: neither its fundamental nor an interval has a line feed. -/
structure Chord.OnOneLine (c : Chord) : Prop where
  /-- The fundamental has no line feed. -/
  fundamental : '\n' ∉ c.fundamental.toList
  /-- No interval has one. -/
  intervals : ∀ s ∈ c.intervals, '\n' ∉ s.toList

/-- The intervals of `readParts parts duration` are among `parts`. -/
theorem mem_of_readParts {parts : List (List Char)} {duration d : Float} {intervals : List String}
    (h : readParts parts duration = .ok (intervals, d)) : ∀ s ∈ intervals, s.toList ∈ parts := by
  induction parts generalizing duration intervals d with
  | nil =>
    obtain ⟨rfl, -⟩ := Prod.mk.inj (Except.ok.inj h)
    exact fun s hs => absurd hs List.not_mem_nil
  | cons part parts ih =>
    rw [readParts] at h
    split at h
    · -- an assignment
      obtain ⟨x, -, h⟩ := bind_eq_ok_iff.1 h
      exact fun s hs => List.mem_cons_of_mem part (ih h s hs)
    · split at h
      · exact fun s hs => List.mem_cons_of_mem part (ih h s hs)
      · obtain ⟨⟨others, x⟩, hothers, h⟩ := bind_eq_ok_iff.1 h
        obtain ⟨rfl, -⟩ := Prod.mk.inj (Except.ok.inj h)
        refine List.forall_mem_cons.2 ⟨?_, fun s hs => List.mem_cons_of_mem part (ih hothers s hs)⟩
        rw [String.toList_ofList]
        exact List.mem_cons_self

/-- **`c.OnOneLine` if `readChord line = .ok c` and `'\n' ∉ line`.** -/
theorem onOneLine_of_readChord {line : List Char} {c : Chord} (hline : '\n' ∉ line)
    (h : readChord line = .ok c) : c.OnOneLine := by
  obtain ⟨head, tail, intervals, duration, hcut, hparts, -, rfl⟩ := exists_of_readChord h
  obtain ⟨rfl, -⟩ := eq_of_cut? hcut
  constructor
  · intro hmem
    rw [String.toList_ofList] at hmem
    exact hline (List.mem_append_left _ ((trim_sublist head).subset hmem))
  · intro s hs hmem
    obtain ⟨piece, hpiece, htrim⟩ := List.mem_map.1 (mem_of_readParts hparts s hs)
    rw [← htrim] at hmem
    have htail := mem_of_mem_splitOn hpiece ((trim_sublist piece).subset hmem)
    exact hline (List.mem_append_right _ (List.mem_cons_of_mem _ htail))

/-- `c.OnOneLine` for all chords of `readSequence text`. -/
theorem onOneLine_of_readSequence {text : String} {cs : List Chord}
    (h : readSequence text = .ok cs) : ∀ c ∈ cs, c.OnOneLine := by
  obtain ⟨-, rfl⟩ := readLines_eq_ok_iff.1 (readLines_of_readSequence (.inl h))
  intro c hc
  obtain ⟨line, hline, hread⟩ := List.mem_filterMap.1 hc
  refine onOneLine_of_readChord (fun hmem => ?_)
    (readChord_of_readLineChars (chordIn?_eq_some_iff.1 hread))
  exact not_mem_of_mem_splitOn hline ((trim_sublist line).subset hmem)

/-! ## Blocks one after another -/

/-- The index of the line at which a block starts: each earlier block takes its own lines and an
empty one. -/
def startOf (bs : List (List String)) (i : ℕ) : ℕ := ((bs.take i).map fun b => b.length + 1).sum

/-- `joinBlocks (b :: bs)` is `b`, an empty line and `joinBlocks bs`, if `bs ≠ []`. -/
theorem joinBlocks_cons_of_ne_nil (b : List String) {bs : List (List String)} (h : bs ≠ []) :
    joinBlocks (b :: bs) = b ++ "" :: joinBlocks bs := by
  cases bs with
  | nil => exact absurd rfl h
  | cons b' bs => rfl

/-- `joinBlocks bs` has the lines of all blocks, and `bs.length - 1` empty ones. -/
theorem length_joinBlocks (bs : List (List String)) :
    (joinBlocks bs).length = (bs.map List.length).sum + (bs.length - 1) := by
  induction bs with
  | nil => rfl
  | cons b bs ih =>
    by_cases hne : bs = []
    · subst hne
      simp [joinBlocks]
    · have hpos := List.length_pos_iff.2 hne
      rw [joinBlocks_cons_of_ne_nil b hne, List.length_append, List.length_cons, ih, List.map_cons,
        List.sum_cons, List.length_cons]
      omega

/-- **`joinBlocks bs` has the block `b` at `startOf bs i`**, if `bs[i]? = some b`. -/
theorem take_drop_joinBlocks {bs : List (List String)} {i : ℕ} {b : List String}
    (h : bs[i]? = some b) : ((joinBlocks bs).drop (startOf bs i)).take b.length = b := by
  induction bs generalizing i with
  | nil => exact absurd h (by simp)
  | cons b' bs ih =>
    cases i with
    | zero =>
      obtain rfl : b' = b := by simpa using h
      by_cases hne : bs = []
      · subst hne
        simp [joinBlocks, startOf]
      · rw [joinBlocks_cons_of_ne_nil b' hne]
        exact List.take_left
    | succ i =>
      have hi : bs[i]? = some b := by simpa using h
      have hne : bs ≠ [] := by
        rintro rfl
        exact absurd hi (by simp)
      have hstart : startOf (b' :: bs) (i + 1) = b'.length + (startOf bs i + 1) := by
        simp only [startOf, List.take_succ_cons, List.map_cons, List.sum_cons]
        omega
      rw [joinBlocks_cons_of_ne_nil b' hne, hstart, List.drop_length_add_append,
        List.drop_succ_cons]
      exact ih hi

/-- **A line of `joinBlocks bs` is empty exactly if it precedes `startOf bs (i + 1)`**, if no block
has an empty line. -/
theorem joinBlocks_eq_empty_iff {bs : List (List String)} (h : ∀ b ∈ bs, "" ∉ b) (n : ℕ) :
    (joinBlocks bs)[n]? = some "" ↔ ∃ i, i + 1 < bs.length ∧ n + 1 = startOf bs (i + 1) := by
  induction bs generalizing n with
  | nil => simp [joinBlocks]
  | cons b bs ih =>
    obtain ⟨hb, hbs⟩ := List.forall_mem_cons.1 h
    have hstart (i : ℕ) : startOf (b :: bs) (i + 1) = b.length + 1 + startOf bs i := by
      simp [startOf]
    simp only [hstart, List.length_cons]
    by_cases hne : bs = []
    · subst hne
      refine iff_of_false (fun hn => hb (List.mem_of_getElem? hn)) ?_
      rintro ⟨i, hi, -⟩
      simp at hi
    have hpos := List.length_pos_iff.2 hne
    rw [joinBlocks_cons_of_ne_nil b hne]
    rcases lt_trichotomy n b.length with hlt | rfl | hgt
    · -- a line of the first block
      rw [List.getElem?_append_left hlt]
      refine iff_of_false (fun hn => hb (List.mem_of_getElem? hn)) ?_
      rintro ⟨i, -, hi⟩
      omega
    · -- the empty line behind it
      rw [List.getElem?_append_right le_rfl, Nat.sub_self]
      exact iff_of_true rfl ⟨0, by omega, by simp [startOf]⟩
    · -- a line of the other blocks, or between them
      obtain ⟨k, rfl⟩ : ∃ k, n = b.length + (k + 1) := ⟨n - b.length - 1, by omega⟩
      rw [List.getElem?_append_right (by omega), Nat.add_sub_cancel_left, List.getElem?_cons_succ,
        ih hbs]
      constructor
      · rintro ⟨i, hi, hk⟩
        exact ⟨i + 1, by omega, by omega⟩
      · rintro ⟨i, hi, hk⟩
        cases i with
        | zero => exact absurd hk (by simp [startOf])
        | succ i => exact ⟨i, by omega, by omega⟩

/-! ## The block of a chord -/

/-- **The block of a chord**: a title with its number and its fundamental, the column heads, and a
line for each interval, in the written order. -/
def Chord.IsBlock (c : Chord) (number : ℕ) (lines : List (List Char)) : Prop :=
  ∃ title rows, lines = title :: headLine.toList :: rows ∧
    (toString number ++ ". Chord: " ++ c.fundamental ++ " (").toList <+: title ∧
    List.Forall₂ (fun symbol row => ("   " ++ symbol).toList <+: row) c.intervals rows

/-- `toString n` has no line feed. -/
theorem lineFeed_not_mem_number (n : ℕ) : '\n' ∉ (toString n).toList := by
  rw [toList_toString]
  exact lineFeed_not_mem_of_isDigits (isDigits_digits n)

/-- `titleLine number r` starts with the number and the fundamental, and adds no line feed. -/
theorem titleLine_spec {number : ℕ} {r : ResolvedChord} {title : String}
    (h : titleLine number r = .ok title) :
    (toString number ++ ". Chord: " ++ r.fundamental ++ " (").toList <+: title.toList ∧
      ('\n' ∉ r.fundamental.toList → '\n' ∉ title.toList) := by
  obtain ⟨duration, hduration, h⟩ := bind_eq_ok_iff.1 h
  obtain ⟨q, -, hduration⟩ := bind_eq_ok_iff.1 hduration
  obtain ⟨x, -, hduration⟩ := bind_eq_ok_iff.1 hduration
  obtain rfl := Except.ok.inj hduration
  obtain rfl := Except.ok.inj h
  constructor
  · refine ⟨fixed 2 false r.harmony.fundamental ++ " Hz) - Duration: ".toList ++ general x, ?_⟩
    simp only [String.toList_append, String.toList_ofList, List.append_assoc]
  · intro hf
    have hnumber := lineFeed_not_mem_number number
    have hfrequency := lineFeed_not_mem_fixed 2 false r.harmony.fundamental
    have hgeneral := lineFeed_not_mem_general x
    have hwords : '\n' ∉ ". Chord: ".toList ∧ '\n' ∉ " (".toList ∧
        '\n' ∉ " Hz) - Duration: ".toList := by
      decide
    simp only [String.toList_append, String.toList_ofList, List.mem_append, not_or]
    exact ⟨⟨⟨⟨⟨⟨hnumber, hwords.1⟩, hf⟩, hwords.2.1⟩, hfrequency⟩, hwords.2.2⟩, hgeneral⟩

/-- `noteLine row` starts with three spaces and the interval, and adds no line feed. -/
theorem noteLine_spec (row : Comparison) :
    ("   " ++ row.interval).toList <+: (noteLine row).toList ∧
      ('\n' ∉ row.interval.toList → '\n' ∉ (noteLine row).toList) := by
  have hfixed (places : ℕ) (plus : Bool) (x : Float) := lineFeed_not_mem_fixed places plus x
  rw [noteLine, String.toList_ofList]
  constructor
  · have hspaces : "   ".toList = [' ', ' ', ' '] := by decide
    simp only [String.toList_append, hspaces, padRight, List.append_assoc,
      List.prefix_append_right_inj]
    exact List.prefix_append _ _
  · intro hinterval
    simp [lineFeed_mem_padLeft, lineFeed_mem_padRight, hfixed, hinterval]

/-- `headLine` has no line feed. -/
theorem lineFeed_not_mem_headLine : '\n' ∉ headLine.toList := by decide

/-- **`block number r` makes lines with `c.IsBlock number`**, if `c.OnOneLine` and `c.Keeps r`. -/
theorem block_spec {number : ℕ} {c : Chord} {r : ResolvedChord} {b : List String}
    (hline : c.OnOneLine) (hkeeps : c.Keeps r) (h : block number r = .ok b) :
    c.IsBlock number (b.map String.toList) ∧ ∀ line ∈ b, '\n' ∉ line.toList := by
  obtain ⟨title, htitle, h⟩ := bind_eq_ok_iff.1 h
  obtain ⟨rows, hrows, h⟩ := bind_eq_ok_iff.1 h
  obtain rfl := Except.ok.inj h
  have hintervals : rows.map (·.interval) = c.intervals :=
    (Harmony.pairsUp_of_compare hkeeps.length_eq.2 hrows).interval.trans hkeeps.pure
  obtain ⟨hstart, hfeed⟩ := titleLine_spec htitle
  rw [hkeeps.fundamental] at hstart hfeed
  constructor
  · refine ⟨title.toList, (rows.map noteLine).map String.toList, rfl, hstart, ?_⟩
    rw [← hintervals, List.map_map, List.forall₂_map_left_iff, List.forall₂_map_right_iff,
      List.forall₂_same]
    exact fun row _ => (noteLine_spec row).1
  · refine List.forall_mem_cons.2 ⟨hfeed hline.fundamental,
      List.forall_mem_cons.2 ⟨lineFeed_not_mem_headLine, List.forall_mem_map.2 fun row hrow => ?_⟩⟩
    refine (noteLine_spec row).2 (hline.intervals _ ?_)
    rw [← hintervals]
    exact List.mem_map_of_mem hrow

namespace Chord.IsBlock

variable {c : Chord} {number : ℕ} {lines : List (List Char)}

/-- `c.IsBlock number lines` only if there are two lines more than intervals. -/
theorem length_eq (h : c.IsBlock number lines) : lines.length = c.intervals.length + 2 := by
  obtain ⟨title, rows, rfl, -, hrows⟩ := h
  rw [List.length_cons, List.length_cons, hrows.length_eq]

/-- `c.IsBlock number lines` only if no line is empty. -/
theorem nil_not_mem (h : c.IsBlock number lines) : [] ∉ lines := by
  obtain ⟨title, rows, rfl, htitle, hrows⟩ := h
  rw [List.mem_cons, List.mem_cons, not_or, not_or]
  refine ⟨?_, by decide, fun hmem => ?_⟩
  · rintro rfl
    simp at htitle
  · obtain ⟨symbol, -, hsymbol⟩ := exists_of_mem_forall₂ hrows hmem
    simp at hsymbol

end Chord.IsBlock

/-! ## The lines of a table -/

/-- The index of the line at which the block of a chord starts. The block of each earlier chord has
a title, the column heads and a line for each interval, and an empty line follows it. -/
def blockStart (cs : List Chord) (i : ℕ) : ℕ :=
  ((cs.take i).map fun c => c.intervals.length + 3).sum

/-- **The lines of a table of some chords**: their blocks, numbered from one, with one empty line
between two of them and none anywhere else. -/
structure IsTable (cs : List Chord) (lines : List (List Char)) : Prop where
  /-- There are no other lines. -/
  length : lines.length = (cs.map fun c => c.intervals.length + 2).sum + (cs.length - 1)
  /-- The block of each chord stands where it should. -/
  block : ∀ (i : ℕ) (c : Chord), cs[i]? = some c →
    c.IsBlock (i + 1) ((lines.drop (blockStart cs i)).take (c.intervals.length + 2))
  /-- The empty lines are those in front of all blocks but the first. -/
  empty : ∀ n, lines[n]? = some [] ↔ ∃ i, i + 1 < cs.length ∧ n + 1 = blockStart cs (i + 1)

/-- **`blocks number rs` makes a block for each chord**, with `IsBlock` for its number, and no line
feed in any line. -/
theorem forall₂_isBlock {cs : List Chord} {rs : List ResolvedChord} {bs : List (List String)}
    {number : ℕ} (hlines : ∀ c ∈ cs, c.OnOneLine) (hkeeps : List.Forall₂ Chord.Keeps cs rs)
    (h : blocks number rs = .ok bs) :
    List.Forall₂ (fun p b => p.1.IsBlock p.2 (b.map String.toList) ∧
      ∀ line ∈ b, '\n' ∉ line.toList) (cs.zipIdx number) bs := by
  induction hkeeps generalizing number bs with
  | nil =>
    obtain rfl := Except.ok.inj h
    exact .nil
  | cons hc _ ih =>
    obtain ⟨hline, hlines⟩ := List.forall_mem_cons.1 hlines
    obtain ⟨first, hfirst, h⟩ := bind_eq_ok_iff.1 h
    obtain ⟨rest, hrest, h⟩ := bind_eq_ok_iff.1 h
    obtain rfl := Except.ok.inj h
    exact .cons (block_spec hline hc hfirst) (ih hlines hrest)

/-- `linesOf` undoes `"\n".intercalate` for lines without line feeds. -/
theorem linesOf_intercalate {lines : List String} (hne : lines ≠ [])
    (h : ∀ line ∈ lines, '\n' ∉ line.toList) :
    linesOf ("\n".intercalate lines) = lines.map String.toList := by
  have hfeed : "\n".toList = ['\n'] := by decide
  rw [linesOf, String.toList_intercalate, hfeed]
  refine splitOn_intercalate (by simpa using hne) ?_
  exact List.forall_mem_map.2 h

/-- A line of `joinBlocks bs` is empty, or a line of some block. -/
theorem mem_joinBlocks {bs : List (List String)} {line : String} (h : line ∈ joinBlocks bs) :
    line = "" ∨ ∃ b ∈ bs, line ∈ b := by
  induction bs with
  | nil => exact absurd h List.not_mem_nil
  | cons b bs ih =>
    by_cases hne : bs = []
    · subst hne
      exact .inr ⟨b, List.mem_cons_self, h⟩
    · rw [joinBlocks_cons_of_ne_nil b hne, List.mem_append, List.mem_cons] at h
      rcases h with h | h | h
      · exact .inr ⟨b, List.mem_cons_self, h⟩
      · exact .inl h
      · exact (ih h).imp_right fun ⟨b', hb', hline⟩ => ⟨b', List.mem_cons_of_mem b hb', hline⟩

/-- **`IsTable cs` holds of the lines of `joinBlocks bs`**, if each of `bs` has `IsBlock` for its
chord. -/
theorem isTable_joinBlocks {cs : List Chord} {bs : List (List String)}
    (h : List.Forall₂ (fun p b => p.1.IsBlock p.2 (b.map String.toList)) (cs.zipIdx 1) bs) :
    IsTable cs ((joinBlocks bs).map String.toList) := by
  have hsizes : List.Forall₂ (fun c b => b.length = c.intervals.length + 2) cs bs := by
    rw [← List.zipIdx_map_fst 1 cs, List.forall₂_map_left_iff]
    refine h.imp fun p b hb => ?_
    rw [← hb.length_eq, List.length_map]
  -- the starts are counted from the blocks in the one, and from the intervals in the other
  have hstart (i : ℕ) : startOf bs i = blockStart cs i := by
    rw [startOf, map_eq_map_of_forall₂ (f := fun c => c.intervals.length + 3)
      (fun c b hb => congrArg (· + 1) hb) (List.forall₂_take i hsizes)]
    rfl
  refine ⟨?_, fun i c hc => ?_, fun n => ?_⟩
  · rw [List.length_map, length_joinBlocks, hsizes.length_eq,
      map_eq_map_of_forall₂ (fun c b hb => hb) hsizes]
  · have hnumber : (cs.zipIdx 1)[i]? = some (c, i + 1) := by
      rw [List.getElem?_zipIdx, hc, Option.map_some, Nat.add_comm]
    obtain ⟨b, hb, hblock⟩ := exists_getElem?_of_forall₂ h hnumber
    rw [← hblock.length_eq, List.length_map, ← hstart, ← List.map_drop, ← List.map_take,
      take_drop_joinBlocks hb]
    exact hblock
  · have hfull : ∀ b ∈ bs, "" ∉ b := by
      intro b hb hmem
      obtain ⟨p, -, hp⟩ := exists_of_mem_forall₂ h hb
      exact hp.nil_not_mem (List.mem_map.2 ⟨"", hmem, rfl⟩)
    have htext (line : String) : line.toList = [] ↔ line = "" := String.toList_eq_nil_iff
    simp only [List.getElem?_map, Option.map_eq_some_iff, htext, exists_eq_right, hsizes.length_eq,
      ← hstart]
    exact joinBlocks_eq_empty_iff hfull n

/-- `blocks number rs` succeeds exactly if `r.harmony.compare` does for each chord. -/
theorem exists_blocks_iff {rs : List ResolvedChord} (h : ∀ r ∈ rs, r.Sound) (number : ℕ) :
    (∃ bs, blocks number rs = .ok bs) ↔ ∀ r ∈ rs, ∃ rows, r.harmony.compare = .ok rows := by
  induction rs generalizing number with
  | nil => exact iff_of_true ⟨[], rfl⟩ fun r hr => absurd hr List.not_mem_nil
  | cons r rs ih =>
    obtain ⟨hr, hrs⟩ := List.forall_mem_cons.1 h
    rw [List.forall_mem_cons, ← ih hrs (number + 1)]
    constructor
    · rintro ⟨bs, hbs⟩
      obtain ⟨b, hb, hbs⟩ := bind_eq_ok_iff.1 hbs
      obtain ⟨rest, hrest, -⟩ := bind_eq_ok_iff.1 hbs
      obtain ⟨_, -, hb⟩ := bind_eq_ok_iff.1 hb
      obtain ⟨rows, hrows, -⟩ := bind_eq_ok_iff.1 hb
      exact ⟨⟨rows, hrows⟩, rest, hrest⟩
    · rintro ⟨⟨rows, hrows⟩, rest, hrest⟩
      -- the duration is a double, so there is a title
      obtain ⟨d, hd⟩ := hr.duration
      rw [blocks, block, titleLine, hd, hrows, hrest]
      exact ⟨_, rfl⟩

/-- **`frequencyTable rs` succeeds exactly if all chords are `Reportable`.** -/
theorem exists_frequencyTable_iff {rs : List ResolvedChord} (h : ∀ r ∈ rs, r.Sound) :
    (∃ table, frequencyTable rs = .ok table) ↔ ∀ r ∈ rs, r.Reportable := by
  have hblocks : (∃ table, frequencyTable rs = .ok table) ↔ ∃ bs, blocks 1 rs = .ok bs := by
    rw [frequencyTable, tableLines]
    cases blocks 1 rs with
    | error e => exact iff_of_false (fun ⟨_, h⟩ => absurd h (by simp)) (by simp)
    | ok bs => exact iff_of_true ⟨_, rfl⟩ ⟨bs, rfl⟩
  rw [hblocks, exists_blocks_iff h]
  exact forall₂_congr fun r hr => ResolvedChord.exists_compare_iff (h r hr)

/-- **The frequency table of a text has one block for each chord and one line for each note.** If
`resolveText text = .ok rs` and `frequencyTable rs = .ok table`, then `IsTable` holds of
`linesOf table` and of the chords of the text.

The block of each chord starts where the numbers of the intervals before it put it, and has a title
with the number and the fundamental of the chord, the column heads, and a line for each interval in
the written order. One empty line stands between two blocks, and there are no others. -/
theorem isTable_of_frequencyTable {text : String} {rs : List ResolvedChord} {table : String}
    (hrs : resolveText text = .ok rs) (htable : frequencyTable rs = .ok table) :
    ∃ cs, readSequence text = .ok cs ∧ IsTable cs (linesOf table) := by
  obtain ⟨cs, hcs, hresolve⟩ := bind_eq_ok_iff.1 hrs
  rw [diagnosing_eq_ok_iff] at hcs
  have hkeeps := (mapM_eq_ok_iff.1 hresolve).imp fun c r hr => c.keeps_of_resolve hr
  obtain ⟨lines, hlines, htable⟩ := bind_eq_ok_iff.1 htable
  obtain ⟨bs, hbs, hlines⟩ := bind_eq_ok_iff.1 hlines
  obtain rfl := Except.ok.inj hlines
  obtain rfl := Except.ok.inj htable
  have hblocks := forall₂_isBlock (onOneLine_of_readSequence hcs) hkeeps hbs
  have hisTable := isTable_joinBlocks (hblocks.imp fun p b hp => hp.1)
  have hne : joinBlocks bs ≠ [] := by
    -- a table of at least one chord has more than two lines
    intro hnil
    obtain ⟨c, cs, rfl⟩ := List.exists_cons_of_ne_nil (ne_nil_of_readSequence hcs)
    have hlength := hisTable.length
    rw [hnil, List.map_nil, List.length_nil, List.map_cons, List.sum_cons] at hlength
    omega
  have hfeeds : ∀ line ∈ joinBlocks bs, '\n' ∉ line.toList := by
    intro line hline
    rcases mem_joinBlocks hline with rfl | ⟨b, hb, hline⟩
    · decide
    · obtain ⟨p, -, -, hp⟩ := exists_of_mem_forall₂ hblocks hb
      exact hp line hline
  refine ⟨cs, hcs, ?_⟩
  rw [linesOf_intercalate hne hfeeds]
  exact hisTable

/-- Two chords with a blank line between them in the text: their blocks have three lines each, and
the fourth line of the table is empty. -/
theorem isTable_of_frequencyTable_twoOctaves :
    ∃ rs table cs, resolveText "440Hz: 8\n\n440: 8" = .ok rs ∧ frequencyTable rs = .ok table ∧
      readSequence "440Hz: 8\n\n440: 8" = .ok cs ∧ IsTable cs (linesOf table) ∧
      (linesOf table).length = 7 ∧ (linesOf table)[3]? = some [] := by
  have hread : readSequence "440Hz: 8\n\n440: 8" =
      .ok [⟨"440Hz", ["8"], .float 1.0⟩, ⟨"440", ["8"], .float 1.0⟩] := rfl
  have hresolve : resolveText "440Hz: 8\n\n440: 8" =
      .ok [octaveChord "440Hz", octaveChord "440"] := by
    rw [resolveText, hread, diagnosing_ok, ok_bind, resolveAll, mapM_eq_ok_iff]
    exact .cons (resolve_octave (by decide)) (.cons (resolve_octave (by decide)) .nil)
  have hreportable (text : String) : (octaveChord text).Reportable := by
    have hpositive : (0.0 : Float) < 440.0 := by decide
    have hfinite : (880.0 : Float).isFinite = true := by decide
    exact ⟨hpositive, List.forall_mem_singleton.2 fun _ => hfinite⟩
  obtain ⟨table, htable⟩ := (exists_frequencyTable_iff (sound_of_resolveText hresolve)).2 <|
    List.forall_mem_cons.2 ⟨hreportable _, List.forall_mem_singleton.2 (hreportable _)⟩
  obtain ⟨cs, hcs, hisTable⟩ := isTable_of_frequencyTable hresolve htable
  obtain rfl := Except.ok.inj (hread.symm.trans hcs)
  exact ⟨_, table, _, hresolve, htable, hread, hisTable, hisTable.length,
    (hisTable.empty 3).2 ⟨0, by decide, by decide⟩⟩

end Monochord
