import Monochord.Proofs.Assignment
import Monochord.Proofs.Quantity

/-! # Which chord records are accepted

A chord record is checked field by field, and the first field that is not good is reported. Only an
integer that is beyond the range of doubles is neither accepted nor reported as a duration.

* **`Record.HasFundamental`**, **`Record.HasIntervals`**, **`Record.HasDuration`** — what the fields
  of a good record hold.
* **`Record.Decision`** — what should become of a record; **`Record.OutOfRange`**: where it does not.
* **`Record.decision_iff_not_outOfRange`** — what becomes of every record.
* **`Record.settle_of_check`** — a record that is accepted is accepted with its intervals as a list.
* **`Chord.Read`** — the chords that lines hold; **`Record.check_ofChord`**: whether these are
  accepted.
* **`Record.decides`** — all of this together. -/

namespace Monochord

open Text Binary64

namespace Record

/-! ## Good fields -/

/-- A good fundamental is `.text s` with `s ≠ ""`. -/
def HasFundamental (v : Value) : Prop := ∃ s, v = .text s ∧ s ≠ ""

/-- Good intervals are `.list items` with `items ≠ []`. -/
def HasIntervals (v : Value) : Prop := ∃ items, v = .list items ∧ items ≠ []

/-- A good duration is an integer or a double that is finite and positive. `.quantity (.truth b)` is
neither of them. -/
def HasDuration (v : Value) : Prop :=
  ∃ a : Number, v = .quantity a.quantity ∧ ∃ r, a.value? = some r ∧ 0 < r

/-- **What should become of a record**: `.ok a` with its duration `a`, or the complaint about the
first field that is not good. -/
inductive Decision (r : Record) : Except Failure Number → Prop
  | accepted {a : Number} : HasFundamental r.fundamental → HasIntervals r.intervals →
      r.duration = .quantity a.quantity → HasDuration r.duration → Decision r (.ok a)
  | withoutFundamental : ¬HasFundamental r.fundamental →
      Decision r (.error (.diagnosed Cause.recordWithoutFundamental.diagnostic))
  | withoutIntervals : HasFundamental r.fundamental → ¬HasIntervals r.intervals →
      Decision r (.error (.diagnosed Cause.recordWithoutIntervals.diagnostic))
  | durationInvalid : HasFundamental r.fundamental → HasIntervals r.intervals →
      ¬HasDuration r.duration →
      Decision r (.error (.diagnosed Cause.recordDurationInvalid.diagnostic))

/-- A record whose duration is an integer of magnitude `overflowBound` or more, while the other
fields are good. -/
def OutOfRange (r : Record) : Prop :=
  HasFundamental r.fundamental ∧ HasIntervals r.intervals ∧
    ∃ n : ℤ, r.duration = .quantity (.int n) ∧ overflowBound ≤ |(n : ℚ)|

/-! ## Durations -/

/-- **Checking a number as a duration**: `checkDuration.accept a` overflows if `a` is an integer
beyond every double, is `.ok a` if `a` is positive, and complains otherwise. -/
theorem accept_cases (a : Number) :
    (∃ n, a = .int n ∧ overflowBound ≤ |(n : ℚ)| ∧ checkDuration.accept a = .error .overflow) ∨
    ((∃ r, a.value? = some r ∧ 0 < r) ∧ checkDuration.accept a = .ok a) ∨
    ((¬∃ r, a.value? = some r ∧ 0 < r) ∧ checkDuration.accept a =
      .error (.diagnosed Cause.recordDurationInvalid.diagnostic)) := by
  rcases a.isFinite_cases with ⟨n, rfl, hbeyond, hfinite⟩ | ⟨-, finite, hfinite, hgood⟩
  · refine .inl ⟨n, rfl, hbeyond, ?_⟩
    rw [checkDuration.accept, hfinite, error_bind]
  · rw [checkDuration.accept, hfinite, ok_bind]
    split
    · next h => exact .inr (.inl ⟨hgood.1 h, rfl⟩)
    · next h => exact .inr (.inr ⟨mt hgood.2 h, rfl⟩)

/-- `HasDuration (.quantity a.quantity)` says of the number `a` itself that its value is positive.
-/
theorem hasDuration_quantity_iff {a : Number} :
    HasDuration (.quantity a.quantity) ↔ ∃ r, a.value? = some r ∧ 0 < r := by
  refine ⟨fun ⟨b, hb, hpos⟩ => ?_, fun h => ⟨a, rfl, h⟩⟩
  have hab : a = b := by
    cases a <;> cases b <;> simp_all [Number.quantity]
  exact hab ▸ hpos

/-- `checkDuration v` complains if `v` is no number. -/
theorem checkDuration_of_not_number {v : Value} (h : ∀ a : Number, v ≠ .quantity a.quantity) :
    checkDuration v = .error (.diagnosed Cause.recordDurationInvalid.diagnostic) := by
  rw [checkDuration.eq_def]
  split
  · next n => exact absurd rfl (h (.int n))
  · next x => exact absurd rfl (h (.float x))
  · rfl

/-- `checkDuration` of a number is `checkDuration.accept` of it. -/
theorem checkDuration_quantity (a : Number) :
    checkDuration (.quantity a.quantity) = checkDuration.accept a := by
  cases a <;> rfl

/-- **Checking a value as a duration**: `checkDuration v` overflows for an integer beyond every
double, is `.ok a` if `HasDuration v`, and complains otherwise. -/
theorem checkDuration_cases (v : Value) :
    (∃ n : ℤ, v = .quantity (.int n) ∧ overflowBound ≤ |(n : ℚ)| ∧
      checkDuration v = .error .overflow) ∨
    (∃ a : Number, v = .quantity a.quantity ∧ HasDuration v ∧ checkDuration v = .ok a) ∨
    (¬HasDuration v ∧
      checkDuration v = .error (.diagnosed Cause.recordDurationInvalid.diagnostic)) := by
  by_cases hnumber : ∃ a : Number, v = .quantity a.quantity
  · obtain ⟨a, rfl⟩ := hnumber
    rw [hasDuration_quantity_iff, checkDuration_quantity]
    rcases accept_cases a with ⟨n, rfl, hbeyond, h⟩ | ⟨hgood, h⟩ | ⟨hbad, h⟩
    · exact .inl ⟨n, rfl, hbeyond, h⟩
    · exact .inr (.inl ⟨a, rfl, hgood, h⟩)
    · exact .inr (.inr ⟨hbad, h⟩)
  · refine .inr (.inr ⟨fun ⟨a, ha, _⟩ => hnumber ⟨a, ha⟩, ?_⟩)
    exact checkDuration_of_not_number (not_exists.1 hnumber)

/-! ## Records -/

/-- `r.check` complains about the fundamental if that is not good. -/
theorem check_of_not_hasFundamental {r : Record} (h : ¬HasFundamental r.fundamental) :
    r.check = .error (.diagnosed Cause.recordWithoutFundamental.diagnostic) := by
  obtain ⟨fundamental, intervals, duration⟩ := r
  cases fundamental with
  | text s =>
    have hs : s = "" := by
      by_contra hne
      exact h ⟨s, rfl, hne⟩
    subst hs
    rfl
  | quantity q => rfl
  | list items => rfl
  | object fields => rfl

/-- `r.check` complains about the intervals if the fundamental is good and they are not. -/
theorem check_of_not_hasIntervals {r : Record} (hfundamental : HasFundamental r.fundamental)
    (h : ¬HasIntervals r.intervals) :
    r.check = .error (.diagnosed Cause.recordWithoutIntervals.diagnostic) := by
  obtain ⟨fundamental, intervals, duration⟩ := r
  obtain ⟨s, rfl, hne⟩ := hfundamental
  have hs : s.isEmpty = false := by simpa using hne
  rw [check]
  dsimp only
  rw [hs]
  cases intervals with
  | list items =>
    have hitems : items = [] := by
      by_contra hne
      exact h ⟨items, rfl, hne⟩
    subst hitems
    rfl
  | quantity q => rfl
  | text t => rfl
  | object fields => rfl

/-- `r.check = checkDuration r.duration` if fundamental and intervals are good. -/
theorem check_of_good {r : Record} (hfundamental : HasFundamental r.fundamental)
    (hintervals : HasIntervals r.intervals) : r.check = checkDuration r.duration := by
  obtain ⟨fundamental, intervals, duration⟩ := r
  obtain ⟨s, rfl, hs⟩ := hfundamental
  obtain ⟨items, rfl, hitems⟩ := hintervals
  exact check_eq_checkDuration (by simpa using hs) (List.isEmpty_eq_false_iff.2 hitems) duration

/-- `r.check = .error .overflow` for a record that is out of range. -/
theorem check_of_outOfRange {r : Record} (h : r.OutOfRange) : r.check = .error .overflow := by
  obtain ⟨hfundamental, hintervals, n, hn, hbeyond⟩ := h
  rw [check_of_good hfundamental hintervals, hn]
  show checkDuration.accept (.int n) = _
  rw [checkDuration.accept, Number.isFinite, Number.toFloat_int_eq_error hbeyond]
  rfl

/-- `Decision r` has no case for `.error .overflow`: no record should end in this failure. -/
theorem not_decision_overflow {r : Record} : ¬Decision r (.error .overflow) := nofun

/-- **`Decision r r.check` holds exactly if `r` is not `OutOfRange`.** -/
theorem decision_iff_not_outOfRange {r : Record} : Decision r r.check ↔ ¬r.OutOfRange := by
  constructor
  · intro h hrange
    rw [check_of_outOfRange hrange] at h
    exact not_decision_overflow h
  · intro hrange
    by_cases hfundamental : HasFundamental r.fundamental
    · by_cases hintervals : HasIntervals r.intervals
      · rw [check_of_good hfundamental hintervals]
        rcases checkDuration_cases r.duration with ⟨n, hn, hbeyond, -⟩ | ⟨a, ha, hgood, h⟩ | ⟨hbad, h⟩
        · exact absurd ⟨hfundamental, hintervals, n, hn, hbeyond⟩ hrange
        · rw [h]
          exact .accepted hfundamental hintervals ha hgood
        · rw [h]
          exact .durationInvalid hfundamental hintervals hbad
      · rw [check_of_not_hasIntervals hfundamental hintervals]
        exact .withoutIntervals hfundamental hintervals
    · rw [check_of_not_hasFundamental hfundamental]
      exact .withoutFundamental hfundamental

/-- **`r.settle = .ok r` for an accepted record**, since its intervals are a list already. -/
theorem settle_of_check {r : Record} {a : Number} (h : r.check = .ok a) :
    r.settle = .ok r := by
  by_cases hfundamental : HasFundamental r.fundamental
  · by_cases hintervals : HasIntervals r.intervals
    · obtain ⟨items, hitems, -⟩ := hintervals
      rw [settle, hitems, settleIntervals, ok_bind, ← hitems]
      rfl
    · rw [check_of_not_hasIntervals hfundamental hintervals] at h
      exact absurd h (by simp)
  · rw [check_of_not_hasFundamental hfundamental] at h
    exact absurd h (by simp)

end Record

/-! ## Chords of lines -/

/-- A chord that was read from a line: its fundamental is what stands before the first colon,
`c.intervals ≠ []`, and `c.duration` is a finite positive double. -/
structure Chord.Read (line : List Char) (c : Chord) : Prop where
  /-- The fundamental stands before the first colon, without the blanks around it. -/
  fundamental : ∃ head tail, line = head ++ ':' :: tail ∧ ':' ∉ head ∧
    c.fundamental = String.ofList (trim head)
  /-- There is an interval. -/
  intervals : c.intervals ≠ []
  /-- The duration is finite and positive. -/
  duration : ∃ x : Float, c.duration = .float x ∧ x.isFinite = true ∧ 0.0 < x

/-- `readParts` gives a finite positive duration if the one that it starts from is finite and
positive. -/
theorem duration_of_readParts {parts : List (List Char)} {x y : Float} {intervals : List String}
    (hx : x.isFinite = true ∧ 0.0 < x) (h : readParts parts x = .ok (intervals, y)) :
    y.isFinite = true ∧ 0.0 < y := by
  induction parts generalizing x intervals with
  | nil =>
    obtain ⟨-, rfl⟩ := Prod.mk.inj (Except.ok.inj h)
    exact hx
  | cons part parts ih =>
    rw [readParts] at h
    split at h
    · obtain ⟨z, hz, h⟩ := bind_eq_ok_iff.1 h
      obtain ⟨value, -, hvalue⟩ := readDuration_eq_ok_iff.1 hz
      exact ih ⟨hvalue.finite, hvalue.positive⟩ h
    · split at h
      · exact ih hx h
      · obtain ⟨⟨rest, z⟩, hrest, h⟩ := bind_eq_ok_iff.1 h
        obtain ⟨-, rfl⟩ := Prod.mk.inj (Except.ok.inj h)
        exact ih hx hrest

/-- `c.Read line` for the chord of a line without blanks around it. -/
theorem Chord.read_of_readChord {line : List Char} {c : Chord} (h : readChord line = .ok c) :
    c.Read line := by
  obtain ⟨head, tail, intervals, duration, hcut, hparts, hne, rfl⟩ := exists_of_readChord h
  obtain ⟨hline, hhead⟩ := eq_of_cut? hcut
  have hdefault : defaultDuration.isFinite = true ∧ 0.0 < defaultDuration := by decide
  exact ⟨⟨head, tail, hline, hhead, rfl⟩, hne, duration, rfl, duration_of_readParts hdefault hparts⟩

/-- **`c.Read line` for the chord of any line.** Blanks in front of the line are blanks in front of
the fundamental. -/
theorem Chord.read_of_readLine {line : String} {c : Chord} (h : readLine line = .ok (some c)) :
    c.Read line.toList := by
  obtain ⟨⟨head, tail, hline, hhead, hfundamental⟩, hintervals, hduration⟩ :=
    read_of_readChord (readChord_of_readLineChars h)
  obtain ⟨before, after, hbefore, -, hsplit⟩ := exists_trim_eq line.toList
  refine ⟨⟨before ++ head, tail ++ after, ?_, ?_, ?_⟩, hintervals, hduration⟩
  · rw [hsplit, hline]
    simp
  · rw [List.mem_append]
    refine not_or.2 ⟨fun hmem => ?_, hhead⟩
    exact absurd (hbefore _ hmem) (by decide)
  · rw [hfundamental, trim_blanks_append hbefore]

namespace Record

/-- A chord `c` as a record, with its intervals as texts. -/
def ofChord (c : Chord) : Record :=
  ⟨.text c.fundamental, .list (c.intervals.map .text), .quantity c.duration⟩

/-- **The check of the chord of a line** is `.ok c.duration`, unless there are only blanks before
the first colon: then it complains about the fundamental. -/
theorem check_ofChord {line : List Char} {c : Chord} (h : c.Read line) :
    ∃ head tail, line = head ++ ':' :: tail ∧ ':' ∉ head ∧
      ((IsBlanks head ∧ (ofChord c).check =
          .error (.diagnosed Cause.recordWithoutFundamental.diagnostic)) ∨
        (¬IsBlanks head ∧ ∃ a : Number, (ofChord c).check = .ok a ∧ c.duration = a.quantity)) := by
  obtain ⟨head, tail, hline, hhead, hfundamental⟩ := h.fundamental
  refine ⟨head, tail, hline, hhead, ?_⟩
  have hempty : c.fundamental = "" ↔ IsBlanks head := by
    rw [hfundamental, ← trim_eq_nil_iff]
    simp
  by_cases hblanks : IsBlanks head
  · refine .inl ⟨hblanks, check_of_not_hasFundamental ?_⟩
    rintro ⟨s, hs, hne⟩
    exact hne (Value.text.inj hs ▸ hempty.2 hblanks)
  · obtain ⟨x, hx, hfinite, hpos⟩ := h.duration
    have hintervals : c.intervals.map Value.text ≠ [] := by simpa using h.intervals
    refine .inr ⟨hblanks, .float x, ?_, hx⟩
    rw [check_of_good ⟨_, rfl, mt hempty.1 hblanks⟩ ⟨_, rfl, hintervals⟩, ofChord, hx]
    exact checkDuration_float hfinite hpos

/-! ## All records -/

/-- **What becomes of chord records.** `r.check` decides as `Decision r` says, exactly unless
`r.OutOfRange`: a record is accepted if its fundamental is a text that is not empty, its intervals
are a list that is not empty, and its duration is an integer or a double that is finite and
positive, and otherwise the first of these that fails is reported. A record that is out of range
fails with `.overflow`. If `r.check = .ok a`, then `r.settle` is accepted with `a` again. The chord
of a line is accepted unless there are only blanks before its first colon. -/
theorem decides (r : Record) (line : String) :
    (Decision r r.check ↔ ¬r.OutOfRange) ∧
    (r.OutOfRange ↔ r.check = .error .overflow) ∧
    (∀ a : Number, r.check = .ok a → ∃ s, r.settle = .ok s ∧ s.check = .ok a) ∧
    ∀ c : Chord, readLine line = .ok (some c) →
      ∃ head tail, line.toList = head ++ ':' :: tail ∧ ':' ∉ head ∧
        ((IsBlanks head ∧ (ofChord c).check =
            .error (.diagnosed Cause.recordWithoutFundamental.diagnostic)) ∨
          (¬IsBlanks head ∧
            ∃ a : Number, (ofChord c).check = .ok a ∧ c.duration = a.quantity)) := by
  refine ⟨decision_iff_not_outOfRange, ⟨check_of_outOfRange, fun h => ?_⟩,
    fun a h => ⟨r, settle_of_check h, h⟩, fun c h => check_ofChord (Chord.read_of_readLine h)⟩
  by_contra hrange
  have hdecision := decision_iff_not_outOfRange.2 hrange
  rw [h] at hdecision
  exact not_decision_overflow hdecision

/-- A record with a truth value as its duration, a record with an integer, and a line with nothing
before its colon. -/
theorem decides_unison :
    Decision ⟨.text "C4", .list [.text "1"], .quantity (.truth true)⟩
        (.error (.diagnosed Cause.recordDurationInvalid.diagnostic)) ∧
      (∃ s, settle ⟨.text "C4", .list [.text "1"], .quantity (.int 2)⟩ = .ok s ∧
        s.check = .ok (.int 2)) ∧
      (ofChord ⟨"", ["1"], .float 2.0⟩).check =
        .error (.diagnosed Cause.recordWithoutFundamental.diagnostic) := by
  refine ⟨(decides ⟨.text "C4", .list [.text "1"], .quantity (.truth true)⟩ "").1.2 ?_,
    (decides ⟨.text "C4", .list [.text "1"], .quantity (.int 2)⟩ "").2.2.1 (.int 2) rfl, ?_⟩
  · rintro ⟨-, -, n, hn, -⟩
    exact absurd hn (by simp)
  · have hread : readLine " : 1, duration = 2" = .ok (some ⟨"", ["1"], .float 2.0⟩) := rfl
    obtain ⟨head, tail, hline, hhead, ⟨-, h⟩ | ⟨hnot, -⟩⟩ :=
      (decides ⟨.null, .null, .null⟩ " : 1, duration = 2").2.2.2 _ hread
    · exact h
    · refine absurd (fun c hc => ?_) hnot
      have hcut : cut? ':' (" : 1, duration = 2".toList) = some (head, tail) := by
        rw [hline]
        exact cut?_append hhead tail
      obtain rfl : [' '] = head := (Prod.mk.inj (Option.some.inj hcut)).1
      rw [List.mem_singleton.1 hc]
      decide

/-- **A great integer is not accepted as a duration**: `10 ^ 400` is finite and positive, but the
check fails with `.overflow`. -/
theorem not_decides_greatInteger :
    HasDuration (.quantity (.int (10 ^ 400))) ∧
      check ⟨.text "C4", .list [.text "1"], .quantity (.int (10 ^ 400))⟩ = .error .overflow ∧
      ¬Decision ⟨.text "C4", .list [.text "1"], .quantity (.int (10 ^ 400))⟩
        (check ⟨.text "C4", .list [.text "1"], .quantity (.int (10 ^ 400))⟩) := by
  have hrange : OutOfRange ⟨.text "C4", .list [.text "1"], .quantity (.int (10 ^ 400))⟩ :=
    ⟨⟨"C4", rfl, by decide⟩, ⟨[.text "1"], rfl, by simp⟩, 10 ^ 400, rfl,
      overflowBound_le_tenPow⟩
  refine ⟨⟨.int (10 ^ 400), rfl, _, rfl, by positivity⟩, check_of_outOfRange hrange, ?_⟩
  rw [decision_iff_not_outOfRange, not_not]
  exact hrange

end Record

end Monochord
