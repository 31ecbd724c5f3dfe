import Monochord.Proofs.Binary64.Unsigned
import Monochord.Proofs.Keyboard
import Monochord.Proofs.Resolution
import Monochord.Proofs.Selection

/-! # Presses in another order

Two runs of presses that start with the same key select the same keys if every key is pressed equally
often in both, or at least equally often up to an even number. The keys may then stand in different
orders, and two names of one pitch may have changed places. But a chord only depends on the
frequencies of its keys in order, and these are the same.

* **`isUnsigned_of_noteFrequency`** — a frequency is a number without a minus sign, so that
  frequencies have only one order.
* **`Selection.Follows.perm`** — which keys are selected, whatever their order.
* **`Selection.intervals_eq_of_perm`** — the intervals do not depend on the order of the keys.
* **`Selection.chord_eq_of_parity`** — neither do the chord and its line on that of the presses. -/

namespace Monochord

open Binary64

/-! ## Frequencies -/

/-- **`IsUnsigned x` if `noteFrequency note = .ok x`**: the frequency of a note is a number without
a minus sign. -/
theorem isUnsigned_of_noteFrequency {note : String} {x : Float} (h : noteFrequency note = .ok x) :
    IsUnsigned x := by
  have hreference : referenceFrequency.isFinite = true ∧ IsUnsigned referenceFrequency :=
    ⟨by decide, by decide, by decide⟩
  rw [noteFrequency_eq] at h
  obtain ⟨n, -, h⟩ := bind_eq_ok_iff.1 h
  split at h
  · exact absurd h (by simp)
  · obtain ⟨r, hr, h⟩ := bind_eq_ok_iff.1 h
    obtain ⟨exponent, hexponent, -, hpower⟩ := exists_exponent hr
    obtain ⟨hfinite, -⟩ := semitonePower_nonneg hr
    rw [← Except.ok.inj h]
    exact hreference.2.mul (isUnsigned_of_exp2? hexponent hpower) hreference.1 hfinite

namespace Selection

/-! ## The selected keys -/

/-- `pressed (keys.map .press) = keys`. -/
@[simp] theorem pressed_map_press (keys : List String) : pressed (keys.map .press) = keys := by
  induction keys with
  | nil => rfl
  | cons key keys ih =>
    have hclear : Action.clear ∉ keys.map Action.press := by simp
    rw [List.map_cons, pressed, if_neg hclear, ih]

/-- **`s.notes.Perm t.notes`** if the keys that `s` and `t` follow were pressed equally often, up to
even numbers. -/
theorem Follows.perm {s t : Selection} {xs ys : List String} (hs : s.Follows xs) (ht : t.Follows ys)
    (h : ∀ key, xs.tail.count key % 2 = ys.tail.count key % 2) : s.notes.Perm t.notes := by
  rw [List.perm_ext_iff_of_nodup hs.nodup ht.nodup]
  intro key
  rw [hs.mem_iff, ht.mem_iff, Nat.odd_iff, Nat.odd_iff, h key]

/-- A selected key is in `keys`, which were pressed after the fundamental. -/
theorem mem_of_mem_notes {f key : String} {keys : List String}
    (h : key ∈ (after ((f :: keys).map .press)).notes) : key ∈ keys := by
  have hfollows := follows_after ((f :: keys).map .press)
  rw [pressed_map_press] at hfollows
  exact hfollows.mem_tail h

/-! ## The chord -/

/-- **`intervals f notes` does not depend on the order of the keys**, nor does its failure, as long
as all keys have frequencies. -/
theorem intervals_eq_of_perm {notes notes' : List String} (f : String) (h : notes.Perm notes')
    (hnotes : ∀ key ∈ notes, ∃ x, noteFrequency key = .ok x) :
    intervals f notes = intervals f notes' := by
  have hchosen : ∀ key, ∃ x, key ∈ notes → noteFrequency key = .ok x := by
    intro key
    by_cases hkey : key ∈ notes
    · obtain ⟨x, hx⟩ := hnotes key hkey
      exact ⟨x, fun _ => hx⟩
    · exact ⟨0.0, fun hmem => absurd hmem hkey⟩
  choose frequency hfrequency using hchosen
  have hleft : notes.mapM noteFrequency = .ok (notes.map frequency) :=
    mapM_eq_ok_map hfrequency
  have hright : notes'.mapM noteFrequency = .ok (notes'.map frequency) :=
    mapM_eq_ok_map fun key hkey => hfrequency key (h.mem_iff.2 hkey)
  have hunsigned : ∀ x ∈ notes.map frequency, IsUnsigned x := by
    intro x hx
    obtain ⟨key, hkey, rfl⟩ := List.mem_map.1 hx
    exact isUnsigned_of_noteFrequency (hfrequency key hkey)
  rw [intervals, intervals, hleft, hright]
  cases noteFrequency f with
  | error e => rfl
  | ok base =>
    -- what follows only sees the sorted frequencies
    rw [ok_bind, ok_bind, ok_bind, ok_bind, mergeSort_eq_of_perm (h.map frequency) hunsigned]

/-- `s.chord d = t.chord d` for selections of the same keys with the same fundamental. -/
theorem chord_eq_of_perm {s t : Selection} (hfundamental : s.fundamental = t.fundamental)
    (h : s.notes.Perm t.notes) (hnotes : ∀ key ∈ s.notes, ∃ x, noteFrequency key = .ok x)
    (d : Value) : s.chord d = t.chord d := by
  cases hf : s.fundamental with
  | none =>
    rw [chord, chord, ← hfundamental, hf]
  | some f =>
    by_cases hempty : s.notes = []
    · have hsame : t.notes = [] := (hempty ▸ h).nil_eq.symm
      rw [chord, chord, ← hfundamental, hempty, hsame]
    · have hother : t.notes ≠ [] := fun hnil => hempty (hnil ▸ h).eq_nil
      rw [chord_of_fundamental hf hempty, chord_of_fundamental (hfundamental ▸ hf) hother,
        intervals_eq_of_perm f h hnotes]

/-- **The chord does not depend on the order in which keys were pressed.** Let two runs of presses
start with the same key `f`, and let every key be pressed after that equally often in both, up to an
even number: `xs.count key % 2 = ys.count key % 2`. If all these keys name notes that have a
frequency, both selections have the same chord and the same line for any duration, or are refused
alike. -/
theorem chord_eq_of_parity {f : String} {xs ys : List String}
    (hparity : ∀ key, xs.count key % 2 = ys.count key % 2)
    (hnames : ∀ key ∈ xs ++ ys, ∃ x, noteFrequency key = .ok x) (d : Value) :
    (after ((f :: xs).map .press)).chord d = (after ((f :: ys).map .press)).chord d ∧
      (after ((f :: xs).map .press)).line d = (after ((f :: ys).map .press)).line d := by
  have hxs := follows_after ((f :: xs).map .press)
  have hys := follows_after ((f :: ys).map .press)
  rw [pressed_map_press] at hxs hys
  have hchord : (after ((f :: xs).map .press)).chord d = (after ((f :: ys).map .press)).chord d := by
    refine chord_eq_of_perm (hxs.fundamental.trans hys.fundamental.symm) (hxs.perm hys hparity) ?_ d
    intro key hkey
    exact hnames key (List.mem_append_left ys (mem_of_mem_notes hkey))
  refine ⟨hchord, ?_⟩
  rw [line, line, hchord]

/-- Two names of a third and a fifth, in another order and with a key that is pressed three times. -/
theorem chord_eq_of_parity_enharmonic :
    (after (["C4", "D#4", "Eb4", "G4"].map .press)).chord (.quantity (.float 1.5)) =
        (after (["C4", "G4", "Eb4", "G4", "D#4", "G4"].map .press)).chord
          (.quantity (.float 1.5)) ∧
      (after (["C4", "D#4", "Eb4", "G4"].map .press)).line (.quantity (.float 1.5)) =
        (after (["C4", "G4", "Eb4", "G4", "D#4", "G4"].map .press)).line
          (.quantity (.float 1.5)) := by
  refine chord_eq_of_parity ?_ ?_ _
  · intro key
    simp only [List.count_cons, List.count_nil]
    omega
  · have hok : ∀ key ∈ ["D#4", "Eb4", "G4", "G4", "Eb4", "G4", "D#4", "G4"],
        (noteFrequency key).isOk = true := by
      decide +kernel
    exact fun key hkey => exists_of_isOk (hok key hkey)

end Selection

end Monochord
