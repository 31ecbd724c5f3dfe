import Mathlib.Algebra.Ring.Parity
import Mathlib.Data.List.Induction
import Mathlib.Data.List.Nodup
import Monochord.Keyboard

/-! # Which keys are selected

A selection remembers no presses, only a fundamental and a list of keys. What it holds after any
number of presses can still be read off these presses: the first one gives the fundamental, and
every other key is selected if it was pressed an odd number of times.

* **`Selection.Action`**, **`Selection.after`** — presses and fresh starts, and the selection that
  they lead to.
* **`Selection.pressed`** — the keys pressed since the last fresh start.
* **`Selection.LastBefore`** — one key was pressed for the last time before another one was.
* **`Selection.Follows`** — a selection agrees with the keys pressed; **`Selection.Follows.press`**:
  one more press keeps it so.
* **`Selection.follows_after`** — the selection after any actions agrees with the keys pressed. -/

namespace Monochord

namespace Selection

/-! ## Actions -/

/-- What can be done with a selection. -/
inductive Action
  /-- A key is pressed. -/
  | press (key : String)
  /-- The selection starts over. -/
  | clear
deriving Repr, DecidableEq

/-- The selection after one action. -/
def act (s : Selection) : Action → Selection
  | .press key => s.press key
  | .clear => s.clear

/-- The selection after some actions, from the empty one on. -/
def after (as : List Action) : Selection := as.foldl act {}

@[simp] theorem after_nil : after [] = {} := rfl

@[simp] theorem after_append_singleton (as : List Action) (a : Action) :
    after (as ++ [a]) = (after as).act a := by
  simp [after]

/-- The keys pressed since the selection last started over, in the order of their presses. -/
def pressed : List Action → List String
  | [] => []
  | .press key :: as => if .clear ∈ as then pressed as else key :: pressed as
  | .clear :: as => pressed as

@[simp] theorem pressed_nil : pressed [] = [] := rfl

/-- `pressed (as ++ [.press key]) = pressed as ++ [key]`. -/
@[simp] theorem pressed_append_press (as : List Action) (key : String) :
    pressed (as ++ [.press key]) = pressed as ++ [key] := by
  induction as with
  | nil => rfl
  | cons a as ih =>
    cases a with
    | press k =>
      rw [List.cons_append, pressed, pressed, ih]
      by_cases hclear : Action.clear ∈ as
      · rw [if_pos hclear, if_pos (List.mem_append_left _ hclear)]
      · rw [if_neg hclear, if_neg (by simp [hclear]), List.cons_append]
    | clear => exact ih

/-- `pressed (as ++ [.clear]) = []`. -/
@[simp] theorem pressed_append_clear (as : List Action) : pressed (as ++ [.clear]) = [] := by
  induction as with
  | nil => rfl
  | cons a as ih =>
    cases a with
    | press k =>
      rw [List.cons_append, pressed, if_pos (List.mem_append_right _ List.mem_cons_self)]
      exact ih
    | clear => exact ih

/-! ## Last presses -/

/-- After the last press of `a`, the key `b` was pressed again. -/
def LastBefore (keys : List String) (a b : String) : Prop :=
  ∃ front back, keys = front ++ a :: back ∧ a ∉ back ∧ b ∈ back

/-- A press of a key other than `a` keeps `LastBefore keys a b`. -/
theorem LastBefore.append {keys : List String} {a b key : String} (h : LastBefore keys a b)
    (hne : a ≠ key) : LastBefore (keys ++ [key]) a b := by
  obtain ⟨front, back, rfl, ha, hb⟩ := h
  refine ⟨front, back ++ [key], by simp, ?_, List.mem_append_left _ hb⟩
  rw [List.mem_append, List.mem_singleton]
  exact not_or.2 ⟨ha, hne⟩

/-- `LastBefore (keys ++ [key]) a key`: the key that is pressed now was pressed later than any other
one. -/
theorem lastBefore_append_singleton {keys : List String} {a key : String} (ha : a ∈ keys)
    (hne : a ≠ key) : LastBefore (keys ++ [key]) a key := by
  obtain ⟨back, front, hsplit, hback⟩ := List.eq_append_cons_of_mem (List.mem_reverse.2 ha)
  refine ⟨front.reverse, back.reverse ++ [key], ?_, ?_, List.mem_append_right _ List.mem_cons_self⟩
  · rw [← List.reverse_reverse keys, hsplit]
    simp
  · rw [List.mem_append, List.mem_reverse, List.mem_singleton]
    exact not_or.2 ⟨hback, hne⟩

/-! ## What a selection holds -/

/-- **The selection `s` agrees with the keys pressed.** All presses but the first one count. -/
structure Follows (s : Selection) (keys : List String) : Prop where
  /-- The fundamental is the first key, and there is none as long as no key was pressed. -/
  fundamental : s.fundamental = keys.head?
  /-- No key is selected twice. -/
  nodup : s.notes.Nodup
  /-- The selected keys are those pressed an odd number of times. -/
  mem_iff : ∀ key, key ∈ s.notes ↔ Odd (keys.tail.count key)
  /-- They stand in the order of their last presses. -/
  order : s.notes.Pairwise (LastBefore keys.tail)

/-- `Follows {} []`. -/
theorem follows_nil : Follows {} [] :=
  ⟨rfl, List.nodup_nil, fun key => by simp, List.Pairwise.nil⟩

/-- A selected key is one of `keys.tail`. -/
theorem Follows.mem_tail {s : Selection} {keys : List String} {key : String}
    (h : s.Follows keys) (hkey : key ∈ s.notes) : key ∈ keys.tail := by
  have hodd := Nat.odd_iff.1 ((h.mem_iff key).1 hkey)
  exact List.count_pos_iff.1 (by omega)

/-- One more press changes the parity of `count k` for its own key only. -/
theorem odd_count_append_singleton {keys : List String} {key k : String} :
    Odd ((keys ++ [key]).count k) ↔ if k = key then ¬Odd (keys.count k) else Odd (keys.count k) := by
  rw [List.count_append, List.count_singleton]
  by_cases h : k = key
  · rw [if_pos h, if_pos (beq_iff_eq.2 h.symm), Nat.odd_add_one]
  · rw [if_neg h, if_neg (mt beq_iff_eq.1 (Ne.symm h)), Nat.add_zero]

/-- `Follows` is kept when a selected key is pressed, which leaves the selection. -/
theorem Follows.remove {f key : String} {notes keys : List String}
    (h : Follows ⟨some f, notes⟩ (f :: keys)) (hkey : key ∈ notes) :
    Follows ⟨some f, notes.filter (· ≠ key)⟩ (f :: (keys ++ [key])) := by
  have hne : ∀ a, a ∈ notes.filter (· ≠ key) ↔ a ∈ notes ∧ a ≠ key := by simp
  refine ⟨rfl, h.nodup.filter _, fun k => ?_, ?_⟩
  · rw [hne, List.tail_cons, odd_count_append_singleton, h.mem_iff]
    split
    · next heq =>
      -- the key was selected, and now it is not
      have hcount : key ∈ notes ↔ Odd (keys.count key) := h.mem_iff key
      rw [heq, ← hcount]
      exact iff_of_false (fun hk => hk.2 rfl) (not_not.2 hkey)
    · next hk => exact and_iff_left hk
  · refine (h.order.filter _).imp_of_mem fun ha hb hlast => hlast.append ?_
    exact ((hne _).1 ha).2

/-- `Follows` is kept when another key is pressed, which joins the selection. -/
theorem Follows.insert {f key : String} {notes keys : List String}
    (h : Follows ⟨some f, notes⟩ (f :: keys)) (hkey : key ∉ notes) :
    Follows ⟨some f, notes ++ [key]⟩ (f :: (keys ++ [key])) := by
  have hne : ∀ a ∈ notes, a ≠ key := fun a ha => ne_of_mem_of_not_mem ha hkey
  refine ⟨rfl, ?_, fun k => ?_, ?_⟩
  · rw [List.nodup_append]
    refine ⟨h.nodup, List.nodup_singleton key, fun a ha b hb => ?_⟩
    rw [List.mem_singleton.1 hb]
    exact hne a ha
  · rw [List.mem_append, List.mem_singleton, List.tail_cons, odd_count_append_singleton, h.mem_iff]
    split
    · next heq =>
      have hcount : key ∈ notes ↔ Odd (keys.count key) := h.mem_iff key
      rw [heq, ← hcount]
      exact iff_of_true (.inr rfl) hkey
    · next hk => exact or_iff_left hk
  · rw [List.pairwise_append]
    refine ⟨h.order.imp_of_mem fun ha _ hlast => hlast.append (hne _ ha),
      List.pairwise_singleton _ _, fun a ha b hb => ?_⟩
    rw [List.mem_singleton.1 hb]
    exact lastBefore_append_singleton (h.mem_tail ha) (hne a ha)

/-- **`(s.press key).Follows (keys ++ [key])` if `s.Follows keys`.** -/
theorem Follows.press {s : Selection} {keys : List String} (h : s.Follows keys) (key : String) :
    (s.press key).Follows (keys ++ [key]) := by
  obtain ⟨fundamental, notes⟩ := s
  cases keys with
  | nil =>
    -- the first press, which is not counted
    obtain rfl : fundamental = none := h.fundamental
    exact ⟨rfl, List.nodup_nil, fun k => by simp [Selection.press], List.Pairwise.nil⟩
  | cons f keys =>
    obtain rfl : fundamental = some f := h.fundamental
    rw [Selection.press]
    dsimp only
    split
    · next hkey => exact h.remove hkey
    · next hkey => exact h.insert hkey

/-- **`(after as).Follows (pressed as)`**: after any actions the selection agrees with the keys
pressed since it last started over. The fundamental is the first of these keys, and none if there
are none. Those keys are selected which were pressed an odd number of times after that first press,
each of them once, and in the order of their last presses. -/
theorem follows_after (as : List Action) : (after as).Follows (pressed as) := by
  induction as using List.reverseRecOn with
  | nil => exact follows_nil
  | append_singleton as a ih =>
    rw [after_append_singleton]
    cases a with
    | press key =>
      rw [pressed_append_press]
      exact ih.press key
    | clear =>
      rw [pressed_append_clear]
      exact follows_nil

example : after [.press "C4", .press "E4", .press "G4", .press "E4", .press "E4"] =
    ⟨some "C4", ["G4", "E4"]⟩ := by
  decide

end Selection

end Monochord
