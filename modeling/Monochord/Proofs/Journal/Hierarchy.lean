import Mathlib.Data.List.Perm.Subperm
import Monochord.Journal

/-! # The hierarchy of loggers

Dots divide the name of a logger, and what stands before one of them names a logger above. The journal
looks for these names from the last dot on, and goes on without the character that it finds there.
This passes over a name only where two dots follow each other.

* **`Journal.dottedAbove`** — the names that stand before the dots of a name.
* **`Journal.namesAbove_sublist`** — the journal finds no other names above it;
  **`Journal.namesAbove_eq_of_append`**: if it finds all of them, it also does so above each of them.
* **`Journal.Hierarchical`** — a logger above which it finds all;
  **`Journal.hierarchical_of_no_two_dots`**: the name of such a logger.
* **`Journal.IsQuiet`** — the quiet loggers and those below them. -/

namespace Monochord

namespace Journal

/-! ## Names before dots -/

/-- What stands before each dot of a name, nearest first; all names are given backwards. -/
def dottedAbove : List Char → List (List Char)
  | [] => []
  | c :: cs => if c = '.' ∧ cs ≠ [] then cs :: dottedAbove cs else dottedAbove cs

theorem mem_dottedAbove_iff {name p : List Char} :
    p ∈ dottedAbove name ↔ p ≠ [] ∧ '.' :: p <:+ name := by
  induction name with
  | nil => simp [dottedAbove]
  | cons c cs ih =>
    rw [dottedAbove, List.suffix_cons_iff, List.cons.injEq]
    split
    · next h =>
      rw [List.mem_cons, ih]
      constructor
      · rintro (rfl | ⟨hp, hsuffix⟩)
        · exact ⟨h.2, .inl ⟨h.1.symm, rfl⟩⟩
        · exact ⟨hp, .inr hsuffix⟩
      · rintro ⟨hp, ⟨-, rfl⟩ | hsuffix⟩
        · exact .inl rfl
        · exact .inr ⟨hp, hsuffix⟩
    · next h =>
      rw [ih]
      refine and_congr_right fun hp => (or_iff_right ?_).symm
      rintro ⟨rfl, rfl⟩
      exact h ⟨rfl, hp⟩

theorem length_lt_of_mem_dottedAbove {name p : List Char} (h : p ∈ dottedAbove name) :
    p.length < name.length :=
  (mem_dottedAbove_iff.1 h).2.length_le

theorem nodup_dottedAbove (name : List Char) : (dottedAbove name).Nodup := by
  induction name with
  | nil => exact List.nodup_nil
  | cons c cs ih =>
    rw [dottedAbove]
    split
    · exact List.nodup_cons.2 ⟨fun h => Nat.lt_irrefl _ (length_lt_of_mem_dottedAbove h), ih⟩
    · exact ih

/-- `dottedAbove p = back` for a name `p` that `dottedAbove name` lists right before `back`. -/
theorem dottedAbove_of_append {name p : List Char} {front back : List (List Char)}
    (h : dottedAbove name = front ++ p :: back) : dottedAbove p = back := by
  induction name generalizing front with
  | nil => simp [dottedAbove] at h
  | cons c cs ih =>
    rw [dottedAbove] at h
    split at h
    · cases front with
      | nil => obtain ⟨rfl, rfl⟩ := List.cons.inj h; rfl
      | cons q front => exact ih (List.cons.inj h).2
    · exact ih h

/-- `beforeLastDot name` comes first in `dottedAbove name`, and then what is above it. -/
theorem dottedAbove_of_beforeLastDot {name cs : List Char} {c : Char}
    (h : beforeLastDot name = c :: cs) :
    dottedAbove name = (c :: cs) :: dottedAbove (c :: cs) := by
  fun_induction beforeLastDot name with
  | case1 => exact absurd h (by simp)
  | case2 ds => rw [dottedAbove, if_pos ⟨rfl, by simp [h]⟩, h]
  | case3 d ds hd ih => rw [dottedAbove, if_neg fun hdot => hd hdot.1, ih h]

/-- `dottedAbove name = []` if `beforeLastDot name = []`. -/
theorem dottedAbove_of_beforeLastDot_eq_nil {name : List Char} (h : beforeLastDot name = []) :
    dottedAbove name = [] := by
  fun_induction beforeLastDot name with
  | case1 => rfl
  | case2 ds => rw [h]; rfl
  | case3 d ds hd ih => rw [dottedAbove, if_neg fun hdot => hd hdot.1, ih h]

/-! ## The names that the journal finds -/

theorem namesAbove_of_beforeLastDot_eq_nil {name : List Char} (h : beforeLastDot name = []) :
    namesAbove name = [] := by
  rw [namesAbove]
  split
  · rfl
  · next hcons => exact absurd (h.symm.trans hcons) (by simp)

theorem namesAbove_of_beforeLastDot {name cs : List Char} {c : Char}
    (h : beforeLastDot name = c :: cs) : namesAbove name = (c :: cs) :: namesAbove cs := by
  rw [namesAbove]
  split
  · next hnil => exact absurd (h.symm.trans hnil) (by simp)
  · next hcons =>
    obtain ⟨rfl, rfl⟩ := List.cons.inj (h.symm.trans hcons)
    rfl

/-- `namesAbove (c :: cs) = namesAbove cs` unless `c` is a dot. -/
theorem namesAbove_cons {c : Char} (hc : c ≠ '.') (cs : List Char) :
    namesAbove (c :: cs) = namesAbove cs := by
  have hlast : beforeLastDot (c :: cs) = beforeLastDot cs := by
    rw [beforeLastDot]
    exact fun h => hc h
  cases h : beforeLastDot cs with
  | nil =>
    rw [namesAbove_of_beforeLastDot_eq_nil h, namesAbove_of_beforeLastDot_eq_nil (hlast.trans h)]
  | cons d ds => rw [namesAbove_of_beforeLastDot h, namesAbove_of_beforeLastDot (hlast.trans h)]

/-- `namesAbove name` is a sublist of `dottedAbove name`. -/
theorem namesAbove_sublist (name : List Char) : (namesAbove name).Sublist (dottedAbove name) := by
  fun_induction namesAbove name with
  | case1 name h => exact List.nil_sublist _
  | case2 name c cs h _ ih =>
    rw [dottedAbove_of_beforeLastDot h, dottedAbove]
    refine List.Sublist.cons_cons _ ?_
    split
    · exact ih.cons _
    · exact ih

/-- `namesAbove name = dottedAbove name` if every name of the second is among the first. -/
theorem namesAbove_eq_dottedAbove {name : List Char}
    (h : ∀ p ∈ dottedAbove name, p ∈ namesAbove name) : namesAbove name = dottedAbove name :=
  (namesAbove_sublist name).eq_of_length_le ((nodup_dottedAbove name).subperm h).length_le

/-- `namesAbove cs = back` for a name `c :: cs` that `namesAbove name` lists right before `back`. -/
theorem namesAbove_of_append {name cs : List Char} {c : Char} {front back : List (List Char)}
    (h : namesAbove name = front ++ (c :: cs) :: back) : namesAbove cs = back := by
  fun_induction namesAbove name generalizing front with
  | case1 => simp at h
  | case2 name d ds hd _ ih =>
    cases front with
    | nil =>
      obtain ⟨hhead, rfl⟩ := List.cons.inj h
      rw [(List.cons.inj hhead).2]
    | cons q front => exact ih (List.cons.inj h).2

/-- **If `namesAbove name = dottedAbove name`, the same holds of every name above it.** -/
theorem namesAbove_eq_of_append {name p : List Char} {front back : List (List Char)}
    (hname : namesAbove name = dottedAbove name) (h : dottedAbove name = front ++ p :: back) :
    namesAbove p = dottedAbove p := by
  have hback := dottedAbove_of_append h
  have hmem : p ∈ dottedAbove name := by simp [h]
  obtain ⟨c, cs, rfl⟩ := List.exists_cons_of_ne_nil (mem_dottedAbove_iff.1 hmem).1
  have hcs : namesAbove cs = dottedAbove (c :: cs) :=
    (namesAbove_of_append (hname.trans h)).trans hback.symm
  by_cases hc : c = '.'
  · -- the name before such a dot would have to be found above itself
    have hnil : cs = [] := by
      by_contra hne
      have hself : cs ∈ namesAbove cs := by
        rw [hcs, dottedAbove, if_pos ⟨hc, hne⟩]
        exact List.mem_cons_self
      exact Nat.lt_irrefl _ (length_lt_of_mem_namesAbove hself)
    subst hc hnil
    exact namesAbove_of_beforeLastDot_eq_nil rfl
  · rw [namesAbove_cons hc, hcs]

/-- `namesAbove name = dottedAbove name` if no two dots follow each other in `name`. -/
theorem namesAbove_eq_of_no_two_dots {name : List Char} (h : ¬['.', '.'] <:+: name) :
    namesAbove name = dottedAbove name := by
  fun_induction namesAbove name with
  | case1 name hnil => exact (dottedAbove_of_beforeLastDot_eq_nil hnil).symm
  | case2 name c cs hcons _ ih =>
    have hsuffix : '.' :: c :: cs <:+ name :=
      (mem_dottedAbove_iff.1 (by simp [dottedAbove_of_beforeLastDot hcons])).2
    have hc : c ≠ '.' := by
      rintro rfl
      exact h (((List.prefix_append ['.', '.'] cs).isInfix).trans hsuffix.isInfix)
    have hcs : cs <:+: name :=
      ((List.suffix_cons c cs).trans (List.suffix_cons '.' (c :: cs))).isInfix.trans hsuffix.isInfix
    rw [dottedAbove_of_beforeLastDot hcons, dottedAbove, if_neg fun hdot => hc hdot.1,
      ih fun hdots => h (hdots.trans hcs)]

/-! ## Loggers -/

/-- `IsBelow logger other`: the name `logger` begins with `other` and a dot. -/
def IsBelow (logger other : String) : Prop := other.toList ++ ['.'] <+: logger.toList

instance (logger other : String) : Decidable (IsBelow logger other) :=
  inferInstanceAs (Decidable (other.toList ++ ['.'] <+: logger.toList))

/-- **Loggers form a hierarchy by their names**: `namesAbove` lists every `other` with
`IsBelow logger other`. Hierarchies of loggers are documented in this way, and
`hierarchical_of_no_two_dots` gives it for names in which no two dots follow each other. -/
def Hierarchical (logger : String) : Prop :=
  ∀ other, other ≠ "" → IsBelow logger other →
    other.toList.reverse ∈ namesAbove logger.toList.reverse

/-- `IsQuiet logger`: one of `quietLoggers`, or `IsBelow` one of them. -/
def IsQuiet (logger : String) : Prop := ∃ q ∈ quietLoggers, logger = q ∨ IsBelow logger q

theorem mem_dottedAbove_reverse_iff {logger other : String} :
    other.toList.reverse ∈ dottedAbove logger.toList.reverse ↔
      other ≠ "" ∧ IsBelow logger other := by
  have hreverse : '.' :: other.toList.reverse = (other.toList ++ ['.']).reverse := by simp
  rw [mem_dottedAbove_iff, IsBelow, hreverse, List.reverse_suffix]
  simp

theorem hierarchical_iff {logger : String} :
    Hierarchical logger ↔
      namesAbove logger.toList.reverse = dottedAbove logger.toList.reverse := by
  constructor
  · intro h
    refine namesAbove_eq_dottedAbove fun p hp => ?_
    obtain ⟨other, rfl⟩ : ∃ other : String, p = other.toList.reverse :=
      ⟨String.ofList p.reverse, by simp⟩
    obtain ⟨hother, hbelow⟩ := mem_dottedAbove_reverse_iff.1 hp
    exact h other hother hbelow
  · intro h other hother hbelow
    rw [h]
    exact mem_dottedAbove_reverse_iff.2 ⟨hother, hbelow⟩

/-- **`Hierarchical logger`** if no two dots follow each other in the name. -/
theorem hierarchical_of_no_two_dots {logger : String} (h : ¬['.', '.'] <:+: logger.toList) :
    Hierarchical logger := by
  refine hierarchical_iff.2 (namesAbove_eq_of_no_two_dots fun hdots => h ?_)
  rwa [← List.reverse_infix]

/-- Other names need not: the journal passes over what stands before two dots. -/
example : namesAbove "httpx..client".toList.reverse = ["httpx.".toList.reverse] := by
  decide +kernel

end Journal

end Monochord
