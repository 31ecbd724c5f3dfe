import Mathlib.Data.List.Forall2
import Mathlib.Data.List.TakeWhile
import Monochord.Text.Blank
import Monochord.Text.Split

/-! # Pieces of a text

Cutting a text and trimming its pieces, for texts that were put together from known pieces.

* **`splitOn_intercalate`**, **`splitOn_append_cons`** — pieces without the separator are found
  again, and a text is split at any of its separators; **`not_mem_of_mem_splitOn`**,
  **`not_mem_intercalate`**: no piece has the separator, and which characters joined pieces do not
  have.
* **`cut?_append`** — the first separator ends the first piece.
* **`trim_eq_self`**, **`trim_cons_of_isBlank`**, **`exists_trim_cons`** — a text whose ends are not
  blank is not trimmed, a blank in front does not matter, and any other character in front stays.
* **`trim_append_blanks`**, **`trim_blanks_append`** — blanks at either end do not matter, also to
  the pieces of a text (**`map_trim_splitOn_append_blanks`**).
* **`trim_append_cons`** — what is trimmed if a character inside is not blank; **`trim_eq_nil_iff`**:
  only blanks are trimmed to nothing. -/

namespace Monochord.Text

/-! ## Splitting -/

/-- `splitOn` is `List.splitOn`. -/
theorem splitOn_eq (sep : Char) (cs : List Char) : splitOn sep cs = cs.splitOn sep := by
  induction cs with
  | nil => rfl
  | cons c cs ih =>
    rw [splitOn, ih, List.splitOn_cons_eq_if_modifyHead]
    by_cases hc : c = sep
    · rw [if_pos hc, if_pos (beq_iff_eq.2 hc)]
    · rw [if_neg hc, if_neg (fun h => hc (beq_iff_eq.1 h))]
      obtain ⟨p, ps, hps⟩ := List.exists_cons_of_ne_nil (List.splitOn_ne_nil sep cs)
      rw [hps]
      rfl

/-- The pieces of `splitOn sep cs` consist of characters of `cs`. -/
theorem mem_of_mem_splitOn {sep c : Char} {cs piece : List Char} (hpiece : piece ∈ splitOn sep cs)
    (hc : c ∈ piece) : c ∈ cs := by
  induction cs generalizing piece with
  | nil =>
    rw [List.mem_singleton.1 hpiece] at hc
    exact hc
  | cons d cs ih =>
    rw [splitOn] at hpiece
    split at hpiece
    · rcases List.mem_cons.1 hpiece with rfl | hpiece
      · exact absurd hc List.not_mem_nil
      · exact List.mem_cons_of_mem _ (ih hpiece hc)
    · obtain ⟨p, ps, hps⟩ := List.exists_cons_of_ne_nil (splitOn_ne_nil sep cs)
      rw [hps, consFirst] at hpiece
      rw [hps] at ih
      rcases List.mem_cons.1 hpiece with rfl | hpiece
      · exact List.mem_cons.2 ((List.mem_cons.1 hc).imp_right (ih List.mem_cons_self))
      · exact List.mem_cons_of_mem _ (ih (List.mem_cons_of_mem _ hpiece) hc)

/-- No piece of `splitOn sep cs` has the separator. -/
theorem not_mem_of_mem_splitOn {sep : Char} {cs piece : List Char} (h : piece ∈ splitOn sep cs) :
    sep ∉ piece := by
  induction cs generalizing piece with
  | nil =>
    rw [List.mem_singleton.1 h]
    exact List.not_mem_nil
  | cons c cs ih =>
    rw [splitOn] at h
    split at h
    · rcases List.mem_cons.1 h with rfl | h
      · exact List.not_mem_nil
      · exact ih h
    · next hc =>
      obtain ⟨p, ps, hps⟩ := List.exists_cons_of_ne_nil (splitOn_ne_nil sep cs)
      rw [hps] at ih
      rw [hps, consFirst] at h
      rcases List.mem_cons.1 h with rfl | h
      · exact not_or.2 ⟨Ne.symm hc, ih List.mem_cons_self⟩ ∘ List.mem_cons.1
      · exact ih (List.mem_cons_of_mem _ h)

/-- **`splitOn sep ([sep].intercalate ps) = ps`**, if `ps ≠ []` and no piece contains the separator.
-/
theorem splitOn_intercalate {sep : Char} {ps : List (List Char)} (hne : ps ≠ [])
    (h : ∀ p ∈ ps, sep ∉ p) : splitOn sep ([sep].intercalate ps) = ps := by
  rw [splitOn_eq]
  exact List.splitOn_intercalate sep h hne

/-- **`splitOn sep (as ++ sep :: bs) = splitOn sep as ++ splitOn sep bs`**: a text is split at each
of its separators. -/
theorem splitOn_append_cons (sep : Char) (as bs : List Char) :
    splitOn sep (as ++ sep :: bs) = splitOn sep as ++ splitOn sep bs := by
  rw [splitOn_eq, splitOn_eq, splitOn_eq]
  exact List.splitOn_append_cons_self as bs

/-- `splitOn sep cs = [cs]` if `cs` has no separator. -/
theorem splitOn_of_not_mem {sep : Char} {cs : List Char} (h : sep ∉ cs) :
    splitOn sep cs = [cs] := by
  rw [splitOn_eq]
  exact List.splitOn_eq_singleton h

/-- A character in front of the first pieces of two texts keeps `List.Forall₂ R`, if it keeps `R`.
-/
theorem forall₂_consFirst {R : List Char → List Char → Prop} {c : Char}
    {ps qs : List (List Char)} (hR : ∀ p q, R p q → R (c :: p) (c :: q)) (hc : R [c] [c])
    (h : List.Forall₂ R ps qs) : List.Forall₂ R (consFirst c ps) (consFirst c qs) := by
  cases h with
  | nil => exact .cons hc .nil
  | cons hpq h => exact .cons (hR _ _ hpq) h

/-- A character other than `sep` that is in no piece is not in `[sep].intercalate ps`. -/
theorem not_mem_intercalate {sep c : Char} {ps : List (List Char)} (hc : c ≠ sep)
    (h : ∀ p ∈ ps, c ∉ p) : c ∉ [sep].intercalate ps := by
  induction ps with
  | nil => exact List.not_mem_nil
  | cons p ps ih =>
    have hp := h p List.mem_cons_self
    have hps := ih fun q hq => h q (List.mem_cons_of_mem p hq)
    by_cases hne : ps = []
    · rw [hne, List.intercalate_singleton]
      exact hp
    · rw [List.intercalate_cons_of_ne_nil hne, List.mem_append, List.mem_append,
        List.mem_singleton]
      exact not_or.2 ⟨not_or.2 ⟨hp, hc⟩, hps⟩

/-! ## Cutting -/

/-- `cut? sep (as ++ sep :: bs) = some (as, bs)` if `as` has no separator. -/
theorem cut?_append {sep : Char} {as : List Char} (h : sep ∉ as) (bs : List Char) :
    cut? sep (as ++ sep :: bs) = some (as, bs) := by
  induction as with
  | nil => rw [List.nil_append, cut?, if_pos rfl]
  | cons a as ih =>
    obtain ⟨hne, hmem⟩ := not_or.1 (fun hor => h (List.mem_cons.2 hor))
    rw [List.cons_append, cut?, if_neg (Ne.symm hne), ih hmem]
    rfl

/-- `cut? sep cs = none` if `cs` has no separator. -/
theorem cut?_eq_none {sep : Char} {cs : List Char} (h : sep ∉ cs) : cut? sep cs = none := by
  induction cs with
  | nil => rfl
  | cons c cs ih =>
    obtain ⟨hne, hmem⟩ := not_or.1 (fun hor => h (List.mem_cons.2 hor))
    rw [cut?, if_neg (Ne.symm hne), ih hmem]
    rfl

/-! ## Trimming -/

/-- `dropBlanks cs = cs` if `cs` does not start with a blank. -/
theorem dropBlanks_eq_self {cs : List Char} (h : ∀ c ∈ cs.head?, isBlank c = false) :
    dropBlanks cs = cs := by
  cases cs with
  | nil => rfl
  | cons c cs => rw [dropBlanks_cons, h c rfl, if_neg Bool.false_ne_true]

/-- **`trim cs = cs` if neither end of `cs` is blank.** -/
theorem trim_eq_self {cs : List Char} (hhead : ∀ c ∈ cs.head?, isBlank c = false)
    (hlast : ∀ c ∈ cs.getLast?, isBlank c = false) : trim cs = cs := by
  rw [trim, dropBlanks_eq_self hhead, dropTrailingBlanks, dropBlanks_eq_self, List.reverse_reverse]
  rw [List.head?_reverse]
  exact hlast

/-- `trim` only takes characters away. -/
theorem trim_sublist (cs : List Char) : (trim cs).Sublist cs := by
  refine List.Sublist.trans ?_ (List.dropWhile_sublist isBlank)
  rw [trim, dropTrailingBlanks, ← List.reverse_sublist, List.reverse_reverse]
  exact List.dropWhile_sublist isBlank

/-- `trim (c :: cs) = trim cs` for a blank `c`. -/
theorem trim_cons_of_isBlank {c : Char} (h : isBlank c = true) (cs : List Char) :
    trim (c :: cs) = trim cs := by
  rw [trim, trim, dropBlanks_cons, if_pos h]

/-- `trim (c :: cs)` starts with `c` if that is not blank. -/
theorem exists_trim_cons {c : Char} (h : isBlank c = false) (cs : List Char) :
    ∃ rest, trim (c :: cs) = c :: rest ∧ ∀ d ∈ rest, d ∈ cs := by
  have hc : dropBlanks [c] = [c] := dropBlanks_eq_self fun d hd => by
    rw [← Option.some.inj hd]
    exact h
  rw [trim, dropBlanks_cons, h, if_neg Bool.false_ne_true, dropTrailingBlanks, List.reverse_cons]
  show ∃ rest, ((cs.reverse ++ [c]).dropWhile isBlank).reverse = c :: rest ∧ ∀ d ∈ rest, d ∈ cs
  rw [List.dropWhile_append]
  split
  · -- only blanks follow the first character
    refine ⟨[], ?_, fun d hd => absurd hd List.not_mem_nil⟩
    rw [show [c].dropWhile isBlank = [c] from hc, List.reverse_singleton]
  · refine ⟨(cs.reverse.dropWhile isBlank).reverse, ?_, fun d hd => ?_⟩
    · rw [List.reverse_append, List.reverse_singleton, List.singleton_append]
    · exact List.mem_reverse.1 ((List.dropWhile_suffix _).subset (List.mem_reverse.1 hd))

/-! ## Blanks around a text -/

/-- A text of blanks. -/
def IsBlanks (cs : List Char) : Prop := ∀ c ∈ cs, isBlank c = true

instance (cs : List Char) : Decidable (IsBlanks cs) :=
  decidable_of_iff (cs.all isBlank = true) List.all_eq_true

/-- `dropBlanks (bs ++ cs) = dropBlanks cs` for blanks `bs`. -/
theorem dropBlanks_append {bs : List Char} (h : IsBlanks bs) (cs : List Char) :
    dropBlanks (bs ++ cs) = dropBlanks cs := List.dropWhile_append_of_pos h

/-- `dropBlanks (as ++ bs) = dropBlanks as ++ bs` if `as` has a character that is not blank. -/
theorem dropBlanks_append_of_ne_nil {as : List Char} (h : dropBlanks as ≠ []) (bs : List Char) :
    dropBlanks (as ++ bs) = dropBlanks as ++ bs := by
  have hempty : ¬(as.dropWhile isBlank).isEmpty = true := mt List.isEmpty_iff.1 h
  rw [dropBlanks, List.dropWhile_append, if_neg hempty]
  rfl

/-- `dropBlanks bs = []` for blanks `bs`. -/
theorem dropBlanks_blanks {bs : List Char} (h : IsBlanks bs) : dropBlanks bs = [] := by
  simpa using dropBlanks_append h []

/-- `cs` is some blanks and `dropBlanks cs`. -/
theorem exists_dropBlanks_eq (cs : List Char) :
    ∃ before, IsBlanks before ∧ cs = before ++ dropBlanks cs :=
  ⟨cs.takeWhile isBlank, fun _ hc => List.mem_takeWhile_imp hc,
    List.takeWhile_append_dropWhile.symm⟩

/-- `trim (bs ++ cs) = trim cs` for blanks `bs`. -/
theorem trim_blanks_append {bs : List Char} (h : IsBlanks bs) (cs : List Char) :
    trim (bs ++ cs) = trim cs := by
  rw [trim, trim, dropBlanks_append h]

/-- `dropTrailingBlanks (cs ++ bs) = dropTrailingBlanks cs` for blanks `bs`. -/
theorem dropTrailingBlanks_append {bs : List Char} (h : IsBlanks bs) (cs : List Char) :
    dropTrailingBlanks (cs ++ bs) = dropTrailingBlanks cs := by
  have hreverse : IsBlanks bs.reverse := fun c hc => h c (List.mem_reverse.1 hc)
  rw [dropTrailingBlanks, dropTrailingBlanks, List.reverse_append, dropBlanks_append hreverse]

/-- **`trim (cs ++ bs) = trim cs` for blanks `bs`.** -/
theorem trim_append_blanks {bs : List Char} (h : IsBlanks bs) (cs : List Char) :
    trim (cs ++ bs) = trim cs := by
  rw [trim, trim, dropBlanks, List.dropWhile_append]
  split
  · -- everything is blank
    next hempty =>
    rw [show dropBlanks cs = [] from List.isEmpty_iff.1 hempty]
    rw [show bs.dropWhile isBlank = [] from dropBlanks_blanks h]
  · exact dropTrailingBlanks_append h _

/-- `cs` is `dropTrailingBlanks cs` and some blanks. -/
theorem exists_dropTrailingBlanks_eq (cs : List Char) :
    ∃ bs, IsBlanks bs ∧ cs = dropTrailingBlanks cs ++ bs := by
  refine ⟨(cs.reverse.takeWhile isBlank).reverse, fun c hc => ?_, ?_⟩
  · exact List.mem_takeWhile_imp (List.mem_reverse.1 hc)
  · rw [dropTrailingBlanks, dropBlanks, ← List.reverse_append, List.takeWhile_append_dropWhile,
      List.reverse_reverse]

/-- `trim (dropBlanks cs) = trim cs`. -/
theorem trim_dropBlanks (cs : List Char) : trim (dropBlanks cs) = trim cs := by
  obtain ⟨before, hbefore, hsplit⟩ := exists_dropBlanks_eq cs
  calc trim (dropBlanks cs) = trim (before ++ dropBlanks cs) :=
        (trim_blanks_append hbefore _).symm
    _ = trim cs := by rw [← hsplit]

/-- `cs` is `trim cs` between some blanks. -/
theorem exists_trim_eq (cs : List Char) :
    ∃ before after, IsBlanks before ∧ IsBlanks after ∧ cs = before ++ trim cs ++ after := by
  obtain ⟨before, hbefore, hfront⟩ := exists_dropBlanks_eq cs
  obtain ⟨after, hafter, hback⟩ := exists_dropTrailingBlanks_eq (dropBlanks cs)
  refine ⟨before, after, hbefore, hafter, ?_⟩
  rw [trim, List.append_assoc, ← hback, ← hfront]

/-- **`trim cs = []` exactly if `cs` is blank.** -/
theorem trim_eq_nil_iff {cs : List Char} : trim cs = [] ↔ IsBlanks cs := by
  constructor
  · intro h
    obtain ⟨before, after, hbefore, hafter, hsplit⟩ := exists_trim_eq cs
    rw [hsplit, h, List.append_nil]
    exact fun c hc => (List.mem_append.1 hc).elim (hbefore c) (hafter c)
  · intro h
    rw [trim, dropBlanks_blanks h]
    rfl

/-- **`trim (as ++ c :: bs) = dropBlanks as ++ c :: dropTrailingBlanks bs`** if `c` is not blank. -/
theorem trim_append_cons {c : Char} (h : isBlank c = false) (as bs : List Char) :
    trim (as ++ c :: bs) = dropBlanks as ++ c :: dropTrailingBlanks bs := by
  have hfront (as bs : List Char) : dropBlanks (as ++ c :: bs) = dropBlanks as ++ c :: bs := by
    have hc (cs : List Char) : dropBlanks (c :: cs) = c :: cs := by
      rw [dropBlanks_cons, if_neg (by simp [h])]
    have hsplit : as ++ c :: bs = (as ++ [c]) ++ bs := by simp
    have hlast : dropBlanks (as ++ [c]) = dropBlanks as ++ [c] := by
      by_cases hnil : dropBlanks as = []
      · obtain ⟨before, hbefore, heq⟩ := exists_dropBlanks_eq as
        rw [heq, hnil, List.append_nil, dropBlanks_append hbefore, hc,  dropBlanks_blanks hbefore]
        rfl
      · exact dropBlanks_append_of_ne_nil hnil [c]
    rw [hsplit, dropBlanks_append_of_ne_nil (by simp [hlast]), hlast, List.append_assoc]
    rfl
  rw [trim, hfront, dropTrailingBlanks, List.reverse_append, List.reverse_cons, List.append_assoc,
    List.singleton_append, hfront]
  simp [dropTrailingBlanks]

/-- `dropBlanks cs = cs` if `trim cs = cs`. -/
theorem dropBlanks_eq_self_of_trim {cs : List Char} (h : trim cs = cs) : dropBlanks cs = cs := by
  have hsuffix : dropBlanks cs <:+ cs := List.dropWhile_suffix isBlank
  refine hsuffix.eq_of_length_le ?_
  have hlength : (trim cs).length ≤ (dropBlanks cs).length := by
    have hle : (dropBlanks (dropBlanks cs).reverse).length ≤ (dropBlanks cs).reverse.length :=
      (List.dropWhile_suffix isBlank).length_le
    rw [trim, dropTrailingBlanks, List.length_reverse]
    simpa using hle
  rw [h] at hlength
  exact hlength

/-- **Blanks at the end of a text change its last piece only**: each piece of `cs ++ bs` is that of
`cs`, perhaps with blanks behind it. -/
theorem splitOn_append_blanks {sep : Char} (hsep : isBlank sep = false) {bs : List Char}
    (h : IsBlanks bs) (cs : List Char) :
    List.Forall₂ (fun p q => ∃ bs, IsBlanks bs ∧ p = q ++ bs) (splitOn sep (cs ++ bs))
      (splitOn sep cs) := by
  have hnil : IsBlanks [] := fun c hc => absurd hc List.not_mem_nil
  induction cs with
  | nil =>
    have hmem : sep ∉ bs := fun hmem => by
      rw [h sep hmem] at hsep
      exact Bool.noConfusion hsep
    rw [List.nil_append, splitOn_of_not_mem hmem]
    exact .cons ⟨bs, h, rfl⟩ .nil
  | cons c cs ih =>
    rw [List.cons_append, splitOn, splitOn]
    by_cases hc : c = sep
    · rw [if_pos hc, if_pos hc]
      exact .cons ⟨[], hnil, rfl⟩ ih
    · rw [if_neg hc, if_neg hc]
      refine forall₂_consFirst ?_ ⟨[], hnil, rfl⟩ ih
      rintro p q ⟨bs, hbs, rfl⟩
      exact ⟨bs, hbs, rfl⟩

/-- `cs ++ bs` and `cs` have the same trimmed pieces, for blanks `bs`. -/
theorem map_trim_splitOn_append_blanks {sep : Char} (hsep : isBlank sep = false) {bs : List Char}
    (h : IsBlanks bs) (cs : List Char) :
    (splitOn sep (cs ++ bs)).map trim = (splitOn sep cs).map trim := by
  have hpieces : List.Forall₂ (fun p q => trim p = trim q) (splitOn sep (cs ++ bs))
      (splitOn sep cs) := by
    refine (splitOn_append_blanks hsep h cs).imp ?_
    rintro p q ⟨bs, hbs, rfl⟩
    exact trim_append_blanks hbs q
  rw [← List.forall₂_eq_eq_eq, List.forall₂_map_left_iff, List.forall₂_map_right_iff]
  exact hpieces

end Monochord.Text
