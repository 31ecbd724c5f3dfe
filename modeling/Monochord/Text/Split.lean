/-! # Cutting and padding text

- **`splitOn`**: the pieces of a text between the occurrences of a separator; never empty.
- **`cut?`**: the text before and after the first occurrence of a separator.
- **`padRight`** and **`padLeft`**: a text filled up with spaces to a width counted in
  characters. -/

namespace Monochord.Text

/-! ## Cutting -/

/-- Puts a character in front of the first of some pieces. -/
def consFirst (c : Char) : List (List Char) → List (List Char)
  | [] => [[c]]
  | p :: ps => (c :: p) :: ps

/-- The pieces of a text between the occurrences of `sep`. -/
def splitOn (sep : Char) : List Char → List (List Char)
  | [] => [[]]
  | c :: cs => if c = sep then [] :: splitOn sep cs else consFirst c (splitOn sep cs)

@[simp] theorem splitOn_nil (sep : Char) : splitOn sep [] = [[]] := rfl

/-- There is at least one piece. -/
theorem splitOn_ne_nil (sep : Char) (cs : List Char) : splitOn sep cs ≠ [] := by
  cases cs with
  | nil => simp
  | cons c cs =>
    simp only [splitOn]
    split
    · simp
    · cases splitOn sep cs <;> simp [consFirst]

/-- The text before and after the first `sep`; nothing if there is none. -/
def cut? (sep : Char) : List Char → Option (List Char × List Char)
  | [] => none
  | c :: cs => if c = sep then some ([], cs) else (cut? sep cs).map fun p => (c :: p.1, p.2)

/-- A cut text is the two parts with the separator between them, and the first part has none. -/
theorem eq_of_cut? {sep : Char} {cs a b : List Char} (h : cut? sep cs = some (a, b)) :
    cs = a ++ sep :: b ∧ sep ∉ a := by
  induction cs generalizing a with
  | nil => simp [cut?] at h
  | cons c cs ih =>
    simp only [cut?] at h
    split at h
    · next hc => simp only [Option.some.injEq, Prod.mk.injEq] at h; simp [← h.1, ← h.2, hc]
    · next hc =>
      simp only [Option.map_eq_some_iff] at h
      obtain ⟨p, hp, h⟩ := h
      simp only [Prod.mk.injEq] at h
      obtain ⟨rfl, rfl⟩ := h
      have := ih hp
      simp [← this.1, this.2, Ne.symm hc]

/-! ## Padding -/

/-- Spaces after the text, up to a width. -/
def padRight (width : Nat) (cs : List Char) : List Char :=
  cs ++ List.replicate (width - cs.length) ' '

/-- Spaces before the text, up to a width. -/
def padLeft (width : Nat) (cs : List Char) : List Char :=
  List.replicate (width - cs.length) ' ' ++ cs

end Monochord.Text
