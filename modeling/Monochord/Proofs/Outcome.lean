import Mathlib.Data.List.Forall2
import Monochord.Failure

/-! # Outcomes of computations that may fail

Every operation of this library ends in `Except`. The lemmas below take such a computation apart: a
sequence of steps succeeds exactly if each step does.

* **`bind_eq_ok_iff`**, **`bind_eq_error_iff`**, **`map_eq_ok_iff`** — one step after another.
* **`mapM_eq_ok_iff`** — the same step for all items of a list: the results correspond to the items
  one by one.
* **`exists_mapM_eq_ok_iff`** — they exist exactly if each of them does; **`mapM_guard_eq_ok_iff`**: a
  step that only lets items through or refuses them.
* **`FailsFirst`** — the first item to fail; **`mapM_eq_error_iff`**, **`forM_eq_error_iff`**: it
  decides how the list fails.
* **`map_eq_of_forall₂`** — two lists that correspond to a third one. -/

namespace Monochord

variable {ε α β : Type}

/-! ## Single steps -/

/-- `pure a` is the success `.ok a`. -/
@[simp] theorem pure_eq_ok (a : α) : (pure a : Except ε α) = .ok a := rfl

/-- `throw e` is the failure `.error e`. -/
@[simp] theorem throw_eq_error (e : ε) : (throw e : Except ε α) = .error e := rfl

/-- After `.ok a` the next step is `f a`. -/
@[simp] theorem ok_bind (a : α) (f : α → Except ε β) : (Except.ok a >>= f) = f a := rfl

/-- After `.error e` no step is taken. -/
@[simp] theorem error_bind (e : ε) (f : α → Except ε β) :
    ((Except.error e : Except ε α) >>= f) = .error e := rfl

/-- **Two steps succeed exactly if both do**: `x` with some `a`, and `f a` with `b`. -/
theorem bind_eq_ok_iff {x : Except ε α} {f : α → Except ε β} {b : β} :
    (x >>= f) = .ok b ↔ ∃ a, x = .ok a ∧ f a = .ok b := by
  cases x with
  | error e => simp
  | ok a => simp

/-- Two steps fail with `e` exactly if the first one does, or if the second one does after it. -/
theorem bind_eq_error_iff {x : Except ε α} {f : α → Except ε β} {e : ε} :
    (x >>= f) = .error e ↔ x = .error e ∨ ∃ a, x = .ok a ∧ f a = .error e := by
  cases x with
  | error e' => simp
  | ok a => simp

/-- `x.map f = .ok b` exactly if `x = .ok a` for some `a` with `f a = b`. -/
theorem map_eq_ok_iff {x : Except ε α} {f : α → β} {b : β} :
    x.map f = .ok b ↔ ∃ a, x = .ok a ∧ f a = b := by
  cases x with
  | error e => simp [Except.map]
  | ok a => simp [Except.map]

/-- `x.map f` fails exactly as `x` does. -/
theorem map_eq_error_iff {x : Except ε α} {f : α → β} {e : ε} :
    x.map f = .error e ↔ x = .error e := by
  cases x with
  | error e' => simp [Except.map]
  | ok a => simp [Except.map]

/-- `x.map f` succeeds exactly if `x` does. -/
theorem exists_map_eq_ok_iff {x : Except ε α} {f : α → β} :
    (∃ b, x.map f = .ok b) ↔ ∃ a, x = .ok a := by
  simp only [map_eq_ok_iff]
  exact ⟨fun ⟨_, a, ha, _⟩ => ⟨a, ha⟩, fun ⟨a, ha⟩ => ⟨f a, a, ha, rfl⟩⟩

/-- `x.mapError f` succeeds exactly as `x` does. -/
theorem mapError_eq_ok_iff {δ : Type} {x : Except ε α} {f : ε → δ} {a : α} :
    x.mapError f = .ok a ↔ x = .ok a := by
  cases x with
  | error e => simp [Except.mapError]
  | ok b => simp [Except.mapError]

/-- `x.mapError f = .error d` exactly if `x = .error e` for some `e` with `f e = d`. -/
theorem mapError_eq_error_iff {δ : Type} {x : Except ε α} {f : ε → δ} {d : δ} :
    x.mapError f = .error d ↔ ∃ e, x = .error e ∧ f e = d := by
  cases x with
  | error e => simp [Except.mapError]
  | ok a => simp [Except.mapError]

/-- `diagnosing r` succeeds exactly as `r` does. -/
theorem diagnosing_eq_ok_iff {r : Except Diagnostic α} {a : α} :
    diagnosing r = .ok a ↔ r = .ok a := by
  rw [diagnosing, mapError_eq_ok_iff]

/-- `x.isOk = true` means that `x = .ok a` for some `a`. -/
theorem exists_of_isOk {x : Except ε α} (h : x.isOk = true) : ∃ a, x = .ok a := by
  cases x with
  | error e => exact absurd h Bool.false_ne_true
  | ok a => exact ⟨a, rfl⟩

/-! ## Lists of steps -/

/-- **`as.mapM f = .ok bs` exactly if `f a = .ok b`** for each item `a` of `as` and the result `b`
at its place in `bs`. -/
theorem mapM_eq_ok_iff {f : α → Except ε β} {as : List α} {bs : List β} :
    as.mapM f = .ok bs ↔ List.Forall₂ (fun a b => f a = .ok b) as bs := by
  induction as generalizing bs with
  | nil =>
    rw [List.mapM_nil, pure_eq_ok, Except.ok.injEq, List.forall₂_nil_left_iff, eq_comm]
  | cons a as ih =>
    rw [List.mapM_cons, bind_eq_ok_iff, List.forall₂_cons_left_iff]
    constructor
    · rintro ⟨b, hb, h⟩
      obtain ⟨bs', hbs', h⟩ := bind_eq_ok_iff.1 h
      exact ⟨b, bs', hb, ih.1 hbs', (Except.ok.inj h).symm⟩
    · rintro ⟨b, bs', hb, hbs', rfl⟩
      refine ⟨b, hb, ?_⟩
      rw [ih.2 hbs', ok_bind, pure_eq_ok]

/-- `as.mapM f` depends only on what `f` does for the items of `as`. -/
theorem mapM_congr {f g : α → Except ε β} {as : List α} (h : ∀ a ∈ as, f a = g a) :
    as.mapM f = as.mapM g := by
  induction as with
  | nil => rfl
  | cons a as ih =>
    obtain ⟨ha, has⟩ := List.forall_mem_cons.1 h
    rw [List.mapM_cons, List.mapM_cons, ha, ih has]

/-- `as.mapM f = .ok (as.map g)` if `f a = .ok (g a)` for each item. -/
theorem mapM_eq_ok_map {f : α → Except ε β} {g : α → β} {as : List α}
    (h : ∀ a ∈ as, f a = .ok (g a)) : as.mapM f = .ok (as.map g) := by
  rw [mapM_eq_ok_iff, List.forall₂_map_right_iff, List.forall₂_same]
  exact h

/-- `as.mapM f` succeeds exactly if `f` succeeds for each item. -/
theorem exists_mapM_eq_ok_iff {f : α → Except ε β} {as : List α} :
    (∃ bs, as.mapM f = .ok bs) ↔ ∀ a ∈ as, ∃ b, f a = .ok b := by
  simp only [mapM_eq_ok_iff]
  induction as with
  | nil => exact ⟨fun _ _ ha => absurd ha List.not_mem_nil, fun _ => ⟨[], .nil⟩⟩
  | cons a as ih =>
    rw [List.forall_mem_cons, ← ih]
    constructor
    · rintro ⟨bs, h⟩
      cases h with
      | cons hb hbs => exact ⟨⟨_, hb⟩, _, hbs⟩
    · rintro ⟨⟨b, hb⟩, bs, hbs⟩
      exact ⟨b :: bs, .cons hb hbs⟩

/-- A step that lets an item through as it is, or refuses it, does so for a list: `as.mapM f = .ok bs`
exactly if no item is refused and `bs = as`. -/
theorem mapM_guard_eq_ok_iff {f : α → Except ε α} {P : α → Prop}
    (h : ∀ a b, f a = .ok b ↔ P a ∧ b = a) {as bs : List α} :
    as.mapM f = .ok bs ↔ (∀ a ∈ as, P a) ∧ bs = as := by
  constructor
  · intro hbs
    refine ⟨fun a ha => ?_, ?_⟩
    · obtain ⟨b, hb⟩ := exists_mapM_eq_ok_iff.1 ⟨bs, hbs⟩ a ha
      exact ((h a b).1 hb).1
    · rw [← List.forall₂_eq_eq_eq]
      exact (mapM_eq_ok_iff.1 hbs).flip.imp fun b a hb => ((h a b).1 hb).2
  · rintro ⟨hall, rfl⟩
    rw [mapM_eq_ok_iff, List.forall₂_same]
    exact fun a ha => (h a a).2 ⟨hall a ha, rfl⟩

/-- **The first item of `as` for which `f` fails**, behind the items `before` for which it succeeds.
-/
structure FailsFirst (f : α → Except ε β) (as before : List α) (a : α) (e : ε) : Prop where
  /-- The item comes next after those before it. -/
  position : before ++ [a] <+: as
  /-- The items before it succeed. -/
  succeeds : ∀ b ∈ before, ∃ r, f b = .ok r
  /-- The item fails. -/
  fails : f a = .error e

/-- `f` fails first for the first item, if it fails for that. -/
theorem FailsFirst.head {f : α → Except ε β} {a : α} {e : ε} (h : f a = .error e) (as : List α) :
    FailsFirst f (a :: as) [] a e :=
  ⟨⟨as, rfl⟩, fun _ hb => absurd hb List.not_mem_nil, h⟩

/-- An item in front for which `f` succeeds comes before the first one for which it fails. -/
theorem FailsFirst.cons {f : α → Except ε β} {as before : List α} {a b : α} {e : ε}
    (h : FailsFirst f as before a e) (hb : ∃ r, f b = .ok r) :
    FailsFirst f (b :: as) (b :: before) a e :=
  ⟨(List.prefix_cons_inj b).2 h.position, List.forall_mem_cons.2 ⟨hb, h.succeeds⟩, h.fails⟩

/-- The first item for which `f` fails is an item of `as`. -/
theorem FailsFirst.mem {f : α → Except ε β} {as before : List α} {a : α} {e : ε}
    (h : FailsFirst f as before a e) : a ∈ as :=
  h.position.subset (List.mem_append_right before List.mem_cons_self)

/-- **`as.mapM f = .error e` exactly if `f` fails with `e` for the first item for which it fails.**
-/
theorem mapM_eq_error_iff {f : α → Except ε β} {as : List α} {e : ε} :
    as.mapM f = .error e ↔ ∃ before a, FailsFirst f as before a e := by
  constructor
  · intro h
    induction as with
    | nil => exact absurd h (by simp)
    | cons a as ih =>
      rw [List.mapM_cons] at h
      rcases bind_eq_error_iff.1 h with h | ⟨b, hb, h⟩
      · exact ⟨[], a, .head h as⟩
      · rcases bind_eq_error_iff.1 h with h | ⟨bs, -, h⟩
        · obtain ⟨before, a', hfirst⟩ := ih h
          exact ⟨a :: before, a', hfirst.cons ⟨b, hb⟩⟩
        · exact absurd h (by simp)
  · rintro ⟨before, a, ⟨after, rfl⟩, hsucceeds, hfails⟩
    obtain ⟨bs, hbs⟩ := exists_mapM_eq_ok_iff.2 hsucceeds
    rw [List.append_assoc, List.mapM_append, hbs, ok_bind, List.singleton_append, List.mapM_cons,
      hfails, error_bind, error_bind]

/-- `as.mapM f = .error e` only if `f a = .error e` for some item `a`. -/
theorem exists_of_mapM_eq_error {f : α → Except ε β} {as : List α} {e : ε}
    (h : as.mapM f = .error e) : ∃ a ∈ as, f a = .error e := by
  obtain ⟨before, a, hfirst⟩ := mapM_eq_error_iff.1 h
  exact ⟨a, hfirst.mem, hfirst.fails⟩

/-- `as.forM f` succeeds exactly if `f` succeeds for each item. -/
theorem forM_eq_ok_iff {f : α → Except ε Unit} {as : List α} :
    as.forM f = .ok () ↔ ∀ a ∈ as, f a = .ok () := by
  induction as with
  | nil => exact ⟨fun _ _ ha => absurd ha List.not_mem_nil, fun _ => rfl⟩
  | cons a as ih =>
    rw [List.forall_mem_cons, ← ih]
    show (f a >>= fun _ => as.forM f) = _ ↔ _
    rw [bind_eq_ok_iff]
    exact ⟨fun ⟨_, ha, has⟩ => ⟨ha, has⟩, fun ⟨ha, has⟩ => ⟨(), ha, has⟩⟩

/-- **`as.forM f = .error e` exactly if `f` fails with `e` for the first item for which it fails.**
-/
theorem forM_eq_error_iff {f : α → Except ε Unit} {as : List α} {e : ε} :
    as.forM f = .error e ↔ ∃ before a, FailsFirst f as before a e := by
  constructor
  · intro h
    induction as with
    | nil => exact absurd h (by simp [List.forM])
    | cons a as ih =>
      change (f a >>= fun _ => as.forM f) = _ at h
      rcases bind_eq_error_iff.1 h with h | ⟨u, hu, h⟩
      · exact ⟨[], a, .head h as⟩
      · obtain ⟨before, a', hfirst⟩ := ih h
        exact ⟨a :: before, a', hfirst.cons ⟨u, hu⟩⟩
  · rintro ⟨before, a, ⟨after, rfl⟩, hsucceeds, hfails⟩
    have hbefore : forM before f = .ok () := forM_eq_ok_iff.2 fun b hb => (hsucceeds b hb).choose_spec
    show forM (before ++ [a] ++ after) f = _
    rw [List.append_assoc, List.forM_append, hbefore, ok_bind]
    show (f a >>= fun _ => forM after f) = _
    rw [hfails, error_bind]

/-- `(as.filter p).forM f = as.forM f` if `f` succeeds for the items that are left out. -/
theorem forM_filter {f : α → Except ε Unit} {p : α → Bool} {as : List α}
    (h : ∀ a ∈ as, p a = false → f a = .ok ()) : (as.filter p).forM f = as.forM f := by
  induction as with
  | nil => rfl
  | cons a as ih =>
    obtain ⟨ha, has⟩ := List.forall_mem_cons.1 h
    show _ = f a >>= fun _ => as.forM f
    rw [← ih has, List.filter_cons]
    split
    · rfl
    · next hleft => rw [ha (Bool.eq_false_iff.2 hleft), ok_bind]

/-- If `List.Forall₂ R as bs`, each item of `bs` has an item of `as` that is related to it. -/
theorem exists_of_mem_forall₂ {R : α → β → Prop} {as : List α} {bs : List β}
    (h : List.Forall₂ R as bs) {b : β} (hb : b ∈ bs) : ∃ a ∈ as, R a b := by
  induction h with
  | nil => exact absurd hb List.not_mem_nil
  | cons hab _ ih =>
    rcases List.mem_cons.1 hb with rfl | hb
    · exact ⟨_, List.mem_cons_self, hab⟩
    · obtain ⟨a, ha, hab⟩ := ih hb
      exact ⟨a, List.mem_cons_of_mem _ ha, hab⟩

/-- If `List.Forall₂ R as bs`, items at the same place are related. -/
theorem exists_getElem?_of_forall₂ {R : α → β → Prop} {as : List α} {bs : List β}
    (h : List.Forall₂ R as bs) {i : ℕ} {a : α} (ha : as[i]? = some a) :
    ∃ b, bs[i]? = some b ∧ R a b := by
  induction h generalizing i with
  | nil => exact absurd ha (by simp)
  | cons hab _ ih =>
    cases i with
    | zero =>
      obtain rfl := Option.some.inj ha
      exact ⟨_, rfl, hab⟩
    | succ i => exact ih ha

/-- If `g b = c` whenever some item is related to `b` by `R` and to `c` by `S`, then `bs.map g = cs`
for lists that are related to the same list. -/
theorem map_eq_of_forall₂ {γ : Type} {R : α → β → Prop} {S : α → γ → Prop} {g : β → γ}
    {as : List α} {bs : List β} {cs : List γ} (hg : ∀ a b c, R a b → S a c → g b = c)
    (hbs : List.Forall₂ R as bs) (hcs : List.Forall₂ S as cs) : bs.map g = cs := by
  induction hbs generalizing cs with
  | nil =>
    cases hcs
    rfl
  | cons hb _ ih =>
    cases hcs with
    | cons hc hcs => rw [List.map_cons, hg _ _ _ hb hc, ih hcs]

/-- If `g b = f a` whenever `R a b`, then `bs.map g = as.map f` for lists that are related by `R`.
-/
theorem map_eq_map_of_forall₂ {γ : Type} {R : α → β → Prop} {f : α → γ} {g : β → γ} {as : List α}
    {bs : List β} (hg : ∀ a b, R a b → g b = f a) (h : List.Forall₂ R as bs) :
    bs.map g = as.map f := by
  induction h with
  | nil => rfl
  | cons hab _ ih => rw [List.map_cons, List.map_cons, hg _ _ hab, ih]

/-- Each result of `as.mapM f` is that of some item. -/
theorem exists_of_mem_mapM {f : α → Except ε β} {as : List α} {bs : List β}
    (h : as.mapM f = .ok bs) {b : β} (hb : b ∈ bs) : ∃ a ∈ as, f a = .ok b :=
  exists_of_mem_forall₂ (mapM_eq_ok_iff.1 h) hb

end Monochord
