import Mathlib.Data.List.Induction
import Monochord.Proofs.Timing

/-! # Timings that can be reached

A timing comes from another one by replacing settings, and the result is checked as a whole. However
often this is done and whatever is refused on the way, the timing in use has been accepted. Two
overrides that follow each other come to the same as one, as long as the names of their changes are
those of settings.

* **`Timing.Valid`** — `t.get setting` is finite and positive for both settings.
* **`Timing.Checked`** — the outcome of checking a value; **`Timing.checkSetting_eq_iff`**: it is that
  of `checkSetting`.
* **`Timing.Refusal`** — why changes of a valid timing are refused; **`Timing.replace_eq_ok_iff`**,
  **`Timing.replace_eq_error_iff`**: what `replace` comes to.
* **`Timing.given`** — the value that some changes give for a name; **`Timing.get_of_override`**: only
  these values count.
* **`Timing.update`** — changes updated by other ones; **`Timing.override_override`**: `override`
  after `override`.
* **`Timing.after`** — the timing in use after any steps; **`Timing.attempt_eq_ok_iff`**,
  **`Timing.attempt_eq_error_iff`**: what a step comes to; **`Timing.valid_after`**: the timing in use
  is valid. -/

namespace Monochord.Timing

open Binary64

/-! ## Validity -/

/-- The value of a setting. -/
def get (t : Timing) : Setting → Quantity
  | .baseDuration => t.base
  | .tempo => t.tempo

/-- **Both settings are finite and positive**: each is a rational number `r` with
`0 < r < overflowBound`. -/
def Valid (t : Timing) : Prop :=
  ∀ setting, ∃ r, (t.get setting).value? = some r ∧ 0 < r ∧ r < overflowBound

/-- The outcome of checking a value for `setting`. -/
inductive Checked (setting : Setting) : Quantity → Except Failure Unit → Prop
  /-- The value is a number `r` with `0 < r < overflowBound`. -/
  | accepted {q r} : q.value? = some r → 0 < r → r < overflowBound → Checked setting q (.ok ())
  /-- There is no number to check. -/
  | absent : Checked setting .absent (.error .wrongType)
  /-- An integer is beyond the range of doubles. -/
  | beyond {n : ℤ} : overflowBound ≤ |(n : ℚ)| → Checked setting (.int n) (.error .overflow)
  /-- Any other number is not finite, or not positive. -/
  | reported {q} : q ≠ .absent → (∀ n : ℤ, q = .int n → |(n : ℚ)| < overflowBound) →
      (∀ r, q.value? = some r → r ≤ 0) → Checked setting q (.error (.settingNotPositive setting q.text))

/-- `checkSetting setting q` of a value that counts as the number `a`: accepted if `a` is finite and
positive. -/
theorem checkSetting_of_number {q : Quantity} {a : Number} (setting : Setting)
    (h : q.number = .ok a) : checkSetting setting q = a.isFinite >>= fun finite =>
      if (finite && a.isPositive) = true then .ok ()
      else .error (.settingNotPositive setting q.text) := by
  rw [checkSetting, h, ok_bind]
  rfl

/-- A quantity that is the integer `n` is given as `n` itself or as a truth value. -/
theorem eq_int_or_truth_of_number {q : Quantity} {n : ℤ} (h : q.number = .ok (.int n)) :
    q = .int n ∨ |(n : ℚ)| < overflowBound := by
  cases q with
  | absent => exact absurd h (by simp [Quantity.number])
  | truth b =>
    have hone : (1 : ℚ) < overflowBound := two_pow_lt_overflowBound (k := 0) (by decide)
    obtain rfl := Number.int.inj (Except.ok.inj h)
    cases b with
    | false => exact .inr (by simp [overflowBound_pos])
    | true => exact .inr (by simpa using hone)
  | int m => exact .inl (by rw [Number.int.inj (Except.ok.inj h)])
  | float x => exact absurd h (by simp [Quantity.number])

/-- `Checked setting q (checkSetting setting q)`. -/
theorem checkSetting_cases (setting : Setting) (q : Quantity) :
    Checked setting q (checkSetting setting q) := by
  cases hq : q.number with
  | error f =>
    cases q with
    | absent => exact .absent
    | truth b => exact absurd hq (by simp [Quantity.number])
    | int n => exact absurd hq (by simp [Quantity.number])
    | float x => exact absurd hq (by simp [Quantity.number])
  | ok a =>
    have hvalue : q.value? = a.value? := by rw [Quantity.value?, hq]
    have hcheck := checkSetting_of_number setting hq
    rcases a.isFinite_cases with ⟨n, rfl, hbeyond, hfinite⟩ | ⟨hrange, finite, hfinite, haccepted⟩
    · -- only an integer is so far beyond, since truth values count as 0 and 1
      rcases eq_int_or_truth_of_number hq with rfl | hlt
      · rw [hcheck, hfinite, error_bind]
        exact .beyond hbeyond
      · exact absurd hlt hbeyond.not_gt
    · rw [hfinite, ok_bind] at hcheck
      rw [hcheck]
      split
      · next hgood =>
        rw [if_pos hgood] at hcheck
        obtain ⟨r, hr, hpos, hlt⟩ := checkSetting_eq_ok_iff.1 hcheck
        exact .accepted hr hpos hlt
      · next hbad =>
        refine .reported ?_ ?_ fun r hr => ?_
        · rintro rfl
          exact absurd hq (by simp [Quantity.number])
        · rintro n rfl
          exact hrange n (Except.ok.inj hq).symm
        · rw [hvalue] at hr
          exact not_lt.1 fun hpos => hbad (haccepted.2 ⟨r, hr, hpos⟩)

/-- `Checked setting q` holds of one outcome only. -/
theorem Checked.unique {setting : Setting} {q : Quantity} {o o' : Except Failure Unit}
    (h : Checked setting q o) (h' : Checked setting q o') : o = o' := by
  have habsent : (Quantity.absent).value? = none := rfl
  have hint (n : ℤ) : (Quantity.int n).value? = some (n : ℚ) := rfl
  -- any two different constructors contradict each other on the value of `q`
  cases h with
  | accepted hr hpos hlt =>
    cases h' with
    | accepted => rfl
    | absent => exact absurd hr (by simp [habsent])
    | @beyond n hbeyond =>
      obtain rfl := Option.some.inj ((hint n).symm.trans hr)
      exact absurd (abs_of_pos hpos ▸ hbeyond) hlt.not_ge
    | reported _ _ hle => exact absurd (hle _ hr) hpos.not_ge
  | absent =>
    cases h' with
    | accepted hr => exact absurd hr (by simp [habsent])
    | absent => rfl
    | reported hne => exact absurd rfl hne
  | @beyond n hbeyond =>
    cases h' with
    | accepted hr hpos hlt =>
      obtain rfl := Option.some.inj ((hint n).symm.trans hr)
      exact absurd (abs_of_pos hpos ▸ hbeyond) hlt.not_ge
    | beyond => rfl
    | reported _ hrange => exact absurd (hrange n rfl) hbeyond.not_gt
  | reported hne hrange hle =>
    cases h' with
    | accepted hr hpos => exact absurd (hle _ hr) hpos.not_ge
    | absent => exact absurd rfl hne
    | @beyond n hbeyond => exact absurd (hrange n rfl) hbeyond.not_gt
    | reported => rfl

/-- **Checking a value**: `checkSetting setting q = o` exactly if `Checked setting q o`. -/
theorem checkSetting_eq_iff {setting : Setting} {q : Quantity} {o : Except Failure Unit} :
    checkSetting setting q = o ↔ Checked setting q o :=
  ⟨fun h => h ▸ checkSetting_cases setting q, fun h => (checkSetting_cases setting q).unique h⟩

/-- A timing is valid exactly if `Checked` accepts each of its settings. -/
theorem valid_iff {t : Timing} :
    t.Valid ↔ ∀ setting, Checked setting (t.get setting) (.ok ()) := by
  refine forall_congr' fun setting => ?_
  rw [← checkSetting_eq_iff, checkSetting_eq_ok_iff]

/-- `make` succeeds exactly for the two values of a valid timing. -/
theorem make_eq_ok_iff_valid {t t' : Timing} :
    make t.base t.tempo = .ok t' ↔ t.Valid ∧ t' = t := by
  rw [make_eq_ok_iff, checkSetting_eq_iff, checkSetting_eq_iff, valid_iff]
  constructor
  · rintro ⟨hbase, htempo, rfl⟩
    refine ⟨fun setting => ?_, rfl⟩
    cases setting with
    | baseDuration => exact hbase
    | tempo => exact htempo
  · rintro ⟨hvalid, rfl⟩
    exact ⟨hvalid .baseDuration, hvalid .tempo, rfl⟩

/-- `make` fails as its first value does, and as its second one if the first one is accepted. -/
theorem make_eq_error_iff {t : Timing} {f : Failure} :
    make t.base t.tempo = .error f ↔
      Checked .baseDuration t.base (.error f) ∨
        Checked .baseDuration t.base (.ok ()) ∧ Checked .tempo t.tempo (.error f) := by
  simp only [← checkSetting_eq_iff]
  rw [make, bind_eq_error_iff]
  apply or_congr_right
  constructor
  · rintro ⟨⟨⟩, hbase, h⟩
    rcases bind_eq_error_iff.1 h with htempo | ⟨-, -, h⟩
    · exact ⟨hbase, htempo⟩
    · exact absurd h (by simp)
  · rintro ⟨hbase, htempo⟩
    refine ⟨(), hbase, ?_⟩
    rw [htempo, error_bind]

/-! ## Changes -/

/-- The first value that stands among some changes for a name. -/
def entry (cs : Changes) (name : String) : Option Quantity :=
  (cs.find? fun c => c.1 == name).map (·.2)

/-- The changes of `cs` that give a value. -/
def giving (cs : Changes) : Changes := cs.filter givesValue

/-- **The value that some changes give for a name**, which is not `.absent`. -/
def given (cs : Changes) (name : String) : Option Quantity := entry (giving cs) name

@[simp] theorem entry_nil (name : String) : entry [] name = none := rfl

@[simp] theorem entry_cons_self (name : String) (q : Quantity) (cs : Changes) :
    entry ((name, q) :: cs) name = some q := by
  simp [entry]

/-- `entry (c :: cs) name = entry cs name` if `c` has another name. -/
theorem entry_cons_of_ne {c : String × Quantity} {name : String} (h : c.1 ≠ name) (cs : Changes) :
    entry (c :: cs) name = entry cs name := by
  simp [entry, h]

/-- `entry (cs ++ cs') name` is the entry of `cs`, and that of `cs'` if there is none. -/
theorem entry_append (cs cs' : Changes) (name : String) :
    entry (cs ++ cs') name = (entry cs name).or (entry cs' name) := by
  rw [entry, List.find?_append, Option.map_or]
  rfl

/-- A value that `entry` finds stands among the changes. -/
theorem mem_of_entry {cs : Changes} {name : String} {q : Quantity} (h : entry cs name = some q) :
    (name, q) ∈ cs := by
  obtain ⟨c, hfind, rfl⟩ := Option.map_eq_some_iff.1 h
  have hname : c.1 = name := by simpa using List.find?_some hfind
  exact hname ▸ List.mem_of_find?_eq_some hfind

/-- `entry cs name = none` exactly if no change has the name. -/
theorem entry_eq_none_iff {cs : Changes} {name : String} :
    entry cs name = none ↔ ∀ c ∈ cs, c.1 ≠ name := by
  rw [entry, Option.map_eq_none_iff, List.find?_eq_none]
  simp only [beq_iff_eq, ne_eq]

/-- `givesValue c = true` exactly if `c.2 ≠ .absent`. -/
theorem givesValue_iff {c : String × Quantity} : givesValue c = true ↔ c.2 ≠ .absent := by
  obtain ⟨name, q⟩ := c
  cases q <;> simp [givesValue]

/-- `c ∈ giving cs` exactly if `c` is a change of `cs` with `c.2 ≠ .absent`. -/
theorem mem_giving_iff {cs : Changes} {c : String × Quantity} :
    c ∈ giving cs ↔ c ∈ cs ∧ c.2 ≠ .absent := by
  rw [giving, List.mem_filter, givesValue_iff]

/-- A value `given cs name = some q` stands among the changes and is not `.absent`. -/
theorem mem_of_given {cs : Changes} {name : String} {q : Quantity} (h : given cs name = some q) :
    (name, q) ∈ cs ∧ q ≠ .absent :=
  mem_giving_iff.1 (mem_of_entry h)

/-- `giving cs = cs` if no change is `.absent`. -/
theorem giving_eq_self {cs : Changes} (h : ∀ c ∈ cs, c.2 ≠ .absent) : giving cs = cs :=
  List.filter_eq_self.2 fun c hc => givesValue_iff.2 (h c hc)

/-- `given cs c.1` exists for each change `c` that gives a value. -/
theorem exists_given_of_mem {cs : Changes} {c : String × Quantity} (h : c ∈ giving cs) :
    ∃ q, given cs c.1 = some q := by
  cases hgiven : given cs c.1 with
  | none => exact absurd rfl (entry_eq_none_iff.1 hgiven c h)
  | some q => exact ⟨q, rfl⟩

/-- `given cs name = none` if all changes of this name give nothing. -/
theorem given_eq_none {cs : Changes} {name : String} (h : ∀ q, (name, q) ∈ cs → q = .absent) :
    given cs name = none := by
  refine entry_eq_none_iff.2 fun c hc hname => ?_
  obtain ⟨hmem, hne⟩ := mem_giving_iff.1 hc
  exact hne (h c.2 (hname ▸ hmem))

/-- `given (c :: cs) name` is the value of `c` if `c` gives one for the name, and `given cs name`
otherwise. -/
theorem given_cons (c : String × Quantity) (cs : Changes) (name : String) :
    given (c :: cs) name =
      if c.1 = name ∧ givesValue c = true then some c.2 else given cs name := by
  rw [given, given, giving, giving, List.filter_cons]
  by_cases hgives : givesValue c = true
  · rw [if_pos hgives]
    by_cases hname : c.1 = name
    · rw [if_pos ⟨hname, hgives⟩, ← hname]
      exact entry_cons_self c.1 c.2 _
    · rw [if_neg fun h => hname h.1, entry_cons_of_ne hname]
  · rw [if_neg hgives, if_neg fun h => hgives h.2]

/-- `given (cs ++ cs') name` is what `cs` gives, and what `cs'` gives if that is nothing. -/
theorem given_append (cs cs' : Changes) (name : String) :
    given (cs ++ cs') name = (given cs name).or (given cs' name) := by
  rw [given, giving, List.filter_append, entry_append]
  rfl

/-- `given cs name = some q` if `q` is the only value of the name in `cs`. -/
theorem given_eq_some {cs : Changes} {name : String} {q : Quantity} (hq : q ≠ .absent)
    (hmem : (name, q) ∈ cs) (honly : ∀ q', (name, q') ∈ cs → q' = q) : given cs name = some q := by
  cases hgiven : given cs name with
  | none => exact absurd rfl (entry_eq_none_iff.1 hgiven _ (mem_giving_iff.2 ⟨hmem, hq⟩))
  | some q' => rw [honly q' (mem_of_given hgiven).1]

/-- `given cs name` does not depend on the values of other names. -/
theorem given_map {f : String × Quantity → Quantity} {cs : Changes} {name : String}
    (h : ∀ c ∈ cs, c.1 = name → f c = c.2) :
    given (cs.map fun c => (c.1, f c)) name = given cs name := by
  induction cs with
  | nil => rfl
  | cons c cs ih =>
    obtain ⟨hc, hcs⟩ := List.forall_mem_cons.1 h
    rw [List.map_cons, given_cons, given_cons, ih hcs]
    by_cases hname : c.1 = name
    · rw [hc hname]
    · rw [if_neg fun h => hname h.1, if_neg fun h => hname h.1]

/-- `given cs name` does not depend on the changes of names that are left out. -/
theorem given_filter {p : String → Bool} {name : String} (hp : p name = true) (cs : Changes) :
    given (cs.filter fun c => p c.1) name = given cs name := by
  induction cs with
  | nil => rfl
  | cons c cs ih =>
    rw [given_cons, ← ih, List.filter_cons]
    split
    · exact given_cons _ _ _
    · next hleft =>
      have hname : c.1 ≠ name := fun hname => hleft (hname ▸ hp)
      rw [if_neg fun h => hname h.1]

/-! ## Names -/

/-- Why a name is refused. -/
inductive Misnamed : String → Failure → Prop
  /-- It is the name of the timing itself. -/
  | taken : Misnamed ownName (.nameTaken ownName)
  /-- It is the name of nothing. -/
  | unknown {name} : name ≠ ownName → isSetting name = false → Misnamed name (.unknownSetting name)

/-- `isSetting ownName = false`. -/
theorem isSetting_ownName : isSetting ownName = false := by decide

/-- `checkName` accepts the names of settings. -/
theorem checkName_eq_ok_iff {name : String} : checkName name = .ok () ↔ isSetting name = true := by
  rw [checkName]
  split
  · next h => exact iff_of_false (by simp) (by simp [h, isSetting_ownName])
  · split
    · next h => exact iff_of_true rfl h
    · next h => exact iff_of_false (by simp) h

/-- `checkName` refuses the other names as `Misnamed` says. -/
theorem checkName_eq_error_iff {name : String} {f : Failure} :
    checkName name = .error f ↔ Misnamed name f := by
  rw [checkName]
  constructor
  · intro h
    split at h
    · next hown =>
      obtain rfl := Except.error.inj h
      exact hown ▸ .taken
    · next hown =>
      split at h
      · exact absurd h (by simp)
      · next hknown =>
        obtain rfl := Except.error.inj h
        exact .unknown hown (Bool.eq_false_iff.2 hknown)
  · rintro (_ | ⟨hown, hknown⟩)
    · rw [if_pos rfl]
    · rw [if_neg hown, hknown, if_neg Bool.false_ne_true]

/-- The names of some changes, checked one after another. -/
def checkNames (cs : Changes) : Except Failure Unit := cs.forM fun c => checkName c.1

/-- `checkNames` accepts changes of settings. -/
theorem checkNames_eq_ok_iff {cs : Changes} :
    checkNames cs = .ok () ↔ ∀ c ∈ cs, isSetting c.1 = true := by
  rw [checkNames, forM_eq_ok_iff]
  exact forall₂_congr fun _ _ => checkName_eq_ok_iff

/-- `checkNames` refuses the first name that is not that of a setting. -/
theorem checkNames_eq_error_iff {cs : Changes} {f : Failure} :
    checkNames cs = .error f ↔ ∃ before c, before ++ [c] <+: cs ∧
      (∀ b ∈ before, isSetting b.1 = true) ∧ Misnamed c.1 f := by
  rw [checkNames, forM_eq_error_iff]
  refine exists₂_congr fun before c => ⟨fun h => ⟨h.position, fun b hb => ?_, ?_⟩,
    fun ⟨hposition, hsucceeds, hfails⟩ => ⟨hposition, fun b hb => ⟨(), ?_⟩, ?_⟩⟩
  · obtain ⟨⟨⟩, hb⟩ := h.succeeds b hb
    exact checkName_eq_ok_iff.1 hb
  · exact checkName_eq_error_iff.1 h.fails
  · exact checkName_eq_ok_iff.2 (hsucceeds b hb)
  · exact checkName_eq_error_iff.2 hfails

/-- `checkNames cs` fails with `.unknownSetting` only, if no change has the name `ownName`. -/
theorem checkNames_cases {cs : Changes} (h : ∀ c ∈ cs, c.1 ≠ ownName) :
    checkNames cs = .ok () ∨ ∃ name, checkNames cs = .error (.unknownSetting name) := by
  cases hnames : checkNames cs with
  | ok u => exact .inl rfl
  | error f =>
    obtain ⟨before, c, hposition, -, hmisnamed⟩ := checkNames_eq_error_iff.1 hnames
    have hown := h c (hposition.subset (List.mem_append_right before List.mem_cons_self))
    generalize c.1 = name at hmisnamed hown
    cases hmisnamed with
    | taken => exact absurd rfl hown
    | unknown => exact .inr ⟨name, rfl⟩

/-! ## Replacements -/

/-- The timing that some changes lead to, before it is checked: `entry cs` goes before `t`. -/
def changed (t : Timing) (cs : Changes) : Timing :=
  ⟨(entry cs Setting.baseDuration.name).getD t.base, (entry cs Setting.tempo.name).getD t.tempo⟩

/-- `(t.changed cs).get setting` is the entry of `cs` for the setting, and that of `t` if there is
none. -/
theorem get_changed (t : Timing) (cs : Changes) (setting : Setting) :
    (t.changed cs).get setting = (entry cs setting.name).getD (t.get setting) := by
  cases setting <;> rfl

/-- **A replacement** checks the names of the changes and then the changed timing as a whole. -/
theorem replace_eq (t : Timing) (cs : Changes) : t.replace cs =
    checkNames cs >>= fun _ => make (t.changed cs).base (t.changed cs).tempo := rfl

/-- **Why changes of a valid timing are refused.** -/
inductive Refusal (cs : Changes) : Failure → Prop
  /-- The first name that is not that of a setting. -/
  | name {before c f} : before ++ [c] <+: cs → (∀ b ∈ before, isSetting b.1 = true) →
      Misnamed c.1 f → Refusal cs f
  /-- The length of the unit. -/
  | base {q f} : (∀ c ∈ cs, isSetting c.1 = true) → entry cs Setting.baseDuration.name = some q →
      Checked .baseDuration q (.error f) → Refusal cs f
  /-- The tempo, if the length of the unit can be used. -/
  | tempo {q f} : (∀ c ∈ cs, isSetting c.1 = true) →
      (∀ b, entry cs Setting.baseDuration.name = some b → Checked .baseDuration b (.ok ())) →
      entry cs Setting.tempo.name = some q → Checked .tempo q (.error f) → Refusal cs f

/-- **Changes that a valid timing admits**: all are changes of settings, and their values are
accepted. -/
structure Admitted (cs : Changes) : Prop where
  /-- The names are those of settings. -/
  names : ∀ c ∈ cs, isSetting c.1 = true
  /-- The values are finite and positive. -/
  values : ∀ setting q, entry cs setting.name = some q → Checked setting q (.ok ())

/-- A setting of `t.changed cs` is accepted exactly if what `cs` brings for it is, since `t` is
valid. -/
theorem checked_get_changed {t : Timing} (ht : t.Valid) {cs : Changes} (setting : Setting) :
    Checked setting ((t.changed cs).get setting) (.ok ()) ↔
      ∀ q, entry cs setting.name = some q → Checked setting q (.ok ()) := by
  rw [get_changed]
  cases entry cs setting.name with
  | none => exact iff_of_true (valid_iff.1 ht setting) fun q hq => absurd hq (by simp)
  | some q => simp

/-- A setting of `t.changed cs` is refused exactly for what `cs` brings for it, since `t` is valid.
-/
theorem not_checked_get_changed {t : Timing} (ht : t.Valid) {cs : Changes} (setting : Setting)
    {f : Failure} : Checked setting ((t.changed cs).get setting) (.error f) ↔
      ∃ q, entry cs setting.name = some q ∧ Checked setting q (.error f) := by
  rw [get_changed]
  cases entry cs setting.name with
  | none =>
    -- the old value is accepted, as it was before
    refine iff_of_false (fun h => ?_) (by simp)
    exact absurd (h.unique (valid_iff.1 ht setting)) (by simp)
  | some q => simp

/-- If `t.replace cs = .ok t'`, then `t' = t.changed cs`, which is valid. -/
theorem replace_eq_ok {t t' : Timing} {cs : Changes} (h : t.replace cs = .ok t') :
    (∀ c ∈ cs, isSetting c.1 = true) ∧ t' = t.changed cs ∧ t'.Valid := by
  rw [replace_eq] at h
  obtain ⟨⟨⟩, hnames, h⟩ := bind_eq_ok_iff.1 h
  obtain ⟨hvalid, rfl⟩ := make_eq_ok_iff_valid.1 h
  exact ⟨checkNames_eq_ok_iff.1 hnames, rfl, hvalid⟩

/-- **`t.replace cs = .ok t'`** exactly if `t` admits the changes and `t'` is the changed timing. -/
theorem replace_eq_ok_iff {t t' : Timing} (ht : t.Valid) {cs : Changes} :
    t.replace cs = .ok t' ↔ Admitted cs ∧ t' = t.changed cs := by
  rw [replace_eq, bind_eq_ok_iff]
  simp only [make_eq_ok_iff_valid, valid_iff, checked_get_changed ht]
  constructor
  · rintro ⟨⟨⟩, hnames, hvalues, rfl⟩
    exact ⟨⟨checkNames_eq_ok_iff.1 hnames, hvalues⟩, rfl⟩
  · rintro ⟨hadmitted, rfl⟩
    exact ⟨(), checkNames_eq_ok_iff.2 hadmitted.names, hadmitted.values, rfl⟩

/-- **`t.replace cs = .error f`** exactly if `Refusal cs f`. -/
theorem replace_eq_error_iff {t : Timing} (ht : t.Valid) {cs : Changes} {f : Failure} :
    t.replace cs = .error f ↔ Refusal cs f := by
  rw [replace_eq, bind_eq_error_iff]
  simp only [make_eq_error_iff]
  constructor
  · rintro (hnames | ⟨⟨⟩, hnames, hbase | ⟨hbase, htempo⟩⟩)
    · obtain ⟨before, c, hposition, hbefore, hmisnamed⟩ := checkNames_eq_error_iff.1 hnames
      exact .name hposition hbefore hmisnamed
    · obtain ⟨q, hq, hrefused⟩ := (not_checked_get_changed ht .baseDuration).1 hbase
      exact .base (checkNames_eq_ok_iff.1 hnames) hq hrefused
    · obtain ⟨q, hq, hrefused⟩ := (not_checked_get_changed ht .tempo).1 htempo
      exact .tempo (checkNames_eq_ok_iff.1 hnames) ((checked_get_changed ht .baseDuration).1 hbase)
        hq hrefused
  · intro h
    cases h with
    | name hposition hbefore hmisnamed =>
      exact .inl (checkNames_eq_error_iff.2 ⟨_, _, hposition, hbefore, hmisnamed⟩)
    | base hnames hq hrefused =>
      refine .inr ⟨(), checkNames_eq_ok_iff.2 hnames, .inl ?_⟩
      exact (not_checked_get_changed ht .baseDuration).2 ⟨_, hq, hrefused⟩
    | tempo hnames hbase hq hrefused =>
      refine .inr ⟨(), checkNames_eq_ok_iff.2 hnames, .inr ⟨?_, ?_⟩⟩
      · exact (checked_get_changed ht .baseDuration).2 hbase
      · exact (not_checked_get_changed ht .tempo).2 ⟨_, hq, hrefused⟩

/-! ## Overrides -/

/-- **An override** is refused for a change of the timing's own name, and otherwise it is the
replacement by the changes that give a value. -/
theorem override_eq (t : Timing) (cs : Changes) : t.override cs =
    if ∃ c ∈ cs, c.1 = ownName then .error (.nameTaken ownName) else t.replace (giving cs) := by
  rw [override]
  simp only [List.any_eq_true, beq_iff_eq]
  rfl

/-- `t.override cs = .error (.nameTaken ownName)` if a change has the name `ownName`, even one that
gives nothing. -/
theorem override_of_own {cs : Changes} (h : ∃ c ∈ cs, c.1 = ownName) (t : Timing) :
    t.override cs = .error (.nameTaken ownName) := by
  rw [override_eq, if_pos h]

/-- `t.override cs = t.replace (giving cs)` if no change has the timing's own name. -/
theorem override_of_others {cs : Changes} (h : ∀ c ∈ cs, c.1 ≠ ownName) (t : Timing) :
    t.override cs = t.replace (giving cs) := by
  rw [override_eq, if_neg fun ⟨c, hc, hown⟩ => h c hc hown]

/-- If `t.override cs = .ok t'`, then `t.replace (giving cs) = .ok t'`. -/
theorem override_eq_ok {t t' : Timing} {cs : Changes} (h : t.override cs = .ok t') :
    (∀ c ∈ cs, c.1 ≠ ownName) ∧ t.replace (giving cs) = .ok t' := by
  rw [override_eq] at h
  split at h
  · exact absurd h (by simp)
  · next hothers => exact ⟨fun c hc hown => hothers ⟨c, hc, hown⟩, h⟩

/-- **`t'.get setting` is what `cs` gives for it**, and `t.get setting` otherwise, if
`t.override cs = .ok t'`. -/
theorem get_of_override {t t' : Timing} {cs : Changes} (h : t.override cs = .ok t')
    (setting : Setting) : t'.get setting = (given cs setting.name).getD (t.get setting) := by
  obtain ⟨-, rfl, -⟩ := replace_eq_ok (override_eq_ok h).2
  exact get_changed t (giving cs) setting

/-- Changes that all give a value are never refused with `.wrongType`. -/
theorem Refusal.ne_wrongType {cs : Changes} {f : Failure} (h : Refusal (giving cs) f) :
    f ≠ .wrongType := by
  cases h with
  | @name _ c _ _ _ hmisnamed =>
    generalize c.1 = name at hmisnamed
    cases hmisnamed <;> simp
  | @base q _ _ hq hrefused =>
    have hne := (mem_of_given hq).2
    cases hrefused <;> first | exact absurd rfl hne | simp
  | @tempo q _ _ _ hq hrefused =>
    have hne := (mem_of_given hq).2
    cases hrefused <;> first | exact absurd rfl hne | simp

/-! ## Updated changes -/

/-- **Changes updated by other ones**: `new` decides about the names of `old`, which keep their places,
and the rest of `new` follows. -/
def update (old new : Changes) : Changes :=
  (old.map fun c => (c.1, (entry new c.1).getD c.2)) ++
    new.filter fun c => (entry old c.1).isNone

/-- `given (giving cs) name = given cs name`, for what gives nothing is left out already. -/
theorem given_giving (cs : Changes) (name : String) : given (giving cs) name = given cs name := by
  rw [given, given, giving, giving, List.filter_filter]
  simp only [Bool.and_self]

/-- A change of `update old new` is one of `new`, or it has its name from `old`. -/
theorem mem_update {old new : Changes} {c : String × Quantity} (h : c ∈ update old new) :
    c ∈ new ∨ ∃ b ∈ old, b.1 = c.1 ∧ c.2 = (entry new c.1).getD b.2 := by
  rcases List.mem_append.1 h with h | h
  · obtain ⟨b, hb, rfl⟩ := List.mem_map.1 h
    exact .inr ⟨b, hb, rfl, rfl⟩
  · exact .inl (List.mem_filter.1 h).1

/-- **`update old (giving new)` gives what `new` gives, and otherwise what `old` gives.** -/
theorem given_update (old new : Changes) (name : String) :
    given (update old (giving new)) name = (given new name).or (given old name) := by
  rw [update, given_append]
  cases hnew : given new name with
  | none =>
    have hkept : ∀ c ∈ old, c.1 = name → (entry (giving new) c.1).getD c.2 = c.2 := by
      rintro c - rfl
      rw [← given, hnew, Option.getD_none]
    have hrest : given ((giving new).filter fun c => (entry old c.1).isNone) name = none :=
      given_eq_none fun q hq =>
        absurd rfl (entry_eq_none_iff.1 hnew _ (List.mem_filter.1 hq).1)
    rw [given_map hkept, hrest, Option.or_none, Option.none_or]
  | some q =>
    rw [Option.some_or]
    cases hold : entry old name with
    | none =>
      -- the first part has no change of this name
      have hfirst : given (old.map fun c => (c.1, (entry (giving new) c.1).getD c.2)) name = none := by
        refine given_eq_none fun q' hq' => ?_
        obtain ⟨b, hb, heq⟩ := List.mem_map.1 hq'
        exact absurd (congrArg Prod.fst heq) (entry_eq_none_iff.1 hold b hb)
      rw [hfirst, Option.none_or, given_filter (p := fun n => (entry old n).isNone) (by rw [hold]; rfl),
        given_giving, hnew]
    | some q₀ =>
      have hfirst : given (old.map fun c => (c.1, (entry (giving new) c.1).getD c.2)) name =
          some q := by
        refine given_eq_some (mem_of_given hnew).2
          (List.mem_map.2 ⟨_, mem_of_entry hold, ?_⟩) fun q' hq' => ?_
        · rw [← given, hnew, Option.getD_some]
        · obtain ⟨b, -, heq⟩ := List.mem_map.1 hq'
          obtain ⟨rfl, rfl⟩ := Prod.mk.inj heq
          rw [← given, hnew, Option.getD_some]
      rw [hfirst, Option.some_or]

/-- `checkNames (cs ++ cs')` checks `cs` and then `cs'`. -/
theorem checkNames_append (cs cs' : Changes) :
    checkNames (cs ++ cs') = checkNames cs >>= fun _ => checkNames cs' :=
  List.forM_append

/-- **The names of updated changes** are refused as those of the later ones are, if the earlier changes
give values for settings only and the later ones give none for another name of theirs. -/
theorem checkNames_update {old new : Changes} (hold : ∀ c ∈ giving old, isSetting c.1 = true)
    (hshared : ∀ c ∈ old, (given new c.1).isSome → isSetting c.1 = true) :
    checkNames (giving (update old (giving new))) = checkNames (giving new) := by
  rw [giving, update, List.filter_append, ← giving, ← giving, checkNames_append]
  have hfirst : checkNames (giving (old.map fun c => (c.1, (entry (giving new) c.1).getD c.2))) =
      .ok () := by
    refine checkNames_eq_ok_iff.2 fun c hc => ?_
    obtain ⟨hmem, hne⟩ := mem_giving_iff.1 hc
    obtain ⟨b, hb, rfl⟩ := List.mem_map.1 hmem
    cases hgiven : given new b.1 with
    | none =>
      rw [← given, hgiven, Option.getD_none] at hne
      exact hold b (mem_giving_iff.2 ⟨hb, hne⟩)
    | some q => exact hshared b hb (by rw [hgiven, Option.isSome_some])
  have hrest : giving ((giving new).filter fun c => (entry old c.1).isNone) =
      (giving new).filter fun c => (entry old c.1).isNone :=
    giving_eq_self fun c hc => (mem_giving_iff.1 (List.mem_filter.1 hc).1).2
  rw [hfirst, ok_bind, hrest]
  -- the changes of `new` that are left out have the name of a setting
  refine forM_filter fun c hc hleft => checkName_eq_ok_iff.2 ?_
  obtain ⟨q, hq⟩ := Option.isSome_iff_exists.1 (Option.isNone_eq_false_iff.1 hleft)
  obtain ⟨q', hgiven⟩ := exists_given_of_mem hc
  exact hshared (c.1, q) (mem_of_entry hq) (by rw [hgiven, Option.isSome_some])

/-- `t.replace cs = t'.replace cs'` if `checkNames` and the changed settings are the same. -/
theorem replace_congr {t t' : Timing} {cs cs' : Changes} (hnames : checkNames cs = checkNames cs')
    (hvalues : ∀ setting, (t.changed cs).get setting = (t'.changed cs').get setting) :
    t.replace cs = t'.replace cs' := by
  have hbase : (t.changed cs).base = (t'.changed cs').base := hvalues .baseDuration
  have htempo : (t.changed cs).tempo = (t'.changed cs').tempo := hvalues .tempo
  rw [replace_eq, replace_eq, hnames, hbase, htempo]

/-- The timing's own name stands in `update old (giving new)` if `old` does not have it and `new`
gives it a value. -/
theorem own_mem_update_iff {old new : Changes} (hold : ∀ c ∈ old, c.1 ≠ ownName) :
    (∃ c ∈ update old (giving new), c.1 = ownName) ↔ ∃ c ∈ giving new, c.1 = ownName := by
  constructor
  · rintro ⟨c, hc, hown⟩
    rcases mem_update hc with hc | ⟨b, hb, hname, -⟩
    · exact ⟨c, hc, hown⟩
    · exact absurd (hname.trans hown) (hold b hb)
  · rintro ⟨c, hc, hown⟩
    have hnone : entry old c.1 = none :=
      entry_eq_none_iff.2 fun b hb hname => hold b hb (hname.trans hown)
    exact ⟨c, List.mem_append_right _ (List.mem_filter.2 ⟨hc, by rw [hnone]; rfl⟩), hown⟩

section Composition

variable {t t₁ : Timing} {first second : Changes} (h : t.override first = .ok t₁)

include h

/-- Both ways lead to the same settings, before they are checked. -/
theorem get_changed_update (setting : Setting) :
    (t₁.changed (giving second)).get setting =
      (t.changed (giving (update first (giving second)))).get setting := by
  rw [get_changed, get_changed, get_of_override h, ← given, ← given, given_update]
  cases given second setting.name <;> rfl

/-- `(t.override first).override second = t.override (update first (giving second))` if none of the
changes of `second` gives nothing under the timing's own name, and none of the names of `first` for
which `second` gives a value is unknown. -/
theorem override_override (hown : ∀ q, (ownName, q) ∈ second → q ≠ .absent)
    (hshared : ∀ c ∈ first, (given second c.1).isSome → isSetting c.1 = true) :
    t₁.override second = t.override (update first (giving second)) := by
  obtain ⟨hfirst, hreplace⟩ := override_eq_ok h
  by_cases hsecond : ∃ c ∈ second, c.1 = ownName
  · obtain ⟨c, hc, hname⟩ := hsecond
    have hgiving : c ∈ giving second := mem_giving_iff.2 ⟨hc, hown c.2 (hname ▸ hc)⟩
    rw [override_of_own ⟨c, hc, hname⟩,
      override_of_own ((own_mem_update_iff hfirst).2 ⟨c, hgiving, hname⟩)]
  · have hothers : ∀ c ∈ second, c.1 ≠ ownName := fun c hc hname => hsecond ⟨c, hc, hname⟩
    have hupdate : ∀ c ∈ update first (giving second), c.1 ≠ ownName := by
      intro c hc hname
      obtain ⟨b, hb, hown⟩ := (own_mem_update_iff hfirst).1 ⟨c, hc, hname⟩
      exact hothers b (mem_giving_iff.1 hb).1 hown
    rw [override_of_others hothers, override_of_others hupdate]
    refine replace_congr ?_ (get_changed_update h)
    exact (checkNames_update (replace_eq_ok hreplace).1 hshared).symm

/-- In any case the outcomes differ at most in the name of `.unknownSetting`. -/
theorem override_override_cases (hsecond : ∀ c ∈ second, c.1 ≠ ownName) :
    t₁.override second = t.override (update first (giving second)) ∨
      ∃ name name', t₁.override second = .error (.unknownSetting name) ∧
        t.override (update first (giving second)) = .error (.unknownSetting name') := by
  have hown : ∀ q, (ownName, q) ∈ second → q ≠ .absent := fun q hq => absurd rfl (hsecond _ hq)
  by_cases hknown : ∀ c ∈ giving second, isSetting c.1 = true
  · refine .inl (override_override h hown fun c _ hgiven => ?_)
    obtain ⟨q, hq⟩ := Option.isSome_iff_exists.1 hgiven
    exact hknown (c.1, q) (mem_of_entry hq)
  · have hupdate : ∀ c ∈ update first (giving second), c.1 ≠ ownName := by
      intro c hc hname
      obtain ⟨b, hb, hown⟩ := (own_mem_update_iff (override_eq_ok h).1).1 ⟨c, hc, hname⟩
      exact hsecond b (mem_giving_iff.1 hb).1 hown
    rw [override_of_others hsecond, override_of_others hupdate, replace_eq, replace_eq]
    have hgiving (cs : Changes) (hcs : ∀ c ∈ cs, c.1 ≠ ownName)
        (hunknown : ¬∀ c ∈ giving cs, isSetting c.1 = true) :
        ∃ name, checkNames (giving cs) = .error (.unknownSetting name) := by
      refine (checkNames_cases fun c hc => hcs c (mem_giving_iff.1 hc).1).resolve_left ?_
      exact fun hok => hunknown (checkNames_eq_ok_iff.1 hok)
    obtain ⟨name, hname⟩ := hgiving second hsecond hknown
    -- what `second` gives for an unknown name is given by the updated changes, too
    obtain ⟨name', hname'⟩ := hgiving (update first (giving second)) hupdate fun hall =>
      hknown fun c hc => by
        obtain ⟨q, hq⟩ := exists_given_of_mem hc
        have hboth : given (update first (giving second)) c.1 = some q := by
          rw [given_update, hq, Option.some_or]
        exact hall (c.1, q) (mem_of_entry hboth)
    exact .inr ⟨name, name', by rw [hname, error_bind], by rw [hname', error_bind]⟩

end Composition

/-! ## Steps -/

/-- What can be done to get from the timing in use to another one. -/
inductive Step
  /-- The standard timing is taken. -/
  | standard
  /-- The slow timing is taken. -/
  | slow
  /-- The fast timing is taken. -/
  | fast
  /-- A timing is made up of some settings and the standard ones. -/
  | construct (changes : Changes)
  /-- Some settings are overridden. -/
  | override (changes : Changes)

/-- The timing that a step leads to. -/
def attempt (t : Timing) : Step → Except Failure Timing
  | .standard => .ok standard
  | .slow => .ok slow
  | .fast => .ok fast
  | .construct changes => construct changes
  | .override changes => t.override changes

/-- The timing in use after a step: the same one if the step fails. -/
def next (t : Timing) (step : Step) : Timing :=
  match t.attempt step with
  | .ok t' => t'
  | .error _ => t

/-- The timing in use after some steps, which is `standard` at first. -/
def after (steps : List Step) : Timing := steps.foldl next standard

/-- **The timing that a step reaches** from the timing `t`. Nothing is no value for a construction, and
leaves a setting as it is for an override. -/
def Step.Reaches (t : Timing) : Step → Timing → Prop
  | .standard, t' => t' = Timing.standard
  | .slow, t' => t' = Timing.slow
  | .fast, t' => t' = Timing.fast
  | .construct changes, t' => Admitted changes ∧ t' = Timing.standard.changed changes
  | .override changes, t' => (∀ c ∈ changes, c.1 ≠ ownName) ∧ Admitted (giving changes) ∧
      t' = t.changed (giving changes)

/-- **The failures of a step.** -/
def Step.Refuses : Step → Failure → Prop
  | .standard, _ | .slow, _ | .fast, _ => False
  | .construct changes, f => Refusal changes f
  | .override changes, f => (∃ c ∈ changes, c.1 = ownName) ∧ f = .nameTaken ownName ∨
      (∀ c ∈ changes, c.1 ≠ ownName) ∧ Refusal (giving changes) f

@[simp] theorem after_append_singleton (steps : List Step) (step : Step) :
    after (steps ++ [step]) = (after steps).next step := by
  simp [after]

/-- `standard`, `slow` and `fast` are valid. -/
theorem valid_readyMade : standard.Valid ∧ slow.Valid ∧ fast.Valid := by
  have hstandard : make standard.base standard.tempo = .ok standard := rfl
  have hslow : make slow.base slow.tempo = .ok slow := rfl
  have hfast : make fast.base fast.tempo = .ok fast := rfl
  exact ⟨(make_eq_ok_iff_valid.1 hstandard).1, (make_eq_ok_iff_valid.1 hslow).1,
    (make_eq_ok_iff_valid.1 hfast).1⟩

/-- **What a step reaches**: `t.attempt step = .ok t'` exactly if `step.Reaches t t'`. -/
theorem attempt_eq_ok_iff {t t' : Timing} (ht : t.Valid) {step : Step} :
    t.attempt step = .ok t' ↔ step.Reaches t t' := by
  cases step with
  | standard | slow | fast => rw [attempt, Step.Reaches, Except.ok.injEq, eq_comm]
  | construct changes =>
    rw [attempt, construct, Step.Reaches, replace_eq_ok_iff valid_readyMade.1]
  | override changes =>
    rw [attempt, Step.Reaches]
    constructor
    · intro h
      obtain ⟨hothers, h⟩ := override_eq_ok h
      exact ⟨hothers, (replace_eq_ok_iff ht).1 h⟩
    · rintro ⟨hothers, h⟩
      rw [override_of_others hothers, replace_eq_ok_iff ht]
      exact h

/-- **How a step fails**: `t.attempt step = .error f` exactly if `step.Refuses f`. -/
theorem attempt_eq_error_iff {t : Timing} (ht : t.Valid) {step : Step} {f : Failure} :
    t.attempt step = .error f ↔ step.Refuses f := by
  cases step with
  | standard | slow | fast => rw [attempt, Step.Refuses]; simp
  | construct changes =>
    rw [attempt, construct, Step.Refuses, replace_eq_error_iff valid_readyMade.1]
  | override changes =>
    rw [attempt, Step.Refuses, override_eq]
    split
    · next hown =>
      refine ⟨fun h => .inl ⟨hown, (Except.error.inj h).symm⟩, ?_⟩
      rintro (⟨-, rfl⟩ | ⟨hothers, -⟩)
      · rfl
      · obtain ⟨c, hc, hname⟩ := hown
        exact absurd hname (hothers c hc)
    · next hown =>
      rw [replace_eq_error_iff ht]
      refine ⟨fun h => .inr ⟨fun c hc hname => hown ⟨c, hc, hname⟩, h⟩, ?_⟩
      rintro (⟨h, -⟩ | ⟨-, h⟩)
      · exact absurd h hown
      · exact h

/-- `t.next step = t'` if `t.attempt step = .ok t'`. -/
theorem next_of_ok {t t' : Timing} {step : Step} (h : t.attempt step = .ok t') :
    t.next step = t' := by
  rw [next, h]

/-- `t.next step = t` if the attempt fails. -/
theorem next_of_error {t : Timing} {step : Step} {f : Failure} (h : t.attempt step = .error f) :
    t.next step = t := by
  rw [next, h]

/-- `t'.Valid` if `step.Reaches t t'` and `t.Valid`. -/
theorem Step.Reaches.valid {t t' : Timing} (ht : t.Valid) {step : Step} (h : step.Reaches t t') :
    t'.Valid := by
  obtain ⟨hstandard, hslow, hfast⟩ := valid_readyMade
  cases step with
  | standard => exact h ▸ hstandard
  | slow => exact h ▸ hslow
  | fast => exact h ▸ hfast
  | construct changes => exact (replace_eq_ok ((replace_eq_ok_iff hstandard).2 h)).2.2
  | override changes => exact (replace_eq_ok ((replace_eq_ok_iff ht).2 h.2)).2.2

/-- **`(after steps).Valid`**, whatever was done before. -/
theorem valid_after (steps : List Step) : (after steps).Valid := by
  induction steps using List.reverseRecOn with
  | nil => exact valid_readyMade.1
  | append_singleton steps step ih =>
    rw [after_append_singleton]
    cases h : (after steps).attempt step with
    | ok t' =>
      rw [next_of_ok h]
      exact ((attempt_eq_ok_iff ih).1 h).valid ih
    | error f =>
      rw [next_of_error h]
      exact ih

/-- **Every timing that is reached is valid, and overrides compose.** After any steps both settings
of the timing in use are finite and positive. The next step reaches exactly what `Step.Reaches`
says, or it is refused exactly as `Step.Refuses` says and leaves the timing in use as it is; an
override is never refused with `.wrongType`, and it leaves every setting as it is for which it gives
`.absent` only.

After `t.override first = .ok t₁`, the outcome of `t₁.override second` is that of the single
override `t.override (update first (giving second))`, if no change of `second` is `.absent` under
the name `ownName` and no unknown name of `first` is given a value by `second`. A change of the name
`ownName` is always refused; without one, the two outcomes are the same or both report an unknown
name. -/
theorem reached_valid_and_overrides_compose :
    (∀ steps, (after steps).Valid ∧ ∀ step,
      (∀ t, (after steps).attempt step = .ok t ↔ step.Reaches (after steps) t) ∧
      (∀ f, (after steps).attempt step = .error f ↔ step.Refuses f) ∧
      (∀ t, (after steps).attempt step = .ok t → after (steps ++ [step]) = t) ∧
      ∀ f, (after steps).attempt step = .error f → after (steps ++ [step]) = after steps) ∧
    (∀ changes, ¬(Step.override changes).Refuses .wrongType) ∧
    (∀ (t t' : Timing) (changes : Changes), t.override changes = .ok t' → ∀ setting : Setting,
      (∀ q, (setting.name, q) ∈ changes → q = .absent) → t'.get setting = t.get setting) ∧
    ∀ (t t₁ : Timing) (first second : Changes), t.override first = .ok t₁ →
      ((∀ q, (ownName, q) ∈ second → q ≠ .absent) →
        (∀ c ∈ first, (given second c.1).isSome → isSetting c.1 = true) →
        t₁.override second = t.override (update first (giving second))) ∧
      ((∃ c ∈ second, c.1 = ownName) → t₁.override second = .error (.nameTaken ownName)) ∧
      ((∀ c ∈ second, c.1 ≠ ownName) →
        t₁.override second = t.override (update first (giving second)) ∨
          ∃ name name', t₁.override second = .error (.unknownSetting name) ∧
            t.override (update first (giving second)) = .error (.unknownSetting name')) := by
  refine ⟨fun steps => ⟨valid_after steps, fun step => ?_⟩, fun changes h => ?_,
    fun t t' changes h setting habsent => ?_, fun t t₁ first second h =>
      ⟨override_override h, fun hown => override_of_own hown t₁, override_override_cases h⟩⟩
  · rw [after_append_singleton]
    exact ⟨fun t => attempt_eq_ok_iff (valid_after steps),
      fun f => attempt_eq_error_iff (valid_after steps), fun t => next_of_ok, fun f => next_of_error⟩
  · rcases h with ⟨-, h⟩ | ⟨-, h⟩
    · exact absurd h (by simp)
    · exact h.ne_wrongType rfl
  · rw [get_of_override h, given_eq_none habsent, Option.getD_none]

/-- The tempo is given as an integer, then the length of the unit as a double. -/
theorem reached_valid_and_overrides_compose_ninety :
    standard.override [("tempo", .int 90), ("base_duration", .absent)] =
        .ok ⟨.float 1.0, .int 90⟩ ∧
      (⟨.float 1.0, .int 90⟩ : Timing).get .baseDuration = standard.get .baseDuration ∧
      (⟨.float 1.0, .int 90⟩ : Timing).override [("tempo", .absent), ("base_duration", .float 0.5)] =
        standard.override [("tempo", .int 90), ("base_duration", .float 0.5)] ∧
      (⟨.float 1.0, .int 90⟩ : Timing).override [("tempo", .int 0), (ownName, .absent)] =
        .error (.nameTaken ownName) := by
  have h : standard.override [("tempo", .int 90), ("base_duration", .absent)] =
      .ok ⟨.float 1.0, .int 90⟩ := by rfl
  obtain ⟨-, -, hkeeps, hcompose⟩ := reached_valid_and_overrides_compose
  have hupdate : update [("tempo", .int 90), ("base_duration", .absent)]
      (giving [("tempo", .absent), ("base_duration", .float 0.5)]) =
      [("tempo", .int 90), ("base_duration", .float 0.5)] := by rfl
  have hown : ∀ q, (ownName, q) ∈ [("tempo", .absent), ("base_duration", .float 0.5)] →
      q ≠ Quantity.absent := by
    simp [ownName]
  have hshared : ∀ c ∈ ([("tempo", .int 90), ("base_duration", .absent)] : Changes),
      (given [("tempo", .absent), ("base_duration", .float 0.5)] c.1).isSome →
        isSetting c.1 = true := by
    decide +revert
  refine ⟨h, hkeeps _ _ _ h .baseDuration (by simp [Setting.name]), ?_, ?_⟩
  · rw [(hcompose _ _ _ _ h).1 hown hshared, hupdate]
  · exact (hcompose _ _ _ _ h).2.1 ⟨_, List.mem_cons_of_mem _ List.mem_cons_self, rfl⟩

/-- **Two overrides do not always come to the same as one.** A change of the name `ownName` is
refused although it gives nothing, and then nothing of it is left in the updated changes. A name
that `first` gives nothing for keeps its place there, so that another unknown name is reported. -/
theorem override_override_ne :
    standard.override [] = .ok standard ∧
      standard.override [(ownName, .absent)] = .error (.nameTaken ownName) ∧
      standard.override (update [] (giving [(ownName, .absent)])) = .ok standard ∧
    standard.override [("swing", .absent)] = .ok standard ∧
      standard.override [("volume", .float 1.0), ("swing", .float 2.0)] =
        .error (.unknownSetting "volume") ∧
      standard.override (update [("swing", .absent)]
          (giving [("volume", .float 1.0), ("swing", .float 2.0)])) =
        .error (.unknownSetting "swing") :=
  ⟨rfl, rfl, rfl, rfl, rfl, rfl⟩

end Monochord.Timing
