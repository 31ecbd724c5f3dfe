import Mathlib.Data.List.Perm.Basic
import Mathlib.Logic.Function.Basic
import Monochord.Proofs.Timing
import Monochord.Timing.Environment

/-! # What the environment makes of a timing

The variables are read one by one, and each value is tried on a timing that is checked as a whole.
Since the timing has been accepted before, only the new value can be refused, so that in the end every
setting depends on its own variable alone.

* **`Timing.ofValues`**, **`Timing.checked`** — timings of doubles.
* **`Timing.replace_changes`** — several values replaced at once; **`Timing.override_accepted`**,
  **`Timing.override_refused`**: one.
* **`Environment.value`**, **`Environment.warnings`** — what a variable means for its setting, and what
  is reported about it.
* **`Environment.timing_spec`** — all variables together. -/

namespace Monochord

/-! ## Timings of doubles -/

namespace Timing

open Binary64

/-- A double `x` that is accepted as a setting: a finite positive one. -/
def accepts (x : Float) : Bool := x.isFinite && 0.0 < x

/-- A timing, from a double for each setting. -/
def ofValues (v : Setting → Float) : Timing := ⟨.float (v .baseDuration), .float (v .tempo)⟩

/-- A checked timing, from a double for each setting. -/
def checked (v : Setting → Float) : Except Failure Timing :=
  make (.float (v .baseDuration)) (.float (v .tempo))

/-- The doubles of the standard timing. -/
def standardValue : Setting → Float
  | .baseDuration => 1.0
  | .tempo => 120.0

variable {v : Setting → Float}

/-- `standard` is a timing of doubles. -/
theorem standard_eq : standard = ofValues standardValue := rfl

/-- `standardValue setting` is accepted. -/
theorem accepts_standardValue (setting : Setting) : accepts (standardValue setting) = true := by
  cases setting <;> decide

/-- `checkSetting setting (.float x)` is what `accepts x` says. -/
theorem checkSetting_float (setting : Setting) (x : Float) : checkSetting setting (.float x) =
    if accepts x then .ok () else .error (.settingNotPositive setting (natural x)) := rfl

/-- **`checked v = .ok (ofValues v)` if all doubles are accepted.** -/
theorem checked_eq_ok (h : ∀ setting, accepts (v setting) = true) : checked v = .ok (ofValues v) := by
  refine make_eq_ok_iff.2 ⟨?_, ?_, rfl⟩
  · rw [checkSetting_float, if_pos (h .baseDuration)]
  · rw [checkSetting_float, if_pos (h .tempo)]

/-- **`checked v` reports one of the doubles that are not accepted**, if there is one. -/
theorem exists_checked_eq_error (h : ∃ setting, accepts (v setting) = false) :
    ∃ setting, accepts (v setting) = false ∧
      checked v = .error (.settingNotPositive setting (natural (v setting))) := by
  by_cases hbase : accepts (v .baseDuration) = true
  · obtain ⟨setting, hrefused⟩ := h
    cases setting with
    | baseDuration => exact absurd (hbase.symm.trans hrefused) (by decide)
    | tempo =>
      refine ⟨.tempo, hrefused, ?_⟩
      rw [checked, make, checkSetting_float, if_pos hbase, ok_bind, checkSetting_float, hrefused]
      rfl
  · refine ⟨.baseDuration, Bool.eq_false_iff.2 hbase, ?_⟩
    rw [checked, make, checkSetting_float, if_neg hbase]
    rfl

/-! ## Replacing values -/

/-- The change of a setting to a double, if there is one. -/
def changeTo (setting : Setting) : Option Float → Changes
  | none => []
  | some x => [(setting.name, .float x)]

/-- **`replace` puts new doubles in the place of old ones**, and `checked` is the check of the
whole. -/
theorem replace_changes (new : Setting → Option Float) :
    (ofValues v).replace (changeTo .tempo (new .tempo) ++
      changeTo .baseDuration (new .baseDuration)) =
      checked fun setting => (new setting).getD (v setting) := by
  rw [checked]
  cases new .tempo <;> cases new .baseDuration <;> rfl

/-- `(ofValues v).override [(setting.name, .absent)] = .ok (ofValues v)`: nothing in the place of a
value leaves a timing as it is. -/
theorem override_absent (h : ∀ setting, accepts (v setting) = true) (setting : Setting) :
    (ofValues v).override [(setting.name, .absent)] = .ok (ofValues v) := by
  rw [← checked_eq_ok h]
  cases setting <;> rfl

/-- `override` by one double `x` is `checked (Function.update v setting x)`. -/
theorem override_float (setting : Setting) (x : Float) :
    (ofValues v).override [(setting.name, .float x)] = checked (Function.update v setting x) := by
  cases setting <;> rfl

/-- `override` by a double that is accepted is `ofValues (Function.update v setting x)`. -/
theorem override_accepted (h : ∀ setting, accepts (v setting) = true) (setting : Setting) {x : Float}
    (hx : accepts x = true) : (ofValues v).override [(setting.name, .float x)] =
      .ok (ofValues (Function.update v setting x)) := by
  rw [override_float]
  refine checked_eq_ok fun other => ?_
  by_cases hother : other = setting
  · rw [hother, Function.update_self]
    exact hx
  · rw [Function.update_of_ne hother]
    exact h other

/-- `override` by a double that is not accepted is refused with `.settingNotPositive setting`. -/
theorem override_refused (h : ∀ setting, accepts (v setting) = true) (setting : Setting) {x : Float}
    (hx : accepts x = false) : (ofValues v).override [(setting.name, .float x)] =
      .error (.settingNotPositive setting (natural x)) := by
  rw [override_float]
  have hself : accepts (Function.update v setting x setting) = false := by
    rw [Function.update_self]
    exact hx
  obtain ⟨other, hrefused, heq⟩ := exists_checked_eq_error ⟨setting, hself⟩
  -- the other setting has been accepted before
  obtain rfl : other = setting := by
    by_contra hother
    rw [Function.update_of_ne hother, h other] at hrefused
    exact absurd hrefused (by decide)
  rw [heq, Function.update_self]

end Timing

/-! ## Variables -/

namespace Environment

open Timing Binary64

variable (env : Environment) (setting : Setting)

/-- The variable for a setting. -/
def variableFor : Setting → String
  | .baseDuration => "CHORD_TOOL_BASE_DURATION"
  | .tempo => "CHORD_TOOL_TEMPO"

/-- What a variable holds, without the blanks around it; a variable that is not set holds nothing. -/
def entry : String := Text.trimmed ((env.get? (variableFor setting)).getD "")

/-- The number in a variable. -/
def read? : Option Float :=
  if env.entry setting = "" then none else wholeNumber? (env.entry setting)

/-- The number in a variable, if it is accepted. -/
def accepted? : Option Float := (env.read? setting).filter accepts

/-- **The value of a setting**: the number in its variable if that is accepted, and the standard
value otherwise. -/
def value : Float := (env.accepted? setting).getD (standardValue setting)

/-- The warning about a variable that holds something, but no number. It names the variable. -/
def unreadable : LogRecord where
  logger := "ingestion.midi_export"
  level := 30
  message := "Ignoring " ++ variableFor setting ++ "=" ++ Text.quote (env.entry setting) ++
    ": not a number"

/-- The warning about a number that is not accepted. It names the setting. -/
def refused (x : Float) : LogRecord where
  logger := "ingestion.midi_export"
  level := 30
  message := "Ignoring environment override for " ++ setting.name ++ ": " ++
    (setting.name ++ " must be positive, got " ++ natural x)

/-- **What is reported about a variable**: nothing if it is blank or if its number is accepted, and
one warning otherwise. -/
def warnings : List LogRecord :=
  if env.entry setting = "" then []
  else match wholeNumber? (env.entry setting) with
    | none => [env.unreadable setting]
    | some x => if accepts x then [] else [refused setting x]

/-- `env.warnings setting = []` for a blank variable. -/
theorem warnings_of_blank (h : env.entry setting = "") : env.warnings setting = [] := by
  rw [warnings, if_pos h]

/-- `env.warnings setting = [env.unreadable setting]` for a variable that holds something else than
a number. -/
theorem warnings_of_unreadable (h : env.entry setting ≠ "")
    (hread : env.read? setting = none) : env.warnings setting = [env.unreadable setting] := by
  rw [read?, if_neg h] at hread
  rw [warnings, if_neg h, hread]

/-- `env.warnings setting = [refused setting x]` for a number `x` that is not accepted, and `[]` for
one that is. -/
theorem warnings_of_number {x : Float} (hread : env.read? setting = some x) :
    env.warnings setting = if accepts x then [] else [refused setting x] := by
  rw [read?] at hread
  split at hread
  · exact absurd hread (by simp)
  · next h => rw [warnings, if_neg h, hread]

variable {env setting}

/-- **`env.number (variableFor setting)`** is the number in the variable without a warning, or
`.absent` with all warnings about it. -/
theorem number_cases (env : Environment) (setting : Setting) :
    (env.read? setting = none ∧
        env.number (variableFor setting) = (.absent, env.warnings setting)) ∨
      ∃ x, env.read? setting = some x ∧ env.number (variableFor setting) = (.float x, []) ∧
        env.warnings setting = if accepts x then [] else [refused setting x] := by
  have hentry : Text.trimmed ((env.get? (variableFor setting)).getD "") = env.entry setting := rfl
  rw [number, hentry, read?, warnings]
  by_cases hblank : env.entry setting = ""
  · rw [if_pos (String.isEmpty_iff.2 hblank), if_pos hblank, if_pos hblank]
    exact .inl ⟨rfl, rfl⟩
  · rw [if_neg fun h => hblank (String.isEmpty_iff.1 h), if_neg hblank, if_neg hblank]
    cases wholeNumber? (env.entry setting) with
    | none => exact .inl ⟨rfl, rfl⟩
    | some x => exact .inr ⟨x, rfl, rfl, rfl⟩

/-- `accepts (env.value setting) = true`. -/
theorem accepts_value (env : Environment) (setting : Setting) :
    accepts (env.value setting) = true := by
  rw [value]
  cases h : env.accepted? setting with
  | none => exact accepts_standardValue setting
  | some x => exact (Option.filter_eq_some_iff.1 h).2

/-! ## One variable after another -/

variable {v : Setting → Float}

/-- `overrideOr t setting q = (t', [])` if `override` leads to `t'`. -/
theorem overrideOr_of_ok {t t' : Timing} {q : Quantity}
    (h : t.override [(setting.name, q)] = .ok t') : overrideOr t setting q = (t', []) := by
  rw [overrideOr, h]

/-- `overrideOr t setting q = (t, [refused setting x])` if `override` finds the value `x` out of
range. -/
theorem overrideOr_of_refused {t : Timing} {q : Quantity} {x : Float}
    (h : t.override [(setting.name, q)] = .error (.settingNotPositive setting (natural x))) :
    overrideOr t setting q = (t, [refused setting x]) := by
  rw [overrideOr, h]
  rfl

/-- **`overrideOr` by the number of a variable** leads to `env.value setting`, and what is reported
when it is read or tried is `env.warnings setting`. -/
theorem exists_overrideOr_eq (h : ∀ other, accepts (v other) = true)
    (hstandard : v setting = standardValue setting) :
    ∃ late, overrideOr (ofValues v) setting (env.number (variableFor setting)).1 =
        (ofValues (Function.update v setting (env.value setting)), late) ∧
      (env.number (variableFor setting)).2 ++ late = env.warnings setting := by
  have hsame (hnone : env.accepted? setting = none) :
      Function.update v setting (env.value setting) = v := by
    rw [value, hnone, Option.getD_none, ← hstandard, Function.update_eq_self]
  rcases number_cases env setting with ⟨hread, hnumber⟩ | ⟨x, hread, hnumber, hwarnings⟩
  · have hnone : env.accepted? setting = none := by
      rw [accepted?, hread, Option.filter_none]
    rw [hnumber, hsame hnone]
    refine ⟨[], overrideOr_of_ok (override_absent h setting), ?_⟩
    rw [List.append_nil]
  · rw [hnumber, hwarnings]
    cases hx : accepts x with
    | true =>
      have hvalue : env.value setting = x := by
        rw [value, accepted?, hread, Option.filter_some_pos hx, Option.getD_some]
      rw [hvalue]
      exact ⟨[], overrideOr_of_ok (override_accepted h setting hx), rfl⟩
    | false =>
      have hnone : env.accepted? setting = none := by
        rw [accepted?, hread, Option.filter_some, hx, if_neg Bool.false_ne_true]
      rw [hsame hnone]
      exact ⟨[refused setting x], overrideOr_of_refused (override_refused h setting hx), rfl⟩

/-- **`override` by the number of a variable fails with `.settingNotPositive` only.** -/
theorem eq_settingNotPositive_of_override (h : ∀ other, accepts (v other) = true) {f : Failure}
    (hf : (ofValues v).override [(setting.name, (env.number (variableFor setting)).1)] =
      .error f) : ∃ x, env.read? setting = some x ∧ accepts x = false ∧
        f = .settingNotPositive setting (natural x) := by
  rcases number_cases env setting with ⟨-, hnumber⟩ | ⟨x, hread, hnumber, -⟩
  · rw [hnumber, override_absent h] at hf
    exact absurd hf (by simp)
  · rw [hnumber] at hf
    cases hx : accepts x with
    | true =>
      rw [override_accepted h setting hx] at hf
      exact absurd hf (by simp)
    | false =>
      rw [override_refused h setting hx] at hf
      exact ⟨x, hread, hx, (Except.error.inj hf).symm⟩

/-- `env.timing` reads the two variables before it tries the first value. -/
theorem timing_of_overrideOr {t t' : Timing} {late late' : List LogRecord}
    (htempo : overrideOr (ofValues standardValue) .tempo (env.number (variableFor .tempo)).1 =
      (t, late))
    (hbase : overrideOr t .baseDuration (env.number (variableFor .baseDuration)).1 = (t', late')) :
    env.timing = (t', (env.number (variableFor .tempo)).2 ++
      (env.number (variableFor .baseDuration)).2 ++ late ++ late') := by
  have htempoVariable : variableFor .tempo = tempoVariable := rfl
  have hbaseVariable : variableFor .baseDuration = baseVariable := rfl
  rw [htempoVariable] at htempo ⊢
  rw [hbaseVariable] at hbase ⊢
  simp only [timing, standard_eq, htempo, hbase]

/-- **`env.timing` is `ofValues env.value`**, with the warnings `env.warnings` about both variables.
-/
theorem timing_spec (env : Environment) : env.timing.1 = ofValues env.value ∧
    env.timing.2.Perm (env.warnings .tempo ++ env.warnings .baseDuration) := by
  obtain ⟨lateTempo, htempo, htempoWarnings⟩ :=
    @exists_overrideOr_eq env .tempo _ accepts_standardValue rfl
  have hfirst (other : Setting) : accepts
      (Function.update standardValue .tempo (env.value .tempo) other) = true := by
    cases other with
    | baseDuration => exact accepts_standardValue .baseDuration
    | tempo => exact accepts_value env .tempo
  obtain ⟨lateBase, hbase, hbaseWarnings⟩ :=
    @exists_overrideOr_eq env .baseDuration _ hfirst rfl
  have hvalues : Function.update (Function.update standardValue .tempo (env.value .tempo))
      .baseDuration (env.value .baseDuration) = env.value := by
    funext setting
    cases setting <;> rfl
  rw [hvalues] at hbase
  rw [timing_of_overrideOr htempo hbase, ← htempoWarnings, ← hbaseWarnings]
  refine ⟨rfl, ?_⟩
  -- the first warning about the unit stands before the second one about the tempo
  rw [List.append_assoc, List.append_assoc, List.append_assoc]
  exact (List.perm_append_comm_assoc _ _ _).append_left _

end Environment

end Monochord
