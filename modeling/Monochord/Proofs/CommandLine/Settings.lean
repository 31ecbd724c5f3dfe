import Monochord.CommandLine.Run
import Monochord.Proofs.Export
import Monochord.Proofs.Timing.Environment

/-! # Which timing the command uses

A setting comes from its option, or else from its variable, or else from the standard timing. A
variable that makes no sense is only reported, but an option that makes no sense ends the command
before it looks at its input. What is exported in the end has been rendered with these values.

* **`Arguments.effective`** — the value of each setting.
* **`settings_eq`** — `settings` is made of these values and checked as a whole.
* **`Ends`** — how the command ends once it has a timing; **`Ends.written`**: what stands in the files
  after `.code 0`.
* **`runArguments_of_refused`**, **`runArguments_of_accepted`** — what becomes of the command.
* **`option_over_variable_over_default`** — all of it together. -/

namespace Monochord.CommandLine

open Timing

/-! ## Values -/

namespace Arguments

/-- What the arguments say about a setting. -/
def given (a : Arguments) : Setting → Given Float
  | .baseDuration => a.base
  | .tempo => a.tempo

/-- The number that an option gives for a setting. -/
def option? (a : Arguments) (setting : Setting) : Option Float := (a.given setting).value?

/-- **The value of a setting**: that of its option if there is one, and that of the environment
otherwise. -/
def effective (a : Arguments) (env : Environment) (setting : Setting) : Float :=
  (a.option? setting).getD (env.value setting)

/-- Arguments that ask for an export and in which no option stands without its value. -/
structure AskForExport (a : Arguments) : Prop where
  /-- They do not ask for help. -/
  help : a.help = false
  /-- The level has its value. -/
  level : a.level.isBlank = false
  /-- The settings have their values. -/
  given : ∀ setting, (a.given setting).isBlank = false

end Arguments

variable {a : Arguments}

/-- `change setting g` is the change to the value of the option, if it is not blank. -/
theorem change_eq {setting : Setting} {g : Given Float} (h : g.isBlank = false) :
    change setting g = changeTo setting g.value? := by
  cases g with
  | absent => rfl
  | blank => exact absurd h (by decide)
  | value x => rfl

/-- **`settings a env` is `checked (a.effective env)`**: it is made of the values of all settings,
and checked as a whole. -/
theorem settings_eq (h : a.AskForExport) (env : Environment) :
    settings a env = (checked (a.effective env), env.timing.2) := by
  have hsettings : settings a env = (env.timing.1.replace (change .tempo (a.given .tempo) ++
      change .baseDuration (a.given .baseDuration)), env.timing.2) := by
    rw [settings]
    generalize env.timing = outcome
    rfl
  rw [hsettings, change_eq (h.given _), change_eq (h.given _), (Environment.timing_spec env).1]
  have hreplace : (ofValues env.value).replace (changeTo .tempo (a.option? .tempo) ++
      changeTo .baseDuration (a.option? .baseDuration)) = checked (a.effective env) :=
    replace_changes a.option?
  rw [← hreplace, Arguments.option?, Arguments.option?]

/-- `a.effective env setting = x` if `x` is the value of the option. -/
theorem effective_of_option {env : Environment} {setting : Setting} {x : Float}
    (h : a.option? setting = some x) : a.effective env setting = x := by
  rw [Arguments.effective, h, Option.getD_some]

/-- All of `a.effective env` are accepted if all options are. -/
theorem accepts_effective (h : ∀ setting x, a.option? setting = some x → accepts x = true)
    (env : Environment) (setting : Setting) : accepts (a.effective env setting) = true := by
  cases hoption : a.option? setting with
  | none =>
    rw [Arguments.effective, hoption, Option.getD_none]
    exact Environment.accepts_value env setting
  | some x =>
    rw [effective_of_option hoption]
    exact h setting x hoption

/-! ## Ends of the command -/

/-- The folder that is exported to. -/
def folderOf (a : Arguments) (s : Surroundings) : Path := Path.ofString (directory a s.environment)

/-- The status after a failure: `.code 1` if it is handled. -/
def failureStatus (f : Failure) : Status := if (handled? f).isSome then .code 1 else .failed f

/-- **How the command ends with the timing `t`**, and what becomes of the files. -/
inductive Ends (a : Arguments) (s : Surroundings) (t : Timing) (o : Outcome) : Prop
  /-- There is no text, or it cannot be rendered with `t`, and nothing is written. -/
  | unrendered {f : Failure}
      (text : (inputText a s >>= fun text => rendered text t) = .error f)
      (tree : o.tree = s.tree) (status : o.status = failureStatus f)
  /-- What has been rendered with `t` cannot be saved. -/
  | unsaved {r : Rendered} {f : Failure}
      (text : (inputText a s >>= fun text => rendered text t) = .ok r)
      (save : (r.save (folderOf a s) s.tree).failure = some f)
      (tree : o.tree = (r.save (folderOf a s) s.tree).tree) (status : o.status = failureStatus f)
  /-- What has been rendered with `t` is saved. Only the table that may be printed can fail now. -/
  | saved {r : Rendered} (text : (inputText a s >>= fun text => rendered text t) = .ok r)
      (save : (r.save (folderOf a s) s.tree).failure = none)
      (tree : o.tree = (r.save (folderOf a s) s.tree).tree)
      (status : o.status = .code 0 ∨ a.showTable = true ∧
        ∃ f, frequencyTable r.chords = .error f ∧ o.status = .failed f)

/-- `abort` keeps the tree of the session, and its status is `failureStatus f`. -/
theorem abort_spec (a : Arguments) (session : Session) (f : Failure) :
    (abort a session f).tree = session.tree ∧ (abort a session f).status = failureStatus f := by
  rw [abort, failureStatus]
  cases handled? f with
  | none => exact ⟨rfl, rfl⟩
  | some p => exact ⟨rfl, rfl⟩

/-- `finish` keeps the tree of the session, and its status is `.code 0`, unless the table that was
asked for cannot be made. -/
theorem finish_spec (a : Arguments) (session : Session) (done : Exported) :
    (finish a session done).tree = session.tree ∧
      ((finish a session done).status = .code 0 ∨ a.showTable = true ∧
        ∃ f, frequencyTable done.chords = .error f ∧
          (finish a session done).status = .failed f) := by
  rw [finish]
  split
  · next hshow =>
    cases htable : frequencyTable done.chords with
    | ok table => exact ⟨rfl, .inl rfl⟩
    | error f => exact ⟨rfl, .inr ⟨hshow, f, rfl, rfl⟩⟩
  · exact ⟨rfl, .inl rfl⟩

/-- `failureStatus f ≠ .code 0`. -/
theorem failureStatus_ne_zero (f : Failure) : failureStatus f ≠ .code 0 := by
  rw [failureStatus]
  split <;> simp

/-- **After `.code 0`** both files stand in the folder, rendered with the values of `t`. -/
theorem Ends.written {s : Surroundings} {t : Timing} {o : Outcome} (h : Ends a s t o)
    (hcode : o.status = .code 0) : ∃ text chords pure tempered l, inputText a s = .ok text ∧
      resolveText text = .ok chords ∧
      Midi.render .pythagorean t.base t.tempo chords = .ok pure ∧
      Midi.render .equalTemperament t.base t.tempo chords = .ok tempered ∧
      s.tree.WrittenIn o.tree (folderOf a s) l
        [("equal_temperament_chords.mid", tempered), ("pythagorean_chords.mid", pure)] := by
  cases h with
  | unrendered _ _ hstatus => exact absurd (hstatus.symm.trans hcode) (failureStatus_ne_zero _)
  | unsaved _ _ _ hstatus => exact absurd (hstatus.symm.trans hcode) (failureStatus_ne_zero _)
  | saved hrendered hsave htree =>
    obtain ⟨l, hwritten⟩ := Rendered.written_of_save hsave
    obtain ⟨text, htext, h⟩ := bind_eq_ok_iff.1 hrendered
    obtain ⟨chords, hchords, h⟩ := bind_eq_ok_iff.1 h
    obtain ⟨pure, hpure, h⟩ := bind_eq_ok_iff.1 h
    obtain ⟨tempered, htempered, h⟩ := bind_eq_ok_iff.1 h
    obtain rfl := Except.ok.inj h
    exact ⟨text, chords, pure, tempered, l, htext, hchords, hpure, htempered, htree ▸ hwritten⟩

/-! ## Running -/

/-- `perform a s t` is `inputText`, then `rendered`, then `Rendered.save`. -/
theorem perform_run (a : Arguments) (s : Surroundings) {t : Timing}
    (ht : make t.base t.tempo = .ok t) (warnings : List LogRecord) :
    ∃ records, (perform a s t).run ⟨s.tree, warnings⟩ =
      match inputText a s >>= fun text => rendered text t with
      | .error f => (.error f, ⟨s.tree, records⟩)
      | .ok r => (match (r.save (folderOf a s) s.tree).failure with
          | none => .ok (r.result (folderOf a s))
          | some f => .error f, ⟨(r.save (folderOf a s) s.tree).tree, records⟩) := by
  have hlift := Act.run_lift (inputText a s) ⟨s.tree, warnings⟩
  rw [perform]
  cases htext : inputText a s with
  | error f =>
    rw [htext] at hlift
    exact ⟨warnings, Act.run_bind_error _ hlift⟩
  | ok text =>
    rw [htext] at hlift
    rw [Act.run_bind_ok _ hlift, ok_bind]
    exact exportSequence_run text (directory a s.environment) ht ⟨s.tree, warnings⟩

/-- The end of the command after `perform a s t` satisfies `Ends a s t`. -/
theorem ends_of_perform (a : Arguments) (s : Surroundings) {t : Timing}
    (ht : make t.base t.tempo = .ok t) (warnings : List LogRecord) :
    Ends a s t (match (perform a s t).run ⟨s.tree, warnings⟩ with
      | (.ok done, session) => finish a session done
      | (.error f, session) => abort a session f) := by
  obtain ⟨records, hrun⟩ := perform_run a s ht warnings
  rw [hrun]
  cases htext : inputText a s >>= fun text => rendered text t with
  | error f =>
    obtain ⟨htree, hstatus⟩ := abort_spec a ⟨s.tree, records⟩ f
    exact .unrendered htext htree hstatus
  | ok r =>
    dsimp only
    cases hsave : (r.save (folderOf a s) s.tree).failure with
    | none =>
      obtain ⟨htree, hstatus⟩ := finish_spec a ⟨(r.save (folderOf a s) s.tree).tree, records⟩
        (r.result (folderOf a s))
      exact .saved htext hsave htree hstatus
    | some f =>
      obtain ⟨htree, hstatus⟩ := abort_spec a ⟨(r.save (folderOf a s) s.tree).tree, records⟩ f
      exact .unsaved htext hsave htree hstatus

/-- `runArguments a s` looks at the settings if there is an input, and all options have their
values. -/
theorem runArguments_eq (h : a.AskForExport) (s : Surroundings) :
    runArguments a s =
      if !a.useExample && a.input.isNone then refuse s (levelShown a) [] .inputMissing
      else match checked (a.effective s.environment) with
        | .error f => refuseTiming a s s.environment.timing.2 f
        | .ok t => match (perform a s t).run ⟨s.tree, s.environment.timing.2⟩ with
          | (.ok done, session) => finish a session done
          | (.error f, session) => abort a session f := by
  have hhelp : ¬a.help = true := Bool.eq_false_iff.1 h.help
  have hlevel : ¬a.level.isBlank = true := Bool.eq_false_iff.1 h.level
  rw [runArguments, if_neg hhelp, if_neg hlevel, settings_eq h]
  cases checked (a.effective s.environment) <;> rfl

/-- **`runArguments a s` ends in `refuse`** if an option is out of range, whatever the input and the
files are. -/
theorem runArguments_of_refused (h : a.AskForExport) {env : Environment}
    (hrefused : ∃ setting x, a.option? setting = some x ∧ accepts x = false) :
    ∃ records e, ∀ s : Surroundings, s.environment = env →
      runArguments a s = refuse s (levelShown a) records e := by
  have hvalue : ∃ setting, accepts (a.effective env setting) = false := by
    obtain ⟨setting, x, hoption, hx⟩ := hrefused
    refine ⟨setting, ?_⟩
    rw [effective_of_option hoption]
    exact hx
  obtain ⟨setting, -, herror⟩ := exists_checked_eq_error hvalue
  by_cases hinput : (!a.useExample && a.input.isNone) = true
  · refine ⟨[], .inputMissing, fun s _ => ?_⟩
    rw [runArguments_eq h, if_pos hinput]
  · refine ⟨env.timing.2, .unusable (setting.name ++ " must be positive, got " ++
      Binary64.natural (a.effective env setting)), fun s henv => ?_⟩
    rw [runArguments_eq h, if_neg hinput, henv, herror]
    rfl

/-- **Otherwise it ends with the timing of `a.effective`**:
`Ends a s (ofValues (a.effective s.environment))`. -/
theorem runArguments_of_accepted (h : a.AskForExport)
    (haccepted : ∀ setting x, a.option? setting = some x → accepts x = true)
    (hinput : a.useExample = true ∨ a.input.isSome = true) (s : Surroundings) :
    Ends a s (ofValues (a.effective s.environment)) (runArguments a s) := by
  have hpresent : ¬(!a.useExample && a.input.isNone) = true := by
    rcases hinput with hexample | hinput
    · simp [hexample]
    · simp [Option.isSome_iff_ne_none.1 hinput]
  have hchecked := checked_eq_ok (accepts_effective haccepted s.environment)
  have hmake : make (ofValues (a.effective s.environment)).base
      (ofValues (a.effective s.environment)).tempo = .ok (ofValues (a.effective s.environment)) :=
    hchecked
  rw [runArguments_eq h, if_neg hpresent, hchecked]
  exact ends_of_perform a s hmake _

/-- **An option goes before a variable, and a variable before the default**, for each setting by
itself. Every environment leads to the timing `ofValues env.value`, in which a setting is the number
in its variable, if that is finite and positive, and the default otherwise. `env.warnings setting`
is empty for a variable that is blank or holds such a number, and for any other it is one record of
level 30 that names the variable or the setting and what was ignored; a value is refused with
`.settingNotPositive` only.

When the command is run, the value of a setting is `a.effective env setting`: what its option says,
and only then what the environment leads to. If all options are in order, the text is rendered and
saved with these values, as `Ends` says, and after `.code 0` both files stand in the folder. If an
option is out of range the command ends with `.code 2`, and neither the input nor the files have any
part in this; nothing is printed, and the files stay as they are. -/
theorem option_over_variable_over_default (env : Environment) :
    (env.timing.1 = ofValues env.value ∧
      env.timing.2.Perm (env.warnings .tempo ++ env.warnings .baseDuration) ∧
      ∀ setting,
        (env.entry setting = "" → env.warnings setting = []) ∧
        (env.entry setting ≠ "" → env.read? setting = none →
          env.warnings setting = [⟨"ingestion.midi_export", 30, "Ignoring " ++
            Environment.variableFor setting ++ "=" ++ Text.quote (env.entry setting) ++
            ": not a number"⟩]) ∧
        ∀ x, env.read? setting = some x → env.warnings setting =
          if accepts x then [] else [⟨"ingestion.midi_export", 30,
            "Ignoring environment override for " ++ setting.name ++ ": " ++
            (setting.name ++ " must be positive, got " ++ Binary64.natural x)⟩]) ∧
    (∀ (v : Setting → Float) (setting : Setting) (f : Failure),
      (∀ other, accepts (v other) = true) →
      (ofValues v).override [(setting.name,
        (env.number (Environment.variableFor setting)).1)] = .error f →
      ∃ x, env.read? setting = some x ∧ accepts x = false ∧
        f = .settingNotPositive setting (Binary64.natural x)) ∧
    ∀ (words : List String) (a : Arguments), Arguments.ofWords words = .ok a → a.AskForExport →
      ((∃ setting x, a.option? setting = some x ∧ accepts x = false) →
        ∃ records e, ∀ s : Surroundings, s.environment = env →
          run words s = refuse s (levelShown a) records e ∧ (run words s).status = .code 2 ∧
            (run words s).output = "" ∧ (run words s).tree = s.tree) ∧
      ((∀ setting x, a.option? setting = some x → accepts x = true) →
        (a.useExample = true ∨ a.input.isSome = true) →
        ∀ s : Surroundings, s.environment = env →
          Ends a s (ofValues (a.effective env)) (run words s) ∧
          ((run words s).status = .code 0 → ∃ text chords pure tempered l,
            inputText a s = .ok text ∧ resolveText text = .ok chords ∧
            Midi.render .pythagorean (.float (a.effective env .baseDuration))
              (.float (a.effective env .tempo)) chords = .ok pure ∧
            Midi.render .equalTemperament (.float (a.effective env .baseDuration))
              (.float (a.effective env .tempo)) chords = .ok tempered ∧
            s.tree.WrittenIn (run words s).tree (Path.ofString (directory a env)) l
              [("equal_temperament_chords.mid", tempered), ("pythagorean_chords.mid", pure)])) := by
  obtain ⟨htiming, hwarnings⟩ := Environment.timing_spec env
  refine ⟨⟨htiming, hwarnings, fun setting => ⟨env.warnings_of_blank setting,
    env.warnings_of_unreadable setting, fun x => env.warnings_of_number setting⟩⟩,
    fun v setting f hv hf => Environment.eq_settingNotPositive_of_override hv hf,
    fun words a hwords ha => ?_⟩
  have hrun (s : Surroundings) : run words s = runArguments a s := by
    rw [run, hwords]
  constructor
  · intro hrefused
    obtain ⟨records, e, hrefuse⟩ := @runArguments_of_refused a ha env hrefused
    refine ⟨records, e, fun s henv => ?_⟩
    rw [hrun, hrefuse s henv]
    exact ⟨rfl, rfl, rfl, rfl⟩
  · rintro haccepted hinput s rfl
    have hends := runArguments_of_accepted ha haccepted hinput s
    rw [hrun]
    exact ⟨hends, hends.written⟩

/-- A tempo from an option and a unit from a variable, with a tempo in the other variable that is not
a number; and a tempo from an option that is not a number. -/
theorem option_over_variable_over_default_standardInput :
    let env : Environment := [("CHORD_TOOL_BASE_DURATION", "0.5"), ("CHORD_TOOL_TEMPO", "fast")]
    let s : Surroundings :=
      { environment := env, standardInput := "440: 8\r\n",
        tree := ⟨["home"], [(["home"], .directory)]⟩ }
    (env.warnings .tempo = [⟨"ingestion.midi_export", 30,
        "Ignoring CHORD_TOOL_TEMPO='fast': not a number"⟩] ∧ env.warnings .baseDuration = []) ∧
      (∃ chords pure tempered l, resolveText "440: 8\n" = .ok chords ∧
        Midi.render .pythagorean (.float 0.5) (.float 90.0) chords = .ok pure ∧
        Midi.render .equalTemperament (.float 0.5) (.float 90.0) chords = .ok tempered ∧
        s.tree.WrittenIn (run ["-", "--tempo", "90"] s).tree (Path.ofString ".") l
          [("equal_temperament_chords.mid", tempered), ("pythagorean_chords.mid", pure)]) ∧
      (run ["--example", "--tempo=nan"] s).status = .code 2 := by
  intro env s
  obtain ⟨⟨-, -, hwarnings⟩, -, hcommand⟩ := option_over_variable_over_default env
  refine ⟨⟨?_, ?_⟩, ?_, ?_⟩
  · rw [(hwarnings .tempo).2.1 (by decide) (by decide +kernel)]
    decide +kernel
  · have hread : env.read? .baseDuration = some 0.5 := by decide +kernel
    rw [(hwarnings .baseDuration).2.2 0.5 hread, if_pos (by decide)]
  · let a : Arguments := { input := some "-", tempo := .value 90.0 }
    have ha : a.AskForExport := ⟨rfl, rfl, fun setting => by cases setting <;> rfl⟩
    have haccepted (setting : Setting) (x : Float) (hx : a.option? setting = some x) :
        accepts x = true := by
      cases setting with
      | baseDuration => exact absurd hx (Option.some_ne_none x).symm
      | tempo =>
        obtain rfl : 90.0 = x := Option.some.inj hx
        decide
    have hbase : a.effective env .baseDuration = 0.5 := by decide +kernel
    have htempo : a.effective env .tempo = 90.0 := rfl
    have hcode : (run ["-", "--tempo", "90"] s).status = .code 0 := by decide +kernel
    have htext : inputText a s = .ok "440: 8\n" := by decide
    obtain ⟨-, hwritten⟩ := (hcommand ["-", "--tempo", "90"] a rfl ha).2 haccepted (.inr rfl) s rfl
    obtain ⟨text, chords, pure, tempered, l, hinput, hrest⟩ := hwritten hcode
    obtain rfl := Except.ok.inj (htext.symm.trans hinput)
    rw [hbase, htempo] at hrest
    exact ⟨chords, pure, tempered, l, hrest⟩
  · let a : Arguments := { useExample := true, tempo := .value (0.0 / 0.0) }
    have ha : a.AskForExport := ⟨rfl, rfl, fun setting => by cases setting <;> rfl⟩
    obtain ⟨records, e, hrefused⟩ := (hcommand ["--example", "--tempo=nan"] a rfl ha).1
      ⟨.tempo, 0.0 / 0.0, rfl, by decide⟩
    exact (hrefused s rfl).2.1

end Monochord.CommandLine
