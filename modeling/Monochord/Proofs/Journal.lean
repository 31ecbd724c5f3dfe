import Mathlib.Data.Int.Notation
import Mathlib.Data.List.Induction
import Monochord.Proofs.Journal.Hierarchy

/-! # Where records go

The journal is configured again and again, sometimes in vain, and between these calls records are
logged. Records go to the stream that was installed last and to no other, and they go there by a
rule that looks at the levels only: not at who reported before, and not at the decisions that the
journal remembers.

* **`Journal.ruledLevel`** — the level of a logger by the rule of the nearest level;
  **`Journal.effectiveLevel_eq_ruledLevel`**: the effective level is this one.
* **`Journal.Settled`** — what holds from the first successful configuration on;
  **`Journal.settled_log`**: logging a record keeps it.
* **`Journal.settled_after`** and **`Journal.after_of_forall_not_succeeds`** — runs with such a
  configuration, and runs without.
* **`Journal.dropLast_streams_isPrefix`** — streams that are not the last do not change. -/

namespace Monochord

/-- `choice.resolve` is a level, or `choice` is a name with `levelOf? name = none` and the failure
`.unknownLevel name`. -/
theorem LevelChoice.resolve_cases (choice : LevelChoice) :
    (∃ level, choice.resolve = .ok level) ∨
      ∃ name, choice = .name name ∧ levelOf? name = none ∧
        choice.resolve = .error (.unknownLevel name) := by
  cases choice with
  | number n => exact .inl ⟨n, rfl⟩
  | name s =>
    rw [LevelChoice.resolve]
    cases h : levelOf? s with
    | some n => exact .inl ⟨n, rfl⟩
    | none => exact .inr ⟨s, rfl, h, rfl⟩

namespace Journal

/-! ## Levels -/

variable (j : Journal)

/-- The first `j.ownLevel p.reverse ≠ 0` of the names `p`, which are given backwards, or
`j.rootLevel`. -/
def nearestLevel : List (List Char) → ℤ
  | [] => j.rootLevel
  | p :: ps => if j.ownLevel p.reverse ≠ 0 then j.ownLevel p.reverse else nearestLevel ps

/-- **The level of a logger by the rule**: `j.nearestLevel` of its name and of all `dottedAbove` it.
-/
def ruledLevel (logger : String) : ℤ :=
  j.nearestLevel (logger.toList.reverse :: dottedAbove logger.toList.reverse)

/-- **Do the records of a logger pass by the rule?** Their level is positive and at least
`j.ruledLevel logger`. -/
def PassesByRule (logger : String) (level : ℤ) : Prop := 0 < level ∧ j.ruledLevel logger ≤ level

instance (logger : String) (level : ℤ) : Decidable (j.PassesByRule logger level) :=
  inferInstanceAs (Decidable (0 < level ∧ j.ruledLevel logger ≤ level))

variable {j}

/-- A logger with `j.ownLevel logger ≠ 0` exists: `j.knows logger = true`. -/
theorem knows_of_ownLevel_ne_zero {logger : List Char} (h : j.ownLevel logger ≠ 0) :
    j.knows logger = true := by
  rw [ownLevel, ite_ne_right_iff] at h
  simp [knows, h.1]

/-- `j.nearestLevel (front ++ back) = j.nearestLevel back` if no logger of `front` exists. -/
theorem nearestLevel_append {front : List (List Char)} (h : ∀ p ∈ front, j.knows p.reverse = false)
    (back : List (List Char)) : j.nearestLevel (front ++ back) = j.nearestLevel back := by
  induction front with
  | nil => rfl
  | cons p front ih =>
    obtain ⟨hp, hfront⟩ := List.forall_mem_cons.1 h
    have hzero : j.ownLevel p.reverse = 0 := by
      by_contra hne
      exact absurd (knows_of_ownLevel_ne_zero hne) (by simp [hp])
    rw [List.cons_append, nearestLevel, if_neg (not_not.2 hzero), ih hfront]

theorem levelBackwards_of_ownLevel {name : List Char} (h : j.ownLevel name.reverse ≠ 0) :
    j.levelBackwards name = j.ownLevel name.reverse := by
  rw [levelBackwards, if_pos h]

theorem levelBackwards_of_parent?_eq_none {name : List Char} (hown : ¬j.ownLevel name.reverse ≠ 0)
    (h : j.parent? name = none) : j.levelBackwards name = j.rootLevel := by
  rw [levelBackwards, if_neg hown]
  split
  · rfl
  · next hsome => exact absurd (h.symm.trans hsome) (by simp)

theorem levelBackwards_of_parent? {name p : List Char} (hown : ¬j.ownLevel name.reverse ≠ 0)
    (h : j.parent? name = some p) : j.levelBackwards name = j.levelBackwards p := by
  rw [levelBackwards, if_neg hown]
  split
  · next hnone => exact absurd (h.symm.trans hnone) (by simp)
  · next hsome => rw [Option.some.inj (h.symm.trans hsome)]

/-- **`levelBackwards` climbs to `nearestLevel`.** The names that it passes over belong to no
logger, and so they have no level. -/
theorem levelBackwards_eq_nearestLevel {name : List Char}
    (h : namesAbove name = dottedAbove name) :
    j.levelBackwards name = j.nearestLevel (name :: dottedAbove name) := by
  -- a parent has a shorter name, and the journal finds all names above it, too
  induction hn : name.length using Nat.strongRecOn generalizing name with
  | ind n ih =>
    subst hn
    rw [nearestLevel]
    split
    · next hown => exact levelBackwards_of_ownLevel hown
    · next hown =>
      cases hparent : j.parent? name with
      | none =>
        rw [levelBackwards_of_parent?_eq_none hown hparent]
        rw [parent?, h, List.find?_eq_none] at hparent
        rw [← List.append_nil (dottedAbove name), nearestLevel_append (by simpa using hparent),
          nearestLevel]
      | some p =>
        have hlt := length_lt_of_parent? hparent
        rw [levelBackwards_of_parent? hown hparent]
        rw [parent?, h, List.find?_eq_some_iff_append] at hparent
        obtain ⟨-, front, back, happend, hfront⟩ := hparent
        rw [ih _ hlt (namesAbove_eq_of_append h happend) rfl, happend,
          nearestLevel_append (by simpa using hfront), dottedAbove_of_append happend]

/-- **`j.effectiveLevel logger = j.ruledLevel logger`**, whatever has been reported before. -/
theorem effectiveLevel_eq_ruledLevel {logger : String} (h : Hierarchical logger) :
    j.effectiveLevel logger = j.ruledLevel logger := by
  rw [effectiveLevel]
  split
  · next hroot =>
    subst hroot
    simp [ruledLevel, rootName, dottedAbove, nearestLevel, ownLevel, quietLoggers]
  · exact levelBackwards_eq_nearestLevel (hierarchical_iff.1 h)

/-- `j.nearestLevel ps = j.quietLevel` if one of the names `ps` is among `quietLoggers`. -/
theorem nearestLevel_of_exists_quiet {ps : List (List Char)} (hlevel : j.quietLevel ≠ 0)
    (h : ∃ p ∈ ps, String.ofList p.reverse ∈ quietLoggers) :
    j.nearestLevel ps = j.quietLevel := by
  induction ps with
  | nil => simp at h
  | cons p ps ih =>
    rw [nearestLevel, ownLevel]
    by_cases hp : String.ofList p.reverse ∈ quietLoggers
    · rw [if_pos hp, if_pos hlevel]
    · rw [if_neg hp, if_neg (not_not.2 rfl)]
      obtain ⟨q, hq, hquiet⟩ := h
      refine ih ⟨q, (List.mem_cons.1 hq).resolve_left ?_, hquiet⟩
      rintro rfl
      exact hp hquiet

/-- **`j.ruledLevel logger = j.quietLevel`** for quiet loggers and those below them. -/
theorem ruledLevel_of_isQuiet {logger : String} (hlevel : j.quietLevel ≠ 0) (h : IsQuiet logger) :
    j.ruledLevel logger = j.quietLevel := by
  refine nearestLevel_of_exists_quiet hlevel ?_
  obtain ⟨q, hq, rfl | hbelow⟩ := h
  · exact ⟨_, List.mem_cons_self, by simpa using hq⟩
  · have hne : q ≠ "" := by
      rintro rfl
      exact absurd hq (by decide)
    exact ⟨_, List.mem_cons_of_mem _ (mem_dottedAbove_reverse_iff.2 ⟨hne, hbelow⟩), by simpa using hq⟩

/-- `nearestLevel` depends on `rootLevel` and `quietLevel` only. -/
theorem nearestLevel_congr {k : Journal} (hroot : k.rootLevel = j.rootLevel)
    (hquiet : k.quietLevel = j.quietLevel) (ps : List (List Char)) :
    k.nearestLevel ps = j.nearestLevel ps := by
  induction ps with
  | nil => exact hroot
  | cons p ps ih =>
    have hown : k.ownLevel p.reverse = j.ownLevel p.reverse := by rw [ownLevel, hquiet, ownLevel]
    rw [nearestLevel, hown, ih, nearestLevel]

theorem passesByRule_congr {k : Journal} (hroot : k.rootLevel = j.rootLevel)
    (hquiet : k.quietLevel = j.quietLevel) (logger : String) (level : ℤ) :
    k.PassesByRule logger level ↔ j.PassesByRule logger level := by
  rw [PassesByRule, ruledLevel, nearestLevel_congr hroot hquiet, PassesByRule, ruledLevel]

/-! ## Configurations -/

theorem configure_of_resolve (j : Journal) {choice : LevelChoice} {level : ℤ}
    (h : choice.resolve = .ok level) :
    j.configure choice = .ok { j with
      rootLevel := level, quietLevel := max level warningLevel
      handlers := [j.streams.length], streams := j.streams ++ [[]], decisions := [] } := by
  rw [configure, h]
  rfl

theorem configure_of_resolve_eq_error (j : Journal) {choice : LevelChoice} {f : Failure}
    (h : choice.resolve = .error f) : j.configure choice = .error f := by
  rw [configure, h]
  rfl

/-! ## Records -/

@[simp] theorem rootLevel_log (r : LogRecord) : (j.log r).rootLevel = j.rootLevel := by
  rw [log]
  split <;> rfl

@[simp] theorem quietLevel_log (r : LogRecord) : (j.log r).quietLevel = j.quietLevel := by
  rw [log]
  split <;> rfl

@[simp] theorem handlers_log (r : LogRecord) : (j.log r).handlers = j.handlers := by
  rw [log]
  split <;> rfl

@[simp] theorem decisions_log (r : LogRecord) :
    (j.log r).decisions = ⟨r.logger, r.level, j.passes r⟩ :: j.decisions := by
  rw [log]
  split <;> rfl

/-- A line changes no stream if no index of `handlers` is below `streams.length`. -/
theorem mapIdx_eq_self {streams : List (List String)} {handlers : List Nat}
    (h : ∀ i < streams.length, i ∉ handlers) (line : String) :
    streams.mapIdx (fun i lines => if i ∈ handlers then lines ++ [line] else lines) = streams := by
  refine List.ext_getElem List.length_mapIdx fun i _ hi => ?_
  rw [List.getElem_mapIdx, if_neg (h i hi)]

/-- `(j.log r).streams = j.streams` if `j.handlers = []`. -/
theorem streams_log_of_handlers_eq_nil (h : j.handlers = []) (r : LogRecord) :
    (j.log r).streams = j.streams := by
  rw [log]
  split
  · exact mapIdx_eq_self (by simp [h]) r.line
  · rfl

/-- `j.log r` appends `r.line` to the last stream if `j.passes r` and this stream is the only one
installed. -/
theorem streams_log {earlier : List (List String)} {newest : List String}
    (hstreams : j.streams = earlier ++ [newest]) (hhandlers : j.handlers = [earlier.length])
    (r : LogRecord) :
    (j.log r).streams = earlier ++ [if j.passes r then newest ++ [r.line] else newest] := by
  have hearlier : ∀ i < earlier.length, i ∉ j.handlers := by
    intro i hi
    rw [hhandlers, List.mem_singleton]
    omega
  rw [log]
  split
  · next hpasses =>
    simp only [hstreams]
    rw [List.mapIdx_concat, mapIdx_eq_self hearlier, if_pos (by simp [hhandlers])]
  · exact hstreams

/-! ## A configured journal -/

/-- **What holds from the first successful configuration on**: the one stream that is installed is the
last, the levels are those that were asked for, and the decisions that the journal remembers follow
the rule. -/
structure Settled (j : Journal) (level : ℤ) (earlier : List (List String)) (newest : List String) :
    Prop where
  /-- The last stream alone is installed. -/
  handlers : j.handlers = [earlier.length]
  /-- It holds the newest lines. -/
  streams : j.streams = earlier ++ [newest]
  /-- The root has the level that was asked for. -/
  rootLevel : j.rootLevel = level
  /-- The quiet loggers have at least the level of warnings. -/
  quietLevel : j.quietLevel = max level warningLevel
  /-- Whoever has reported since a decision was made, the rule still gives the same. -/
  decisions : ∀ d ∈ j.decisions, Hierarchical d.logger →
    (d.passes = true ↔ j.PassesByRule d.logger d.level)

/-- **`j.configure choice` settles the journal** if `choice.resolve = .ok level`, on a new and empty
stream. -/
theorem settled_configure (j : Journal) {choice : LevelChoice} {level : ℤ}
    (h : choice.resolve = .ok level) :
    ∃ k, j.configure choice = .ok k ∧ Settled k level j.streams [] :=
  ⟨_, j.configure_of_resolve h, rfl, rfl, rfl, rfl, by simp⟩

section Settled

variable {level : ℤ} {earlier : List (List String)} {newest : List String}

/-- **`j.passes r ↔ j.PassesByRule r.logger r.level`**, also if the decision was made before. -/
theorem Settled.passes_iff (h : Settled j level earlier newest) {r : LogRecord}
    (hr : Hierarchical r.logger) : j.passes r = true ↔ j.PassesByRule r.logger r.level := by
  rw [passes]
  split
  · next d hd =>
    have hsame : d.logger = r.logger ∧ d.level = r.level := by
      simpa using List.find?_some hd
    rw [← hsame.1, ← hsame.2]
    exact h.decisions d (List.mem_of_find?_eq_some hd) (hsame.1 ▸ hr)
  · rw [admits, effectiveLevel_eq_ruledLevel hr, PassesByRule, Bool.and_eq_true, decide_eq_true_iff,
      decide_eq_true_iff]

/-- **`j.log r` is settled as `j` is**; its newest stream ends in `r.line` if `j.passes r`. -/
theorem settled_log (h : Settled j level earlier newest) (r : LogRecord) :
    Settled (j.log r) level earlier (if j.passes r then newest ++ [r.line] else newest) where
  handlers := by rw [handlers_log, h.handlers]
  streams := streams_log h.streams h.handlers r
  rootLevel := by rw [rootLevel_log, h.rootLevel]
  quietLevel := by rw [quietLevel_log, h.quietLevel]
  decisions := by
    intro d hd hhierarchical
    rw [passesByRule_congr (rootLevel_log r) (quietLevel_log r)]
    rw [decisions_log] at hd
    rcases List.mem_cons.1 hd with rfl | hd
    · exact h.passes_iff hhierarchical
    · exact h.decisions d hd hhierarchical

/-- **`j.passes r = false`** for a quiet logger and a level below `warningLevel`. -/
theorem Settled.passes_eq_false (h : Settled j level earlier newest) {r : LogRecord}
    (hr : Hierarchical r.logger) (hquiet : IsQuiet r.logger) (hlow : r.level < warningLevel) :
    j.passes r = false := by
  have hwarning : warningLevel ≤ j.quietLevel := by
    rw [h.quietLevel]
    exact Int.le_max_right _ _
  have hne : j.quietLevel ≠ 0 := by
    rw [warningLevel] at hwarning
    omega
  rw [← Bool.not_eq_true, h.passes_iff hr, PassesByRule, ruledLevel_of_isQuiet hne hquiet]
  omega

end Settled

/-! ## Runs -/

/-- A call to the journal. -/
inductive Call
  /-- It is configured. -/
  | configure (choice : LevelChoice)
  /-- A record is logged. -/
  | log (r : LogRecord)
deriving Repr, DecidableEq

/-- `c.Succeeds`: `c` is `.configure choice`, and `choice.resolve` is a level. -/
def Call.Succeeds : Call → Prop
  | .configure choice => ∃ level, choice.resolve = .ok level
  | .log _ => False

/-- The journal after a call; `.configure choice` leaves it as it was if it fails. -/
def call (j : Journal) : Call → Journal
  | .configure choice =>
    match j.configure choice with
    | .ok k => k
    | .error _ => j
  | .log r => j.log r

/-- The journal after some calls, `calls.foldl call start`. -/
def after (start : Journal) (calls : List Call) : Journal := calls.foldl call start

theorem call_of_configure {choice : LevelChoice} {k : Journal} (h : j.configure choice = .ok k) :
    j.call (.configure choice) = k := by
  rw [call, h]

theorem call_of_configure_eq_error {choice : LevelChoice} {f : Failure}
    (h : j.configure choice = .error f) : j.call (.configure choice) = j := by
  rw [call, h]

variable {start : Journal}

@[simp] theorem after_append_singleton (calls : List Call) (c : Call) :
    start.after (calls ++ [c]) = (start.after calls).call c := by
  simp [after]

/-- `j.call c` is `j` or `j.log r` if `c` does not succeed. -/
theorem call_of_not_succeeds (j : Journal) {c : Call} (h : ¬c.Succeeds) :
    j.call c = j ∨ ∃ r, c = .log r ∧ j.call c = j.log r := by
  cases c with
  | log r => exact .inr ⟨r, rfl, rfl⟩
  | configure choice =>
    obtain hok | ⟨name, -, -, herror⟩ := choice.resolve_cases
    · exact absurd hok h
    · exact .inl (call_of_configure_eq_error (j.configure_of_resolve_eq_error herror))

/-- **`start.after calls` has no handler, and the streams of `start`**, if no call succeeds. -/
theorem after_of_forall_not_succeeds (hstart : start.handlers = []) {calls : List Call}
    (h : ∀ c ∈ calls, ¬c.Succeeds) :
    (start.after calls).handlers = [] ∧ (start.after calls).streams = start.streams := by
  induction calls using List.reverseRecOn with
  | nil => exact ⟨hstart, rfl⟩
  | append_singleton calls c ih =>
    obtain ⟨hhandlers, hstreams⟩ := ih fun c hc => h c (List.mem_append_left _ hc)
    rw [after_append_singleton]
    obtain hsame | ⟨r, -, hlog⟩ := (start.after calls).call_of_not_succeeds (h c (by simp))
    · rw [hsame]
      exact ⟨hhandlers, hstreams⟩
    · rw [hlog, handlers_log, streams_log_of_handlers_eq_nil hhandlers]
      exact ⟨hhandlers, hstreams⟩

/-- **`start.after calls` is settled by the last call that succeeds**, which is split off as
`front ++ .configure choice :: back`. -/
theorem settled_after {calls : List Call} (h : ∃ c ∈ calls, c.Succeeds) :
    ∃ front choice back level newest,
      calls = front ++ .configure choice :: back ∧ choice.resolve = .ok level ∧
      (∀ c ∈ back, ¬c.Succeeds) ∧
      Settled (start.after calls) level (start.after front).streams newest := by
  induction calls using List.reverseRecOn with
  | nil => simp at h
  | append_singleton calls c ih =>
    rw [after_append_singleton]
    by_cases hc : c.Succeeds
    · -- the last call settles the journal anew
      cases c with
      | log r => exact hc.elim
      | configure choice =>
        obtain ⟨level, hlevel⟩ := hc
        obtain ⟨k, hk, hsettled⟩ := (start.after calls).settled_configure hlevel
        rw [call_of_configure hk]
        exact ⟨calls, choice, [], level, [], rfl, hlevel, by simp, hsettled⟩
    · -- an earlier call has settled it, and this one leaves it settled
      obtain ⟨d, hd, hsucceeds⟩ := h
      have hmem : d ∈ calls := by
        refine (List.mem_append.1 hd).resolve_right fun hlast => hc ?_
        rwa [← List.mem_singleton.1 hlast]
      obtain ⟨front, choice, back, level, newest, rfl, hlevel, hback, hsettled⟩ :=
        ih ⟨d, hmem, hsucceeds⟩
      have hrest : ∀ d ∈ back ++ [c], ¬d.Succeeds := by
        rw [List.forall_mem_append, List.forall_mem_singleton]
        exact ⟨hback, hc⟩
      obtain hsame | ⟨r, -, hlog⟩ := (start.after _).call_of_not_succeeds hc
      · rw [hsame]
        exact ⟨front, choice, back ++ [c], level, newest, by simp, hlevel, hrest, hsettled⟩
      · rw [hlog]
        exact ⟨front, choice, back ++ [c], level, _, by simp, hlevel, hrest, settled_log hsettled r⟩

/-- One more call keeps all streams but the last, which are `streams.dropLast`. -/
theorem dropLast_streams_isPrefix_call (hstart : start.handlers = []) (calls : List Call) (c : Call) :
    (start.after calls).streams.dropLast <+: ((start.after calls).call c).streams.dropLast := by
  by_cases hc : c.Succeeds
  · cases c with
    | log r => exact hc.elim
    | configure choice =>
      obtain ⟨level, hlevel⟩ := hc
      obtain ⟨k, hk, hsettled⟩ := (start.after calls).settled_configure hlevel
      rw [call_of_configure hk, hsettled.streams, List.dropLast_concat]
      exact List.dropLast_prefix _
  · suffices h : ((start.after calls).call c).streams.dropLast =
        (start.after calls).streams.dropLast from h ▸ List.prefix_rfl
    obtain hsame | ⟨r, -, hlog⟩ := (start.after calls).call_of_not_succeeds hc
    · rw [hsame]
    · rw [hlog]
      by_cases h : ∃ d ∈ calls, d.Succeeds
      · obtain ⟨front, _, _, _, newest, _, _, _, hsettled⟩ := settled_after h
        rw [(settled_log hsettled r).streams, hsettled.streams, List.dropLast_concat,
          List.dropLast_concat]
      · rw [not_exists] at h
        have hnone := after_of_forall_not_succeeds hstart fun d hd hsucceeds => h d ⟨hd, hsucceeds⟩
        rw [streams_log_of_handlers_eq_nil hnone.1]

/-- **`(start.after calls).streams.dropLast` stays** a prefix of what it is after more calls. -/
theorem dropLast_streams_isPrefix (hstart : start.handlers = []) (calls more : List Call) :
    (start.after calls).streams.dropLast <+: (start.after (calls ++ more)).streams.dropLast := by
  induction more using List.reverseRecOn with
  | nil => simp
  | append_singleton more c ih =>
    rw [← List.append_assoc, after_append_singleton]
    exact ih.trans (dropLast_streams_isPrefix_call hstart _ c)

/-- **Every record reaches the newest stream once and no other.** Let `start.handlers = []`, and take
`start.after calls`.

* As long as no call succeeds, `.log r` leaves all streams as they are. As soon as one has succeeded,
  `handlers` holds one stream, the one of the last such configuration, and the levels are the ones it
  asked for. A record is then appended to this stream, once, if it passes, and no other stream changes;
  it passes if and only if `PassesByRule` holds of its logger and its level.
* `.configure choice` installs a stream of its own behind all others. With a name that is unknown it
  fails with `.unknownLevel` and changes nothing.
* Below `warningLevel` nothing is reported by a logger with `IsQuiet`, whatever the level.
* A stream that is not the newest never changes again.

`PassesByRule` presupposes that the logger of the record is `Hierarchical`; nothing is presupposed of
the other calls. -/
theorem newest_stream_gets_each_record_once (hstart : start.handlers = []) (calls : List Call) :
    ((∀ c ∈ calls, ¬c.Succeeds) →
      (start.after calls).handlers = [] ∧
      ∀ r, (start.after (calls ++ [.log r])).streams = start.streams) ∧
    ((∃ c ∈ calls, c.Succeeds) → ∃ front choice back level newest,
      calls = front ++ .configure choice :: back ∧ choice.resolve = .ok level ∧
      (∀ c ∈ back, ¬c.Succeeds) ∧
      (start.after calls).handlers = [(start.after front).streams.length] ∧
      (start.after calls).rootLevel = level ∧
      (start.after calls).quietLevel = max level warningLevel ∧
      (start.after calls).streams = (start.after front).streams ++ [newest] ∧
      ∀ r : LogRecord, ∃ passes : Bool,
        (start.after (calls ++ [.log r])).streams =
          (start.after front).streams ++ [if passes then newest ++ [r.line] else newest] ∧
        (Hierarchical r.logger →
          (passes = true ↔ (start.after calls).PassesByRule r.logger r.level))) ∧
    (∀ choice : LevelChoice,
      (∃ level, choice.resolve = .ok level ∧
        (start.after calls).configure choice = .ok (start.after (calls ++ [.configure choice])) ∧
        (start.after (calls ++ [.configure choice])).streams = (start.after calls).streams ++ [[]] ∧
        (start.after (calls ++ [.configure choice])).handlers =
          [(start.after calls).streams.length]) ∨
      (∃ name, choice = .name name ∧ levelOf? name = none ∧
        (start.after calls).configure choice = .error (.unknownLevel name) ∧
        start.after (calls ++ [.configure choice]) = start.after calls)) ∧
    (∀ r : LogRecord, Hierarchical r.logger → IsQuiet r.logger → r.level < warningLevel →
      (start.after (calls ++ [.log r])).streams = (start.after calls).streams) ∧
    ∀ more, (start.after calls).streams.dropLast <+: (start.after (calls ++ more)).streams := by
  have hunsettled (h : ∀ c ∈ calls, ¬c.Succeeds) (r : LogRecord) :
      (start.after (calls ++ [.log r])).streams = (start.after calls).streams := by
    rw [after_append_singleton, call,
      streams_log_of_handlers_eq_nil (after_of_forall_not_succeeds hstart h).1]
  refine ⟨fun h => ?_, fun h => ?_, fun choice => ?_, fun r hr hquiet hlow => ?_, fun more => ?_⟩
  · obtain ⟨hhandlers, hstreams⟩ := after_of_forall_not_succeeds hstart h
    exact ⟨hhandlers, fun r => (hunsettled h r).trans hstreams⟩
  · obtain ⟨front, choice, back, level, newest, hcalls, hlevel, hback, hsettled⟩ :=
      settled_after h
    refine ⟨front, choice, back, level, newest, hcalls, hlevel, hback, hsettled.handlers,
      hsettled.rootLevel, hsettled.quietLevel, hsettled.streams, fun r => ?_⟩
    rw [after_append_singleton, call]
    exact ⟨(start.after calls).passes r, (settled_log hsettled r).streams, hsettled.passes_iff⟩
  · rw [after_append_singleton]
    obtain ⟨level, hlevel⟩ | ⟨name, hname, hunknown, herror⟩ := choice.resolve_cases
    · obtain ⟨k, hk, hsettled⟩ := (start.after calls).settled_configure hlevel
      rw [call_of_configure hk]
      exact .inl ⟨level, hlevel, hk, hsettled.streams, hsettled.handlers⟩
    · have hconfigure := (start.after calls).configure_of_resolve_eq_error herror
      exact .inr ⟨name, hname, hunknown, hconfigure, call_of_configure_eq_error hconfigure⟩
  · by_cases h : ∃ c ∈ calls, c.Succeeds
    · obtain ⟨front, _, _, _, newest, _, _, _, hsettled⟩ := settled_after h
      have hpasses : (start.after calls).passes r = false := hsettled.passes_eq_false hr hquiet hlow
      rw [after_append_singleton, call, (settled_log hsettled r).streams, hpasses, hsettled.streams,
        if_neg Bool.false_ne_true]
    · exact hunsettled (by simpa using h) r
  · exact (dropLast_streams_isPrefix hstart calls more).trans (List.dropLast_prefix _)

/-- `"httpx.client"` reports at level 20 after `"debug"` was asked for, and nothing appears. -/
theorem newest_stream_gets_each_record_once_httpx :
    (after {} [.configure (.name "debug"), .log ⟨"core", 20, "Playing"⟩, .configure (.name "LOUD"),
      .log ⟨"httpx.client", 20, "GET"⟩]).streams = [["[core] INFO Playing"]] := by
  have hstart : ({} : Journal).handlers = [] := rfl
  have hquiet := (newest_stream_gets_each_record_once hstart [.configure (.name "debug"),
    .log ⟨"core", 20, "Playing"⟩, .configure (.name "LOUD")]).2.2.2.1 ⟨"httpx.client", 20, "GET"⟩
    (hierarchical_of_no_two_dots (by decide +kernel))
    ⟨"httpx", by decide, .inr (by decide +kernel)⟩ (by decide)
  refine hquiet.trans ?_
  decide +kernel

end Journal

end Monochord
