import Monochord.Export
import Monochord.Proofs.FileTree
import Monochord.Proofs.Timing

/-! # What an export does to the files

Everything is rendered before anything is written, and the second file is written last. So an export
ends in one of four ways, and each of them tells what has become of the tree.

A text is a `String` here, whose characters all have an encoding; a path with a lone surrogate, which
has none, names no place in a `FileTree`. Nor is there a bound on how many missing directories
`FileTree.makeDirectories` goes through one below the other.

* **`Act.run_bind_ok`**, **`Act.run_bind_error`** — one operation of a session after another;
  **`writeReporting_run`**: what writing a file does.
* **`rendered`** — what an export writes; **`Rendered.save`**: the attempt to write it.
* **`exportSequence_run`** — `exportSequence` is `rendered` and then `Rendered.save`.
* **`ExportEnds`** — the four ways; **`exportSequence_ends`**: there are no others. -/

namespace Monochord

open Midi

variable {α β : Type}

/-! ## Sessions -/

namespace Act

variable {s s' : Session}

/-- After a success `x >>= f` goes on with `f a` in the session `s'`. -/
theorem run_bind_ok {x : Act α} {a : α} (f : α → Act β) (h : x.run s = (.ok a, s')) :
    (x >>= f).run s = (f a).run s' := by
  show (match x.run s with | (r, s₁) => ExceptT.bindCont f r s₁) = _
  rw [h]
  rfl

/-- After a failure `x >>= f` fails alike. -/
theorem run_bind_error {x : Act α} {e : Failure} (f : α → Act β) (h : x.run s = (.error e, s')) :
    (x >>= f).run s = (.error e, s') := by
  show (match x.run s with | (r, s₁) => ExceptT.bindCont f r s₁) = _
  rw [h]
  rfl

/-- `lift r` leaves the session as it is. -/
theorem run_lift (r : Except Failure α) (s : Session) : (lift r).run s = (r, s) := rfl

/-- `report` changes no file. -/
theorem run_report (level : Int) (message : String) (s : Session) :
    ∃ records, (report level message).run s = (.ok (), ⟨s.tree, records⟩) := ⟨_, rfl⟩

/-- `onTree attempt` changes the tree and no record. -/
theorem run_onTree (attempt : FileTree → FileTree.Attempt) (s : Session) :
    (onTree attempt).run s = (match (attempt s.tree).failure with
      | none => .ok ()
      | some f => .error f, ⟨(attempt s.tree).tree, s.records⟩) := by
  have hunfold : (onTree attempt).run s =
      (match (attempt s.tree).failure with
        | none => (pure () : Act Unit)
        | some f => throw f).run ⟨(attempt s.tree).tree, s.records⟩ := rfl
  rw [hunfold]
  cases (attempt s.tree).failure <;> rfl

end Act

/-- **`writeReporting path content`** is `save` on the tree; if that succeeds there is a record. -/
theorem writeReporting_run (path : Path) (content : Bytes) (s : Session) :
    ∃ records, (writeReporting path content).run s =
      (match (s.tree.save path content).failure with
        | none => .ok ()
        | some f => .error f, ⟨(s.tree.save path content).tree, records⟩) := by
  have hmake := Act.run_onTree (fun t => t.makeDirectories path.parent) s
  rw [FileTree.save]
  cases hmade : (s.tree.makeDirectories path.parent).failure with
  | some f =>
    rw [hmade] at hmake
    dsimp only
    rw [hmade]
    exact ⟨_, Act.run_bind_error _ hmake⟩
  | none =>
    rw [hmade] at hmake
    have hwrite := Act.run_onTree (fun t => t.writeFile path content)
      ⟨(s.tree.makeDirectories path.parent).tree, s.records⟩
    dsimp only at hmake hwrite ⊢
    rw [writeReporting, Act.run_bind_ok _ hmake]
    cases hwritten :
        ((s.tree.makeDirectories path.parent).tree.writeFile path content).failure with
    | some f =>
      rw [hwritten] at hwrite
      exact ⟨_, Act.run_bind_error _ hwrite⟩
    | none =>
      rw [hwritten] at hwrite
      obtain ⟨records, hreport⟩ := Act.run_report infoLevel
        ("Wrote " ++ path.text ++ " (" ++ byteCount content.length ++ ")")
        ⟨((s.tree.makeDirectories path.parent).tree.writeFile path content).tree, s.records⟩
      exact ⟨records, by rw [Act.run_bind_ok _ hwrite, hreport]⟩

/-- `resolveReporting text` is `resolveText text`, and changes no file. -/
theorem resolveReporting_run (text : String) (s : Session) :
    ∃ records, (resolveReporting text).run s = (resolveText text, ⟨s.tree, records⟩) := by
  have hlift := Act.run_lift (resolveText text) s
  cases hresolve : resolveText text with
  | error e =>
    rw [hresolve] at hlift
    exact ⟨_, by rw [resolveReporting, hresolve, Act.run_bind_error _ hlift]⟩
  | ok chords =>
    rw [hresolve] at hlift
    exact ⟨_, by rw [resolveReporting, hresolve, Act.run_bind_ok _ hlift]; rfl⟩

/-! ## What is written -/

/-- The chords of a text, and their files in both tunings. -/
structure Rendered where
  /-- The chords. -/
  chords : List ResolvedChord
  /-- The bytes of the Pythagorean file. -/
  pythagorean : Bytes
  /-- The bytes of the equal-tempered file. -/
  equalTemperament : Bytes

/-- Everything that an export writes, or the first failure of the text or of a rendering. -/
def rendered (text : String) (t : Timing) : Except Failure Rendered := do
  let chords ← resolveText text
  let pythagorean ← render .pythagorean t.base t.tempo chords
  let equalTemperament ← render .equalTemperament t.base t.tempo chords
  return ⟨chords, pythagorean, equalTemperament⟩

/-- The files that an export writes to a folder. -/
def Rendered.result (r : Rendered) (folder : Path) : Exported :=
  ⟨folder.child (Tuning.fileName .pythagorean), folder.child (Tuning.fileName .equalTemperament),
    r.chords⟩

/-- **The attempt to write both files to a folder**: the Pythagorean one first, and then the
equal-tempered one. -/
def Rendered.save (r : Rendered) (folder : Path) (tree : FileTree) : FileTree.Attempt :=
  let first := tree.save (folder.child (Tuning.fileName .pythagorean)) r.pythagorean
  match first.failure with
  | some _ => first
  | none => first.tree.save (folder.child (Tuning.fileName .equalTemperament)) r.equalTemperament

/-- The part of an export that comes after the rendering. -/
def writeRendered (folder : Path) (t : Timing) (r : Rendered) : Act Exported := do
  writeReporting (folder.child (Tuning.fileName .pythagorean)) r.pythagorean
  writeReporting (folder.child (Tuning.fileName .equalTemperament)) r.equalTemperament
  Act.report infoLevel (← Act.lift (exportedMessage r.chords t))
  return r.result folder

/-! ## What never fails -/

/-- `tuning.fileName` is a plain name: the names of the files lead to them. -/
theorem isPlain_fileName (tuning : Tuning) : FileTree.IsPlain tuning.fileName := by
  cases tuning <;> exact ⟨by decide, by decide, by decide⟩

/-- `placesText places q` exists for every number `q` of an accepted timing. -/
theorem exists_placesText {setting : Setting} {q : Quantity}
    (h : Timing.checkSetting setting q = .ok ()) (places : ℕ) :
    ∃ text, placesText places q = .ok text := by
  obtain ⟨r, hr, hpos, hbound⟩ := Timing.checkSetting_eq_ok_iff.1 h
  obtain ⟨a, ha, hvalue⟩ := Quantity.value?_eq_some_iff.1 hr
  obtain ⟨x, hx, -⟩ := Number.exists_toFloat hvalue (by rwa [abs_of_pos hpos])
  rw [placesText, ha, ok_bind, hx, ok_bind]
  exact ⟨_, rfl⟩

/-- `exportedMessage cs t` exists for an accepted timing. -/
theorem exists_exportedMessage {t : Timing} (h : Timing.make t.base t.tempo = .ok t)
    (cs : List ResolvedChord) : ∃ message, exportedMessage cs t = .ok message := by
  obtain ⟨hbase, htempo, -⟩ := Timing.make_eq_ok_iff.1 h
  obtain ⟨tempo, htempo⟩ := exists_placesText htempo 1
  obtain ⟨base, hbase⟩ := exists_placesText hbase 3
  rw [exportedMessage, htempo, ok_bind, hbase, ok_bind]
  exact ⟨_, rfl⟩

/-! ## The export as a whole -/

/-- `writeRendered folder t r` is `r.save folder`: the record at the end cannot fail for an accepted
timing. -/
theorem writeRendered_run {t : Timing} (htiming : Timing.make t.base t.tempo = .ok t) (folder : Path)
    (r : Rendered) (s : Session) :
    ∃ records, (writeRendered folder t r).run s =
      (match (r.save folder s.tree).failure with
        | none => .ok (r.result folder)
        | some f => .error f, ⟨(r.save folder s.tree).tree, records⟩) := by
  obtain ⟨records, hfirst⟩ :=
    writeReporting_run (folder.child (Tuning.fileName .pythagorean)) r.pythagorean s
  rw [writeRendered, Rendered.save]
  generalize s.tree.save (folder.child (Tuning.fileName .pythagorean)) r.pythagorean = first
    at hfirst ⊢
  cases hfailure : first.failure with
  | some f =>
    -- the second file is not tried
    rw [hfailure] at hfirst
    dsimp only
    rw [hfailure]
    exact ⟨records, Act.run_bind_error _ hfirst⟩
  | none =>
    rw [hfailure] at hfirst
    dsimp only at hfirst ⊢
    obtain ⟨records, hsecond⟩ :=
      writeReporting_run (folder.child (Tuning.fileName .equalTemperament)) r.equalTemperament
        ⟨first.tree, records⟩
    rw [Act.run_bind_ok _ hfirst]
    generalize first.tree.save (folder.child (Tuning.fileName .equalTemperament))
      r.equalTemperament = second at hsecond ⊢
    cases hfailure : second.failure with
    | some f =>
      rw [hfailure] at hsecond
      exact ⟨records, Act.run_bind_error _ hsecond⟩
    | none =>
      rw [hfailure] at hsecond
      -- the last record shows the timing, which `Timing.make` has accepted
      obtain ⟨message, hmessage⟩ := exists_exportedMessage htiming r.chords
      have hlift : (Act.lift (exportedMessage r.chords t)).run ⟨second.tree, records⟩ =
          (.ok message, ⟨second.tree, records⟩) := by
        rw [Act.run_lift, hmessage]
      rw [Act.run_bind_ok _ hsecond, Act.run_bind_ok _ hlift]
      exact ⟨_, rfl⟩

/-- **`exportSequence` is `rendered text t`, and then `Rendered.save`**: an export renders
everything before it writes anything. -/
theorem exportSequence_run (text directory : String) {t : Timing}
    (htiming : Timing.make t.base t.tempo = .ok t) (s : Session) :
    ∃ records, (exportSequence text directory t).run s = match rendered text t with
      | .error e => (.error e, ⟨s.tree, records⟩)
      | .ok r => (match (r.save (Path.ofString directory) s.tree).failure with
          | none => .ok (r.result (Path.ofString directory))
          | some f => .error f, ⟨(r.save (Path.ofString directory) s.tree).tree, records⟩) := by
  obtain ⟨records, hresolve⟩ := resolveReporting_run text s
  rw [exportSequence, rendered]
  cases hchords : resolveText text with
  | error e =>
    rw [hchords] at hresolve
    exact ⟨records, Act.run_bind_error _ hresolve⟩
  | ok chords =>
    rw [hchords] at hresolve
    rw [Act.run_bind_ok _ hresolve, ok_bind]
    have hpure := Act.run_lift (render .pythagorean t.base t.tempo chords) ⟨s.tree, records⟩
    have htempered := Act.run_lift (render .equalTemperament t.base t.tempo chords)
      ⟨s.tree, records⟩
    cases hpythagorean : render .pythagorean t.base t.tempo chords with
    | error e =>
      rw [hpythagorean] at hpure
      exact ⟨records, Act.run_bind_error _ hpure⟩
    | ok pythagorean =>
      rw [hpythagorean] at hpure
      rw [ok_bind]
      cases hequal : render .equalTemperament t.base t.tempo chords with
      | error e =>
        rw [hequal] at htempered
        exact ⟨records, (Act.run_bind_ok _ hpure).trans (Act.run_bind_error _ htempered)⟩
      | ok equalTemperament =>
        rw [hequal] at htempered
        obtain ⟨records, hwrite⟩ := writeRendered_run htiming (Path.ofString directory)
          ⟨chords, pythagorean, equalTemperament⟩ ⟨s.tree, records⟩
        exact ⟨records, (Act.run_bind_ok _ hpure).trans ((Act.run_bind_ok _ htempered).trans hwrite)⟩

/-! ## The four ends -/

/-- **How an export to a folder ends**: from what was rendered and the tree before, the result and
the tree after. -/
inductive ExportEnds (folder : Path) (before : FileTree) :
    Except Failure Rendered → Except Failure Exported → FileTree → Prop
  /-- The text or a rendering is refused, and the tree is as it was. -/
  | refused (e : Failure) : ExportEnds folder before (.error e) (.error e) before
  /-- There is a fault on the way to the first file, and at most missing directories on the way to
  the folder have been added. -/
  | unprepared {r : Rendered} {f : FileFault} {q : Path} {after : FileTree}
      (root : q.root = folder.root)
      (parts : q.parts <+: (folder.child (Tuning.fileName .pythagorean)).parts)
      (tree : before.Extends after (before.placesOf folder)) :
      ExportEnds folder before (.ok r) (.error (.file f q.text)) after
  /-- There is a fault at the second file, and the first one has been written. -/
  | halfway {r : Rendered} {f : FileFault} {l : Location} {after : FileTree}
      (tree : before.WrittenIn after folder l [(Tuning.fileName .pythagorean, r.pythagorean)]) :
      ExportEnds folder before (.ok r)
        (.error (.file f (folder.child (Tuning.fileName .equalTemperament)).text)) after
  /-- Both files have been written. -/
  | exported {r : Rendered} {l : Location} {after : FileTree}
      (tree : before.WrittenIn after folder l
        [(Tuning.fileName .equalTemperament, r.equalTemperament),
          (Tuning.fileName .pythagorean, r.pythagorean)]) :
      ExportEnds folder before (.ok r)
        (.ok ⟨folder.child (Tuning.fileName .pythagorean),
          folder.child (Tuning.fileName .equalTemperament), r.chords⟩) after

/-- `Path.ofString s` is usable if `'\x00' ∉ s.toList`. -/
theorem isUsable_ofString {s : String} (h : '\x00' ∉ s.toList) :
    (Path.ofString s).isUsable = true := by
  rw [Path.isUsable, List.all_eq_true]
  intro part hpart
  obtain ⟨piece, hpiece, rfl⟩ := List.mem_map.1 (List.mem_of_mem_filter hpart)
  have hmem : '\x00' ∉ piece := fun hzero => h (Text.mem_of_mem_splitOn hpiece hzero)
  simpa using hmem

/-- `r.save folder tree` ends in one of the three ways that `ExportEnds` has for what was rendered.
-/
theorem Rendered.save_ends {folder : Path} (hfolder : folder.isUsable = true) (r : Rendered)
    (tree : FileTree) :
    ExportEnds folder tree (.ok r) (match (r.save folder tree).failure with
      | none => .ok (r.result folder)
      | some f => .error f) (r.save folder tree).tree := by
  rw [Rendered.save]
  rcases tree.save_spec hfolder (isPlain_fileName .pythagorean) r.pythagorean with
    ⟨f, q, hfailure, hroot, hparts, htree⟩ | ⟨hnone, l, hwritten⟩
  · rw [hfailure]
    dsimp only
    rw [hfailure]
    exact .unprepared hroot hparts htree
  · rw [hnone]
    dsimp only
    generalize tree.save (folder.child (Tuning.fileName .pythagorean)) r.pythagorean = first
      at hwritten ⊢
    rcases hwritten.save hfolder (isPlain_fileName .equalTemperament)
      (by simpa using ⟨isPlain_fileName .pythagorean, by decide⟩) r.equalTemperament with
      ⟨f, hf⟩ | ⟨after, hafter, hwritten⟩
    · rw [hf]
      exact .halfway hwritten
    · rw [hafter]
      exact .exported hwritten

/-- If `r.save folder tree` has no failure, both files are in the folder. -/
theorem Rendered.written_of_save {folder : Path} {r : Rendered} {tree : FileTree}
    (h : (r.save folder tree).failure = none) :
    ∃ l, tree.WrittenIn (r.save folder tree).tree folder l
      [(Tuning.fileName .equalTemperament, r.equalTemperament),
        (Tuning.fileName .pythagorean, r.pythagorean)] := by
  -- nothing is saved in a folder whose path cannot be used
  have hfolder : folder.isUsable = true := by
    by_contra hunusable
    have hmake : tree.makeDirectories (folder.child (Tuning.fileName .pythagorean)).parent =
        ⟨some .undefined, tree⟩ := by
      rw [FileTree.parent_child, FileTree.makeDirectories, if_neg hunusable]
    rw [Rendered.save, FileTree.save, hmake] at h
    exact absurd h (by simp)
  have hends := r.save_ends hfolder tree
  rw [h] at hends
  cases hends with
  | exported hwritten => exact ⟨_, hwritten⟩

/-- **An export touches the files in only four ways**, as `ExportEnds` says. If the text, its tuning
or a rendering fails, nothing is touched. If a fault keeps the first file from being written, no
file has changed. If one keeps the second file from being written, the first one is complete and
nothing else has changed. If there is none, both files hold what was rendered and nothing else has
changed. Only missing directories on the way to the folder are ever added.

Text and directory are `String`s, so lone surrogates are not covered, and directories are created
however many are missing. -/
theorem exportSequence_ends (text : String) {directory : String} (t : Timing)
    (htiming : Timing.make t.base t.tempo = .ok t) (hdirectory : '\x00' ∉ directory.toList)
    (s : Session) :
    ExportEnds (Path.ofString directory) s.tree (rendered text t)
      ((exportSequence text directory t).run s).1
      ((exportSequence text directory t).run s).2.tree := by
  obtain ⟨records, hrun⟩ := exportSequence_run text directory htiming s
  rw [hrun]
  cases rendered text t with
  | error e => exact .refused e
  | ok r => exact r.save_ends (isUsable_ofString hdirectory) s.tree

/-- An octave above the reference pitch, which is exported below a working directory that holds
another file. -/
theorem exportSequence_ends_octave :
    let t : Timing := ⟨.float 1.0, .int 120⟩
    let s : Session := ⟨⟨["home"], [(["home"], .directory), (["home", "notes"], .file [1])]⟩, []⟩
    ∃ r l, rendered "440: 8" t = .ok r ∧
      s.tree.WrittenIn ((exportSequence "440: 8" "./takes//first" t).run s).2.tree
        (Path.ofString "./takes//first") l [("equal_temperament_chords.mid", r.equalTemperament),
          ("pythagorean_chords.mid", r.pythagorean)] := by
  intro t s
  have htiming : Timing.make t.base t.tempo = .ok t := rfl
  have hzero : '\x00' ∉ "./takes//first".toList := by decide
  have hends := exportSequence_ends "440: 8" t htiming hzero s
  have hok : ((exportSequence "440: 8" "./takes//first" t).run s).1.isOk = true := by
    decide +kernel
  obtain ⟨done, hdone⟩ := exists_of_isOk hok
  rw [hdone] at hends
  generalize hrendered : rendered "440: 8" t = r at hends ⊢
  cases hends with
  | exported htree => exact ⟨_, _, rfl, htree⟩

end Monochord
