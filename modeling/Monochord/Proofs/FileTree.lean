import Monochord.FileTree
import Monochord.Proofs.Outcome
import Monochord.Proofs.Text.Pieces

/-! # What operations do to a tree of files

Directories are only ever added where nothing was, and only on the way to the directory that is
asked for. A file is written at one place, and only if its directory exists.

* **`FileTree.Extends`** — a tree to which directories have been added at some places.
* **`FileTree.makeDirectories_spec`** — the tree after directories have been asked for.
* **`FileTree.save`** — a file written in a folder, which is made first; **`FileTree.save_spec`**,
  **`FileTree.save_spec_of_isDirectory`**.
* **`FileTree.WrittenIn`** — a tree after some files have been written in a folder. -/

namespace Monochord

namespace FileTree

variable {t u v : FileTree} {l m : Location} {names : List String}

/-! ## Entries -/

/-- `t.get? []` is a directory: the root. -/
theorem get?_root (t : FileTree) : t.get? [] = some .directory := if_pos rfl

/-- `(t.put l e).get? l = some e`. -/
theorem get?_put_self (hl : l ≠ []) (e : Entry) : (t.put l e).get? l = some e := by
  simp [get?, hl, put]

/-- `(t.put l e).get? m = t.get? m` for any other place `m`. -/
theorem get?_put_of_ne (hm : m ≠ l) (e : Entry) : (t.put l e).get? m = t.get? m := by
  rw [get?, get?, put, List.find?_cons_of_neg (by simpa using Ne.symm hm), List.find?_filter]
  have hsame : (fun x : Location × Entry => decide (decide (x.1 ≠ l) = true ∧ (x.1 == m) = true)) =
      fun x => x.1 == m := by
    funext x
    by_cases hx : x.1 = m
    · simp [hx, hm]
    · simp [hx]
  rw [hsame]

/-! ## Walking -/

/-- `t.walk l (xs ++ ys)` is `t.walk l xs`, and then `t.walk` along `ys` from there. -/
theorem walk_append (t : FileTree) (l : Location) (xs ys : List String) :
    t.walk l (xs ++ ys) = t.walk l xs >>= fun m => t.walk m ys := by
  induction xs generalizing l with
  | nil => rfl
  | cons name xs ih =>
    rw [List.cons_append, walk, walk]
    split
    · exact ih _
    · split
      · rfl
      · split
        · rfl
        · rfl
        · exact ih _

/-- `t.walk l names = u.walk l names` if it succeeds in `t` and all directories of `t` are in `u`.
-/
theorem walk_mono (hdirectories : ∀ l, t.get? l = some .directory → u.get? l = some .directory)
    (h : t.walk l names = .ok m) : u.walk l names = .ok m := by
  induction names generalizing l with
  | nil => exact h
  | cons name names ih =>
    rw [walk] at h ⊢
    split at h
    · next hback =>
      rw [if_pos hback]
      exact ih h
    · next hback =>
      rw [if_neg hback]
      split at h
      · exact absurd h (by simp)
      · next hlong =>
        rw [if_neg hlong]
        split at h
        · exact absurd h (by simp)
        · exact absurd h (by simp)
        · next hget =>
          rw [hdirectories _ hget]
          exact ih h

/-- `t.walk l [name]` leads to `l ++ [name]`, if a directory stands there. -/
theorem walk_singleton {name : String} (hname : name ≠ "..") (hlong : ¬isTooLong name = true) :
    t.walk l [name] = .ok m ↔ m = l ++ [name] ∧ t.get? (l ++ [name]) = some .directory := by
  rw [walk, if_neg hname, if_neg hlong]
  cases hget : t.get? (l ++ [name]) with
  | none => simp
  | some e =>
    cases e with
    | file content => simp
    | directory => simp [walk, eq_comm]

/-- `passed l xs ⊆ passed l (xs ++ ys)`. -/
theorem passed_subset_append (l : Location) (xs ys : List String) :
    passed l xs ⊆ passed l (xs ++ ys) := by
  induction xs generalizing l with
  | nil => exact List.nil_subset _
  | cons name xs ih =>
    rw [List.cons_append, passed, passed]
    split
    · exact ih _
    · exact List.cons_subset_cons _ (ih _)

/-- `m ++ [name]` is passed by `names ++ [name]`, if `t.walk l names = .ok m`. -/
theorem mem_passed_of_walk {name : String} (hname : name ≠ "..") (h : t.walk l names = .ok m) :
    m ++ [name] ∈ passed l (names ++ [name]) := by
  induction names generalizing l with
  | nil =>
    obtain rfl := Except.ok.inj h
    rw [List.nil_append, passed, if_neg hname]
    exact List.mem_cons_self
  | cons first names ih =>
    rw [walk] at h
    rw [List.cons_append, passed]
    split at h
    · next hback =>
      rw [if_pos hback]
      exact ih h
    · next hback =>
      rw [if_neg hback]
      split at h
      · exact absurd h (by simp)
      · split at h
        · exact absurd h (by simp)
        · exact absurd h (by simp)
        · exact List.mem_cons_of_mem _ (ih h)

/-! ## Locating -/

/-- `t.locate p` of a path without parts is `.back`: a directory without a name. -/
theorem locate_of_nil {p : Path} (h : p.parts = []) :
    t.locate p = if p.isTooLong then .error .nameTooLong else .ok .back := by
  rw [locate, h]
  cases p.isTooLong <;> rfl

/-- `t.locate p` walks along the parts of `p` but the last, and finds the place of that. -/
theorem locate_of_append {p : Path} {name : String} (h : p.parts = names ++ [name]) :
    t.locate p = if p.isTooLong then .error .nameTooLong
      else t.walk (t.start p) names >>= fun l =>
        if name = ".." then .ok .back
        else if isTooLong name then .error .nameTooLong
        else .ok (.place (l ++ [name])) := by
  rw [locate, h, List.dropLast_concat, List.getLast?_concat]
  cases p.isTooLong <;> rfl

/-- If `t.locate p = .ok (.place l)`, then `l` is the last part of `p` behind the place to which the
other parts lead. -/
theorem exists_of_locate {p : Path} (h : t.locate p = .ok (.place l)) :
    ∃ names name m, p.parts = names ++ [name] ∧ p.isTooLong = false ∧ name ≠ ".." ∧
      ¬isTooLong name = true ∧ t.walk (t.start p) names = .ok m ∧ l = m ++ [name] := by
  rcases List.eq_nil_or_concat' p.parts with hparts | ⟨names, name, hparts⟩
  · rw [locate_of_nil hparts] at h
    split at h <;> exact absurd h (by simp)
  · rw [locate_of_append hparts] at h
    split at h
    · exact absurd h (by simp)
    · next hshort =>
      obtain ⟨m, hm, h⟩ := bind_eq_ok_iff.1 h
      split at h
      · exact absurd h (by simp)
      · next hname =>
        split at h
        · exact absurd h (by simp)
        · next hlong =>
          refine ⟨names, name, m, hparts, by simpa using hshort, hname, hlong, hm, ?_⟩
          simpa using h.symm

/-- `t.isDirectory p = true` exactly if `p` is short enough and `t.walk` succeeds for its parts. -/
theorem isDirectory_iff {p : Path} :
    t.isDirectory p = true ↔ p.isTooLong = false ∧ ∃ l, t.walk (t.start p) p.parts = .ok l := by
  rw [isDirectory, Bool.and_eq_true, Bool.not_eq_true']
  refine and_congr_right fun _ => ⟨exists_of_isOk, ?_⟩
  rintro ⟨l, hl⟩
  rw [hl]
  rfl

/-! ## Trees that are extended -/

/-- The tree `u` is `t` with directories added, at some of `places` where nothing stood. -/
structure Extends (t u : FileTree) (places : List Location) : Prop where
  /-- The working directory stays. -/
  here : u.here = t.here
  /-- An entry stays, or a directory takes the place of nothing. -/
  get? (l : Location) : u.get? l = t.get? l ∨
    l ∈ places ∧ t.get? l = none ∧ u.get? l = some .directory

namespace Extends

variable {places : List Location}

/-- `t.Extends t places`: nothing has been added. -/
theorem refl (t : FileTree) (places : List Location) : t.Extends t places :=
  ⟨rfl, fun _ => .inl rfl⟩

/-- `Extends` is transitive: one addition after another. -/
theorem trans (h : t.Extends u places) (h' : u.Extends v places) : t.Extends v places := by
  refine ⟨h'.here.trans h.here, fun l => ?_⟩
  rcases h'.get? l with hv | ⟨hmem, hu, hv⟩
  · rw [hv]
    exact h.get? l
  · rcases h.get? l with hl | ⟨-, -, hl⟩
    · exact .inr ⟨hmem, hl ▸ hu, hv⟩
    · rw [hl] at hu
      exact absurd hu (by simp)

/-- `t.Extends u more` if `t.Extends u places` and `places ⊆ more`. -/
theorem mono {more : List Location} (h : t.Extends u places) (hsub : places ⊆ more) :
    t.Extends u more :=
  ⟨h.here, fun l => (h.get? l).imp_right fun ⟨hmem, hl⟩ => ⟨hsub hmem, hl⟩⟩

/-- `t.Extends (t.put l .directory) places` if nothing stands at `l`, which is one of `places`. -/
theorem put_directory (hmem : l ∈ places) (hl : t.get? l = none) :
    t.Extends (t.put l .directory) places := by
  have hne : l ≠ [] := by
    rintro rfl
    rw [get?_root] at hl
    exact absurd hl (by simp)
  refine ⟨rfl, fun m => ?_⟩
  by_cases hm : m = l
  · subst hm
    exact .inr ⟨hmem, hl, get?_put_self hne _⟩
  · exact .inl (get?_put_of_ne hm _)

/-- A directory of `t` is one of `u`. -/
theorem directory (h : t.Extends u places) (hl : t.get? l = some .directory) :
    u.get? l = some .directory := by
  rcases h.get? l with hu | ⟨-, hnone, -⟩
  · rw [hu, hl]
  · rw [hnone] at hl
    exact absurd hl (by simp)

/-- `u.start p = t.start p`. -/
theorem start (h : t.Extends u places) (p : Path) : u.start p = t.start p := by
  rw [FileTree.start, FileTree.start, h.here]

/-- `u.placesOf p = t.placesOf p`. -/
theorem placesOf (h : t.Extends u places) (p : Path) : u.placesOf p = t.placesOf p := by
  rw [FileTree.placesOf, FileTree.placesOf, h.start]

end Extends

/-! ## Making directories -/

/-- If `t.makeDirectory p = .ok u`, then `u` extends `t` on the way of `p`, and `p` is a directory
of `u`. -/
theorem makeDirectory_spec {p : Path} (h : t.makeDirectory p = .ok u) :
    t.Extends u (t.placesOf p) ∧ u.isDirectory p = true := by
  obtain ⟨target, htarget, h⟩ := bind_eq_ok_iff.1 h
  cases target with
  | back => exact absurd h (by simp)
  | place l =>
    obtain ⟨names, name, m, hparts, hshort, hname, hlong, hwalk, rfl⟩ := exists_of_locate htarget
    cases hget : t.get? (m ++ [name]) with
    | some e =>
      simp only [hget] at h
      exact absurd h (by simp)
    | none =>
      simp only [hget, pure_eq_ok] at h
      obtain rfl := Except.ok.inj h
      have hmem : m ++ [name] ∈ t.placesOf p := by
        rw [placesOf, hparts]
        exact mem_passed_of_walk hname hwalk
      have hextends := Extends.put_directory hmem hget
      refine ⟨hextends, isDirectory_iff.2 ⟨hshort, m ++ [name], ?_⟩⟩
      rw [hparts, walk_append, hextends.start, walk_mono (fun _ => hextends.directory) hwalk,
        ok_bind, walk_singleton hname hlong]
      exact ⟨rfl, get?_put_self (by simp) _⟩

/-- `t.makeDirectory p = .error .present` for a directory that exists. -/
theorem makeDirectory_of_isDirectory {p : Path} (h : t.isDirectory p = true) :
    t.makeDirectory p = .error .present := by
  obtain ⟨hshort, l, hwalk⟩ := isDirectory_iff.1 h
  rcases List.eq_nil_or_concat' p.parts with hparts | ⟨names, name, hparts⟩
  · rw [makeDirectory, locate_of_nil hparts, hshort]
    rfl
  · rw [hparts, walk_append] at hwalk
    obtain ⟨m, hm, hlast⟩ := bind_eq_ok_iff.1 hwalk
    rw [makeDirectory, locate_of_append hparts, hshort, if_neg Bool.false_ne_true, hm, ok_bind]
    by_cases hname : name = ".."
    · rw [if_pos hname]
      rfl
    · by_cases hlong : isTooLong name = true
      · rw [walk, if_neg hname, if_pos hlong] at hlast
        exact absurd hlast (by simp)
      · obtain ⟨-, hget⟩ := (walk_singleton hname hlong).1 hlast
        rw [if_neg hname, if_neg hlong, ok_bind]
        simp only [hget]
        rfl

/-- **An attempt to make directories** on the way of a path `p`: it only adds missing ones there,
and it ends with the directory that was asked for or with a fault on the way to it. -/
structure Attempt.Prepares (a : Attempt) (t : FileTree) (p : Path) : Prop where
  /-- Only missing directories on the way are added. -/
  added : t.Extends a.tree (t.placesOf p)
  /-- The directory exists, or there is a fault on the way. -/
  outcome : (a.failure = none ∧ a.tree.isDirectory p = true) ∨
    ∃ (f : FileFault) (q : Path), a.failure = some (.file f q.text) ∧ q.root = p.root ∧
      q.parts <+: p.parts

/-- `t.ensureDirectory p` prepares `p`. -/
theorem ensureDirectory_spec (t : FileTree) (p : Path) : (t.ensureDirectory p).Prepares t p := by
  rw [ensureDirectory]
  split
  · next hmade =>
    obtain ⟨hextends, hdirectory⟩ := makeDirectory_spec hmade
    exact ⟨hextends, .inl ⟨rfl, hdirectory⟩⟩
  · next f _ =>
    refine ⟨.refl t _, ?_⟩
    by_cases hpresent : (f ≠ .missing && t.isDirectory p) = true
    · exact .inl ⟨if_pos hpresent, (Bool.and_eq_true _ _ ▸ hpresent).2⟩
    · exact .inr ⟨f, p, if_neg hpresent, rfl, List.prefix_rfl⟩

/-- `makeDirectoriesBackwards` prepares the path of `backwards.reverse`, with all that is missing on
the way. -/
theorem makeDirectoriesBackwards_spec (root : String) (t : FileTree) (backwards : List String) :
    (makeDirectoriesBackwards root t backwards).Prepares t ⟨root, backwards.reverse⟩ := by
  induction backwards generalizing t with
  | nil => exact t.ensureDirectory_spec ⟨root, []⟩
  | cons name before ih =>
    rw [makeDirectoriesBackwards]
    dsimp only
    split
    · -- the parent is prepared first
      obtain ⟨hextends, houtcome⟩ := ih t
      have hparent := hextends.mono
        (List.reverse_cons ▸ passed_subset_append (t.start ⟨root, _⟩) before.reverse [name])
      split
      · next f hfailure =>
        refine ⟨hparent, .inr ?_⟩
        rcases houtcome with ⟨hnone, -⟩ | ⟨f, q, hf, hroot, hparts⟩
        · rw [hfailure] at hnone
          exact absurd hnone (by simp)
        · refine ⟨f, q, hf, hroot, hparts.trans ?_⟩
          rw [List.reverse_cons]
          exact List.prefix_append _ _
      · -- and then the directory itself is tried again
        obtain ⟨hchild, houtcome⟩ :=
          ensureDirectory_spec (makeDirectoriesBackwards root t before).tree
            ⟨root, (name :: before).reverse⟩
        refine ⟨hparent.trans ?_, houtcome⟩
        rw [hparent.placesOf] at hchild
        exact hchild
    · exact t.ensureDirectory_spec _

/-- **`t.makeDirectories p` prepares `p`**, if the system can take the path. -/
theorem makeDirectories_spec (t : FileTree) {p : Path} (h : p.isUsable = true) :
    (t.makeDirectories p).Prepares t p := by
  rw [makeDirectories, if_pos h]
  have hspec := makeDirectoriesBackwards_spec p.root t p.parts.reverse
  rw [List.reverse_reverse] at hspec
  exact hspec

/-- `t.ensureDirectory p = ⟨none, t⟩` for a directory that exists. -/
theorem ensureDirectory_of_isDirectory {p : Path} (h : t.isDirectory p = true) :
    t.ensureDirectory p = ⟨none, t⟩ := by
  rw [ensureDirectory, makeDirectory_of_isDirectory h]
  dsimp only
  rw [h]
  rfl

/-- **`t.makeDirectories p = ⟨none, t⟩` for a directory that exists.** -/
theorem makeDirectories_of_isDirectory {p : Path} (husable : p.isUsable = true)
    (h : t.isDirectory p = true) : t.makeDirectories p = ⟨none, t⟩ := by
  rw [makeDirectories, if_pos husable]
  rcases List.eq_nil_or_concat' p.parts with hparts | ⟨names, name, hparts⟩
  · have hp : p = ⟨p.root, []⟩ := by rw [← hparts]
    rw [hparts, List.reverse_nil, makeDirectoriesBackwards, ← hp]
    exact ensureDirectory_of_isDirectory h
  · have hp : p = ⟨p.root, (name :: names.reverse).reverse⟩ := by
      rw [List.reverse_cons, List.reverse_reverse, ← hparts]
    rw [hparts, List.reverse_concat, makeDirectoriesBackwards]
    dsimp only
    rw [← hp, makeDirectory_of_isDirectory h]
    exact ensureDirectory_of_isDirectory h

/-! ## Writing in a folder -/

/-- A name that an entry can have, and that leads to it. -/
structure IsPlain (name : String) : Prop where
  /-- It does not lead back. -/
  notBack : name ≠ ".."
  /-- It is not too long. -/
  short : ¬isTooLong name = true
  /-- The system can take it. -/
  usable : '\x00' ∉ name.toList

variable {folder : Path} {name : String}

/-- `folder.child name` is usable if `folder` is. -/
theorem isUsable_child (hfolder : folder.isUsable = true) (hname : IsPlain name) :
    (folder.child name).isUsable = true := by
  rw [Path.isUsable] at hfolder
  rw [Path.isUsable, Path.child, List.all_append, hfolder]
  simpa using hname.usable

/-- `t.locate (folder.child name)` is `name` in the folder at `l`, unless the path is too long. -/
theorem locate_child (hname : IsPlain name) (hwalk : t.walk (t.start folder) folder.parts = .ok l) :
    t.locate (folder.child name) =
      if (folder.child name).isTooLong then .error .nameTooLong
      else .ok (.place (l ++ [name])) := by
  have hstart : t.start (folder.child name) = t.start folder := rfl
  have hparts : (folder.child name).parts = folder.parts ++ [name] := rfl
  rw [locate_of_append hparts, hstart, hwalk, ok_bind, if_neg hname.notBack,
    if_neg hname.short]

/-- **`t.readFile (folder.child name) = .ok content`** exactly if a file of this content stands at
`l ++ [name]`. -/
theorem readFile_child_iff (hfolder : folder.isUsable = true) (hname : IsPlain name)
    (hwalk : t.walk (t.start folder) folder.parts = .ok l) {content : Bytes} :
    t.readFile (folder.child name) = .ok content ↔
      (folder.child name).isTooLong = false ∧ t.get? (l ++ [name]) = some (.file content) := by
  rw [readFile, isUsable_child hfolder hname, locate_child hname hwalk]
  cases (folder.child name).isTooLong with
  | true => simp [fault]
  | false =>
    cases hget : t.get? (l ++ [name]) with
    | none => simp [fault, hget]
    | some e => cases e <;> simp [fault, hget]

/-- **The tree `u` is `t` with `files` written in a folder**, to which a path leads. -/
structure WrittenIn (t u : FileTree) (folder : Path) (l : Location)
    (files : List (String × Bytes)) : Prop where
  /-- The working directory stays. -/
  here : u.here = t.here
  /-- The path is short enough. -/
  short : folder.isTooLong = false
  /-- It leads to the folder. -/
  leads : u.walk (u.start folder) folder.parts = .ok l
  /-- The files can be read. -/
  reads : ∀ f ∈ files, u.readFile (folder.child f.1) = .ok f.2
  /-- At all other places entries stay, or missing directories on the way have been added. -/
  frame (m : Location) : (∀ f ∈ files, m ≠ l ++ [f.1]) → u.get? m = t.get? m ∨
    m ∈ t.placesOf folder ∧ t.get? m = none ∧ u.get? m = some .directory

namespace WrittenIn

variable {files : List (String × Bytes)}

/-- `t.WrittenIn u folder l []` for a folder that is there, before anything is written in it. -/
theorem of_extends (h : t.Extends u (t.placesOf folder))
    (hdirectory : u.isDirectory folder = true) : ∃ l, t.WrittenIn u folder l [] := by
  obtain ⟨hshort, l, hwalk⟩ := isDirectory_iff.1 hdirectory
  exact ⟨l, h.here, hshort, hwalk, fun f hf => absurd hf List.not_mem_nil, fun m _ => h.get? m⟩

/-- **One more file** may be put at `l ++ [name]`, where no directory is: `WrittenIn` holds with
`(name, content) :: files`. -/
theorem put (h : t.WrittenIn u folder l files) (hfolder : folder.isUsable = true)
    (hname : IsPlain name) (hfiles : ∀ f ∈ files, IsPlain f.1 ∧ f.1 ≠ name)
    (hshort : (folder.child name).isTooLong = false)
    (hget : u.get? (l ++ [name]) ≠ some .directory) (content : Bytes) :
    t.WrittenIn (u.put (l ++ [name]) (.file content)) folder l ((name, content) :: files) := by
  have hleads :
      (u.put (l ++ [name]) (.file content)).walk (u.start folder) folder.parts = .ok l := by
    refine walk_mono (fun m hm => ?_) h.leads
    have hne : m ≠ l ++ [name] := by
      rintro rfl
      exact hget hm
    rw [get?_put_of_ne hne, hm]
  refine ⟨h.here, h.short, hleads, ?_, fun m hm => ?_⟩
  · rw [List.forall_mem_cons]
    constructor
    · rw [readFile_child_iff hfolder hname hleads]
      exact ⟨hshort, get?_put_self (by simp) _⟩
    · -- the older files have other names
      intro f hf
      obtain ⟨hplain, hne⟩ := hfiles f hf
      obtain ⟨hfshort, hfget⟩ := (readFile_child_iff hfolder hplain h.leads).1 (h.reads f hf)
      rw [readFile_child_iff hfolder hplain hleads, get?_put_of_ne (by simpa using hne)]
      exact ⟨hfshort, hfget⟩
  · rw [List.forall_mem_cons] at hm
    rw [get?_put_of_ne hm.1]
    exact h.frame m hm.2

/-- `u.writeFile (folder.child name) content` adds one more file and changes nothing else, and if it
fails it changes nothing. -/
theorem writeFile (h : t.WrittenIn u folder l files) (hfolder : folder.isUsable = true)
    (hname : IsPlain name) (hfiles : ∀ f ∈ files, IsPlain f.1 ∧ f.1 ≠ name) (content : Bytes) :
    (∃ f, u.writeFile (folder.child name) content =
      ⟨some (.file f (folder.child name).text), u⟩) ∨
    ∃ v, u.writeFile (folder.child name) content = ⟨none, v⟩ ∧
      t.WrittenIn v folder l ((name, content) :: files) := by
  rw [FileTree.writeFile, locate_child hname h.leads]
  cases hshort : (folder.child name).isTooLong with
  | true => exact .inl ⟨_, rfl⟩
  | false =>
    rw [if_neg Bool.false_ne_true]
    dsimp only
    by_cases hget : u.get? (l ++ [name]) = some .directory
    · exact .inl ⟨.isDirectory, by simp [hget]⟩
    · refine .inr ⟨_, ?_, h.put hfolder hname hfiles hshort hget content⟩
      split
      · next hdirectory => exact absurd hdirectory hget
      · rfl

end WrittenIn

/-- Writes a file, after the directories on the way to it have been made. -/
def save (t : FileTree) (p : Path) (content : Bytes) : Attempt :=
  match (t.makeDirectories p.parent).failure with
  | some _ => t.makeDirectories p.parent
  | none => (t.makeDirectories p.parent).tree.writeFile p content

/-- `(folder.child name).parent = folder`. -/
theorem parent_child (folder : Path) (name : String) : (folder.child name).parent = folder := by
  rw [Path.parent, Path.child, List.dropLast_concat]

/-- **`t.save (folder.child name) content` writes the file**, or it fails and adds nothing but
missing directories. -/
theorem save_spec (t : FileTree) (hfolder : folder.isUsable = true) (hname : IsPlain name)
    (content : Bytes) :
    (∃ (f : FileFault) (q : Path), (t.save (folder.child name) content).failure =
        some (.file f q.text) ∧ q.root = folder.root ∧ q.parts <+: (folder.child name).parts ∧
      t.Extends (t.save (folder.child name) content).tree (t.placesOf folder)) ∨
    ((t.save (folder.child name) content).failure = none ∧
      ∃ l, t.WrittenIn (t.save (folder.child name) content).tree folder l [(name, content)]) := by
  obtain ⟨hadded, houtcome⟩ := t.makeDirectories_spec hfolder
  rw [save, parent_child]
  rcases houtcome with ⟨hnone, hdirectory⟩ | ⟨f, q, hfailure, hroot, hparts⟩
  · rw [hnone]
    obtain ⟨l, hwritten⟩ := WrittenIn.of_extends hadded hdirectory
    rcases hwritten.writeFile hfolder hname (by simp) content with ⟨f, hf⟩ | ⟨v, hv, hwritten⟩
    · dsimp only
      rw [hf]
      exact .inl ⟨f, _, rfl, rfl, List.prefix_rfl, hadded⟩
    · dsimp only
      rw [hv]
      exact .inr ⟨rfl, l, hwritten⟩
  · rw [hfailure]
    exact .inl ⟨f, q, hfailure, hroot, hparts.trans (List.prefix_append _ _), hadded⟩

/-- **A further `save` in the same folder writes the file**, or it fails and changes nothing at all.
-/
theorem WrittenIn.save {files : List (String × Bytes)} (h : t.WrittenIn u folder l files)
    (hfolder : folder.isUsable = true) (hname : IsPlain name)
    (hfiles : ∀ f ∈ files, IsPlain f.1 ∧ f.1 ≠ name) (content : Bytes) :
    (∃ f, u.save (folder.child name) content = ⟨some (.file f (folder.child name).text), u⟩) ∨
    ∃ v, u.save (folder.child name) content = ⟨none, v⟩ ∧
      t.WrittenIn v folder l ((name, content) :: files) := by
  have hdirectory : u.isDirectory folder = true := isDirectory_iff.2 ⟨h.short, l, h.leads⟩
  rw [FileTree.save, parent_child, makeDirectories_of_isDirectory hfolder hdirectory]
  exact h.writeFile hfolder hname hfiles content

end FileTree

end Monochord
