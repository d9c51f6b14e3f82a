import MediaServer.Inotify.Thread
import Mathlib.Data.List.Nodup
import Mathlib.Data.List.Infix
import Mathlib.Data.List.TakeWhile

/-!
# The file system under the watches

Directories carry the number by which the kernel identifies them, which is also
their watch descriptor: it is the same whenever the directory is watched again
and never given to another directory. Paths are lists of names from the root of
the file system.
-/

namespace MediaServer.Inotify

abbrev Path := List Text

instance : LawfulBEq Path := inferInstance

/-- The absolute path as the server writes it. -/
def text (p : Path) : Text := p.flatMap fun name => '/' :: name

/-- The path is that of the directory or lies below it. -/
def Under (dirPath path : Text) : Prop := path = dirPath ∨ dirPath ++ ['/'] <+: path

instance (dirPath path : Text) : Decidable (Under dirPath path) :=
  inferInstanceAs (Decidable (path = dirPath ∨ dirPath ++ ['/'] <+: path))

/-- A name that the kernel accepts. -/
def ValidName (name : Text) : Prop := name ≠ [] ∧ '/' ∉ name

instance (name : Text) : Decidable (ValidName name) :=
  inferInstanceAs (Decidable (name ≠ [] ∧ '/' ∉ name))

/-- A name that `.` begins is skipped by the walkers and the thread. -/
def hiddenName (name : Text) : Bool := name.head? = some '.'

/-- The path lies at or below the root, and no name below it is hidden. -/
def Visible (root p : Path) : Prop :=
  root <+: p ∧ ∀ name ∈ p.drop root.length, ¬ hiddenName name

instance (root p : Path) : Decidable (Visible root p) :=
  inferInstanceAs (Decidable (root <+: p ∧ ∀ name ∈ p.drop root.length, ¬ hiddenName name))

/-- Where a path goes when `src` is renamed to `dst`. -/
def reroot (src dst p : Path) : Path := if src <+: p then dst ++ p.drop src.length else p

structure Tree where
  dirs : List (Path × Nat)
  files : List Path
  /-- Numbers from here on have not been used. -/
  nextId : Nat
deriving DecidableEq, Repr

namespace Tree

variable (t : Tree)

def IsDir (p : Path) : Prop := ∃ id, (p, id) ∈ t.dirs

instance (p : Path) : Decidable (t.IsDir p) :=
  decidable_of_iff (∃ d ∈ t.dirs, d.1 = p)
    ⟨fun ⟨d, hd, hp⟩ => ⟨d.2, hp ▸ hd⟩, fun ⟨_, h⟩ => ⟨_, h, rfl⟩⟩

/-- Nothing lies below the path. -/
def Childless (p : Path) : Prop :=
  (∀ d ∈ t.dirs, p <+: d.1 → d.1 = p) ∧ ∀ q ∈ t.files, p <+: q → q = p

instance (p : Path) : Decidable (t.Childless p) :=
  inferInstanceAs (Decidable ((∀ d ∈ t.dirs, p <+: d.1 → d.1 = p) ∧
    ∀ q ∈ t.files, p <+: q → q = p))

/-- Every entry has a directory around it, a path holds one entry, and no number
is used twice. -/
structure Wf : Prop where
  dirsNodup : (t.dirs.map Prod.fst).Nodup
  idsNodup : (t.dirs.map Prod.snd).Nodup
  ids : ∀ d ∈ t.dirs, 0 < d.2 ∧ d.2 < t.nextId
  disjoint : ∀ p ∈ t.files, ¬ t.IsDir p
  dirNames : ∀ d ∈ t.dirs, ∀ name ∈ d.1, ValidName name
  fileNames : ∀ p ∈ t.files, ∀ name ∈ p, ValidName name
  dirParent : ∀ d ∈ t.dirs, d.1 ≠ [] → t.IsDir d.1.dropLast
  fileParent : ∀ p ∈ t.files, t.IsDir p.dropLast

/-- The name of `q` in the directory `p`. -/
def childName (p q : Path) : Option Text := if q.dropLast = p then q.getLast? else none

/-- What `readdir_r` returns for the directory. -/
def children (p : Path) : List Dirent :=
  (t.dirs.filterMap fun d => (childName p d.1).map fun name => ⟨name, dtDir⟩) ++
    t.files.filterMap fun q => (childName p q).map fun name => ⟨name, dtReg⟩

/-- The directory at an absolute path. -/
def dirAt (path : Text) : Option (Path × Nat) := t.dirs.find? fun d => text d.1 = path

/-- The file system as the server sees it. -/
def world : World where
  fs :=
    { entries := fun path => ((t.dirAt path).map fun d => t.children d.1).getD []
      opens := fun path => (t.dirAt path).isSome }
  inotifyAddWatch := fun path => ((t.dirAt path).map fun d => (d.2 : Int)).getD (-1)

/-! ### The operations -/

def addFile (p : Path) : Tree := if p ∈ t.files then t else { t with files := t.files ++ [p] }

def removeFile (p : Path) : Tree := { t with files := t.files.filter (· ≠ p) }

def addDir (p : Path) : Tree :=
  { t with dirs := t.dirs ++ [(p, t.nextId)], nextId := t.nextId + 1 }

def removeDir (p : Path) : Tree := { t with dirs := t.dirs.filter (·.1 ≠ p) }

/-- What was at `dst` is replaced. -/
def rename (src dst : Path) : Tree :=
  { t with
    dirs := (t.dirs.filter (·.1 ≠ dst)).map fun d => (reroot src dst d.1, d.2)
    files := (t.files.filter (· ≠ dst)).map (reroot src dst) }

end Tree

section Text

@[simp] theorem text_append (p q : Path) : text (p ++ q) = text p ++ text q := by
  simp [text]

@[simp] theorem text_singleton (name : Text) : text [name] = '/' :: name := by
  simp [text]

theorem under_append_text (path : Text) (rel : Path) : Under path (path ++ text rel) := by
  cases rel with
  | nil => exact .inl (List.append_nil path)
  | cons name rel =>
      refine .inr ⟨name ++ text rel, ?_⟩
      rw [List.append_assoc]
      rfl

theorem under_text {root p : Path} (h : root <+: p) : Under (text root) (text p) := by
  obtain ⟨rel, rfl⟩ := h
  rw [text_append]
  exact under_append_text (text root) rel

theorem length_le_text (p : Path) : p.length ≤ (text p).length := by
  induction p with
  | nil => exact Nat.zero_le _
  | cons name p ih =>
      have h : text (name :: p) = '/' :: name ++ text p := rfl
      rw [h, List.length_append, List.length_cons, List.length_cons]
      omega

theorem takeWhile_text {name : Text} (h : '/' ∉ name) (p : Path) :
    (name ++ text p).takeWhile (· ≠ '/') = name := by
  have hname : ∀ c ∈ name, decide (c ≠ '/') = true := by
    intro c hc
    apply decide_eq_true
    rintro rfl
    exact h hc
  rw [List.takeWhile_append_of_pos hname]
  cases p with
  | nil => exact List.append_nil _
  | cons n p => exact List.append_nil _

/-- Names without a slash can be read back from the path. -/
theorem text_inj {p q : Path} (hp : ∀ name ∈ p, '/' ∉ name) (hq : ∀ name ∈ q, '/' ∉ name)
    (h : text p = text q) : p = q := by
  induction p generalizing q with
  | nil =>
      cases q with
      | nil => rfl
      | cons m q => cases h
  | cons n p ih =>
      cases q with
      | nil => cases h
      | cons m q =>
          have htail : n ++ text p = m ++ text q := (List.cons.inj h).2
          have hname : n = m := by
            rw [← takeWhile_text (hp n List.mem_cons_self) p, htail,
              takeWhile_text (hq m List.mem_cons_self) q]
          subst hname
          rw [ih (fun x hx => hp x (List.mem_cons_of_mem _ hx))
            (fun x hx => hq x (List.mem_cons_of_mem _ hx)) (List.append_cancel_left htail)]

end Text

section Paths

variable {root src dst p q rel : Path} {name : Text}

theorem visible_iff :
    Visible root p ↔ ∃ rel, p = root ++ rel ∧ ∀ name ∈ rel, ¬ hiddenName name := by
  constructor
  · rintro ⟨⟨rel, rfl⟩, h⟩
    rw [List.drop_left] at h
    exact ⟨rel, rfl, h⟩
  · rintro ⟨rel, rfl, h⟩
    refine ⟨List.prefix_append _ _, ?_⟩
    rwa [List.drop_left]

theorem visible_append (h : Visible root p) :
    Visible root (p ++ rel) ↔ ∀ name ∈ rel, ¬ hiddenName name := by
  obtain ⟨rel', rfl, hrel'⟩ := visible_iff.mp h
  constructor
  · intro hvisible name hname
    rw [List.append_assoc] at hvisible
    obtain ⟨rel'', heq, hrel''⟩ := visible_iff.mp hvisible
    rw [← List.append_cancel_left heq] at hrel''
    exact hrel'' name (List.mem_append_right _ hname)
  · intro hrel
    refine visible_iff.mpr ⟨rel' ++ rel, List.append_assoc _ _ _, fun name hname => ?_⟩
    cases List.mem_append.mp hname with
    | inl hname => exact hrel' name hname
    | inr hname => exact hrel name hname

/-- The way down from the root passes through visible directories only. -/
theorem Visible.of_append (h : Visible root (p ++ rel)) (hroot : root <+: p) :
    Visible root p := by
  obtain ⟨rel', rfl⟩ := hroot
  rw [List.append_assoc] at h
  obtain ⟨rel'', heq, hrel''⟩ := visible_iff.mp h
  rw [← List.append_cancel_left heq] at hrel''
  exact visible_iff.mpr ⟨rel', rfl, fun name hname => hrel'' name (List.mem_append_left _ hname)⟩

theorem prefix_of_append (h : root <+: p ++ rel) (hroot : ¬ p <+: root) : root <+: p :=
  (List.prefix_or_prefix_of_prefix h (List.prefix_append p rel)).resolve_right hroot

theorem Visible.above (h : Visible root (p ++ rel)) (hroot : ¬ p <+: root) : Visible root p :=
  h.of_append (prefix_of_append h.1 hroot)

theorem visible_concat (hroot : ¬ p ++ [name] <+: root) :
    Visible root (p ++ [name]) ↔ Visible root p ∧ ¬ hiddenName name := by
  constructor
  · intro h
    have hp : root <+: p := by
      cases List.prefix_concat_iff.mp h.1 with
      | inl heq => exact absurd (heq ▸ List.prefix_refl _) hroot
      | inr hp => exact hp
    have hvisible := h.of_append hp
    exact ⟨hvisible, (visible_append hvisible).mp h name (List.mem_singleton_self _)⟩
  · rintro ⟨hp, hname⟩
    apply (visible_append hp).mpr
    intro n hn
    rwa [List.mem_singleton.mp hn]

@[simp] theorem reroot_append (src dst rel : Path) : reroot src dst (src ++ rel) = dst ++ rel := by
  rw [reroot, if_pos (List.prefix_append _ _), List.drop_left]

theorem reroot_beside (h : ¬ src <+: p) : reroot src dst p = p := if_neg h

theorem not_below_append (h : ¬ src <+: dst) (h' : ¬ dst <+: src) (rel : Path) :
    ¬ src <+: dst ++ rel :=
  fun hsrc => h (prefix_of_append hsrc h')

/-- Only paths below `dst` could be hit twice. -/
theorem reroot_inj (hp : ¬ dst <+: p) (hq : ¬ dst <+: q)
    (h : reroot src dst p = reroot src dst q) : p = q := by
  by_cases hsp : src <+: p
  · obtain ⟨rel, rfl⟩ := hsp
    by_cases hsq : src <+: q
    · obtain ⟨rel', rfl⟩ := hsq
      rw [reroot_append, reroot_append] at h
      rw [List.append_cancel_left h]
    · rw [reroot_append, reroot_beside hsq] at h
      exact absurd (h ▸ List.prefix_append _ _) hq
  · by_cases hsq : src <+: q
    · obtain ⟨rel', rfl⟩ := hsq
      rw [reroot_append, reroot_beside hsp] at h
      exact absurd (h ▸ List.prefix_append _ _) hp
    · rwa [reroot_beside hsp, reroot_beside hsq] at h

end Paths

namespace Tree

variable {t : Tree} {p q src dst : Path} {name : Text} {id : Nat}

/-- There is a directory or a file at the path. -/
def Has (t : Tree) (p : Path) : Prop := t.IsDir p ∨ p ∈ t.files

namespace Wf

theorem isDir_parent (h : t.Wf) (hdir : t.IsDir (p ++ [name])) : t.IsDir p := by
  obtain ⟨id, hmem⟩ := hdir
  have hparent := h.dirParent _ hmem (List.append_ne_nil_of_right_ne_nil _ (List.cons_ne_nil _ _))
  rwa [List.dropLast_concat] at hparent

theorem isDir_of_append (h : t.Wf) {rel : Path} (hdir : t.IsDir (p ++ rel)) : t.IsDir p := by
  induction rel using List.reverseRecOn with
  | nil => rwa [List.append_nil] at hdir
  | append_singleton rel name ih =>
      rw [← List.append_assoc] at hdir
      exact ih (h.isDir_parent hdir)

/-- What has something below it is a directory. -/
theorem isDir_of_has (h : t.Wf) (hhas : t.Has (p ++ [name])) : t.IsDir p := by
  cases hhas with
  | inl hdir => exact h.isDir_parent hdir
  | inr hfile =>
      have hparent := h.fileParent _ hfile
      rwa [List.dropLast_concat] at hparent

theorem validName (h : t.Wf) (hhas : t.Has p) : ∀ name ∈ p, ValidName name := by
  rcases hhas with ⟨id, hmem⟩ | hfile
  · exact h.dirNames _ hmem
  · exact h.fileNames p hfile

theorem text_eq (h : t.Wf) (hp : t.Has p) (hq : t.Has q) (heq : text p = text q) : p = q :=
  text_inj (fun name hname => (h.validName hp name hname).2)
    (fun name hname => (h.validName hq name hname).2) heq

theorem id_unique (h : t.Wf) {id' : Nat} (hp : (p, id) ∈ t.dirs) (hp' : (p, id') ∈ t.dirs) :
    id = id' :=
  congrArg Prod.snd (List.inj_on_of_nodup_map h.dirsNodup hp hp' rfl)

theorem path_unique (h : t.Wf) (hp : (p, id) ∈ t.dirs) (hq : (q, id) ∈ t.dirs) : p = q :=
  congrArg Prod.fst (List.inj_on_of_nodup_map h.idsNodup hp hq rfl)

/-- A directory that does not exist has nothing below it. -/
theorem childless_of_not_isDir (h : t.Wf) (hdir : ¬ t.IsDir p) : t.Childless p := by
  constructor
  · rintro ⟨q, id⟩ hmem ⟨rel, rfl⟩
    exact absurd (h.isDir_of_append ⟨id, hmem⟩) hdir
  · rintro q hmem ⟨rel, rfl⟩
    cases rel using List.reverseRecOn with
    | nil => exact List.append_nil p
    | append_singleton rel name =>
        have hhas : t.Has (p ++ rel ++ [name]) := .inr (by rwa [List.append_assoc])
        exact absurd (h.isDir_of_append (h.isDir_of_has hhas)) hdir

/-- Only directories have something below them, so a file takes nothing with it. -/
theorem rename_dirs_of_file (h : t.Wf) (hsrc : ¬ t.IsDir src) (hdst : ¬ t.IsDir dst) :
    (t.rename src dst).dirs = t.dirs := by
  have hfilter : t.dirs.filter (fun d => d.1 ≠ dst) = t.dirs :=
    List.filter_eq_self.mpr fun d hd => decide_eq_true fun heq => hdst ⟨d.2, heq ▸ hd⟩
  have hmap : ∀ d ∈ t.dirs, (reroot src dst d.1, d.2) = d := by
    intro d hd
    rw [reroot_beside]
    rintro ⟨rel, hrel⟩
    have hdir : t.IsDir (src ++ rel) := ⟨d.2, hrel ▸ hd⟩
    exact hsrc (h.isDir_of_append hdir)
  rw [Tree.rename, hfilter, List.map_congr_left hmap, List.map_id']

/-! ### What the server sees -/

theorem dirAt_text (h : t.Wf) (hmem : (p, id) ∈ t.dirs) : t.dirAt (text p) = some (p, id) := by
  rw [dirAt]
  cases hfind : t.dirs.find? fun d => text d.1 = text p with
  | none =>
      have hnone := List.find?_eq_none.mp hfind _ hmem
      exact absurd (decide_eq_true rfl) hnone
  | some d =>
      have hd : d ∈ t.dirs := List.mem_of_find?_eq_some hfind
      have htext : text d.1 = text p := by
        simpa only [decide_eq_true_eq] using List.find?_some hfind
      have heq : d.1 = p := h.text_eq (.inl ⟨d.2, hd⟩) (.inl ⟨id, hmem⟩) htext
      have hid : d.2 = id := h.id_unique hd (heq ▸ hmem)
      rw [← heq, ← hid]

theorem opendir_text (h : t.Wf) (hdir : t.IsDir p) :
    t.world.fs.opendir (text p) = some (t.children p) := by
  obtain ⟨id, hmem⟩ := hdir
  simp only [FileSystem.opendir, world, h.dirAt_text hmem, Option.isSome_some, if_true,
    Option.map_some, Option.getD_some]

theorem inotifyAddWatch_text (h : t.Wf) (hmem : (p, id) ∈ t.dirs) :
    t.world.inotifyAddWatch (text p) = id := by
  simp only [world, h.dirAt_text hmem, Option.map_some, Option.getD_some]

end Wf

theorem childName_concat (p : Path) (name : Text) : childName p (p ++ [name]) = some name := by
  rw [childName, if_pos List.dropLast_concat, List.getLast?_concat]

theorem eq_concat_of_childName (h : childName p q = some name) : q = p ++ [name] := by
  rw [childName] at h
  split at h
  next hp => rw [← hp, List.dropLast_append_getLast? name h]
  next => cases h

/-- A directory lists what lies in it, with the type of each entry. -/
theorem mem_children {ent : Dirent} :
    ent ∈ t.children p ↔
      (t.IsDir (p ++ [ent.name]) ∧ ent.dType = dtDir) ∨
        (p ++ [ent.name] ∈ t.files ∧ ent.dType = dtReg) := by
  rw [children, List.mem_append]
  constructor
  · rintro (hent | hent)
    · obtain ⟨d, hd, hname⟩ := List.mem_filterMap.mp hent
      obtain ⟨name, hchild, rfl⟩ := Option.map_eq_some_iff.mp hname
      exact .inl ⟨⟨d.2, eq_concat_of_childName hchild ▸ hd⟩, rfl⟩
    · obtain ⟨q, hq, hname⟩ := List.mem_filterMap.mp hent
      obtain ⟨name, hchild, rfl⟩ := Option.map_eq_some_iff.mp hname
      exact .inr ⟨eq_concat_of_childName hchild ▸ hq, rfl⟩
  · rintro (⟨⟨id, hd⟩, htype⟩ | ⟨hq, htype⟩)
    · refine .inl (List.mem_filterMap.mpr ⟨_, hd, ?_⟩)
      rw [childName_concat, Option.map_some, ← htype]
    · refine .inr (List.mem_filterMap.mpr ⟨_, hq, ?_⟩)
      rw [childName_concat, Option.map_some, ← htype]

/-! ### The operations keep the file system well formed -/

theorem mem_addFile : q ∈ (t.addFile p).files ↔ q ∈ t.files ∨ q = p := by
  rw [addFile]
  split
  next hmem => exact ⟨.inl, fun h => h.elim id (fun heq => heq ▸ hmem)⟩
  next => rw [List.mem_append, List.mem_singleton]

@[simp] theorem addFile_dirs : (t.addFile p).dirs = t.dirs := by
  rw [addFile]
  split <;> rfl

@[simp] theorem addFile_nextId : (t.addFile p).nextId = t.nextId := by
  rw [addFile]
  split <;> rfl

theorem mem_removeFile : q ∈ (t.removeFile p).files ↔ q ∈ t.files ∧ q ≠ p := by
  rw [removeFile, List.mem_filter, decide_eq_true_eq]

theorem mem_addDir {d : Path × Nat} : d ∈ (t.addDir p).dirs ↔ d ∈ t.dirs ∨ d = (p, t.nextId) := by
  rw [addDir, List.mem_append, List.mem_singleton]

theorem mem_removeDir {d : Path × Nat} : d ∈ (t.removeDir p).dirs ↔ d ∈ t.dirs ∧ d.1 ≠ p := by
  rw [removeDir, List.mem_filter, decide_eq_true_eq]

theorem mem_rename_dirs {d : Path × Nat} :
    d ∈ (t.rename src dst).dirs ↔
      ∃ p, (p, d.2) ∈ t.dirs ∧ p ≠ dst ∧ reroot src dst p = d.1 := by
  simp only [rename, List.mem_map, List.mem_filter, decide_eq_true_eq]
  constructor
  · rintro ⟨d', ⟨hd', hne⟩, rfl⟩
    exact ⟨d'.1, hd', hne, rfl⟩
  · rintro ⟨p, hp, hne, heq⟩
    exact ⟨(p, d.2), ⟨hp, hne⟩, by rw [heq]⟩

theorem mem_rename_files :
    q ∈ (t.rename src dst).files ↔ ∃ p ∈ t.files, p ≠ dst ∧ reroot src dst p = q := by
  simp only [rename, List.mem_map, List.mem_filter, decide_eq_true_eq, and_assoc]

section Below

variable {rel : Path}

/-- A path of the renamed subtree comes from the path below `src`. -/
theorem eq_append_of_reroot (hbelow : ¬ dst <+: p) (h : reroot src dst p = dst ++ rel) :
    p = src ++ rel := by
  by_cases hsrc : src <+: p
  · obtain ⟨rel', rfl⟩ := hsrc
    rw [reroot_append] at h
    rw [List.append_cancel_left h]
  · rw [reroot_beside hsrc] at h
    exact absurd (h ▸ List.prefix_append _ _) hbelow

theorem mem_rename_dirs_below (hsrc : ¬ src <+: dst) (hchildless : t.Childless dst) :
    (dst ++ rel, id) ∈ (t.rename src dst).dirs ↔ (src ++ rel, id) ∈ t.dirs := by
  rw [mem_rename_dirs]
  constructor
  · rintro ⟨p, hp, hne, heq⟩
    have hbelow : ¬ dst <+: p := fun h => hne (hchildless.1 _ hp h)
    rwa [eq_append_of_reroot hbelow heq] at hp
  · intro hmem
    refine ⟨_, hmem, ?_, reroot_append _ _ _⟩
    rintro heq
    exact hsrc (heq ▸ List.prefix_append _ _)

theorem mem_rename_files_below (hsrc : ¬ src <+: dst) (hchildless : t.Childless dst) :
    dst ++ rel ∈ (t.rename src dst).files ↔ src ++ rel ∈ t.files := by
  rw [mem_rename_files]
  constructor
  · rintro ⟨p, hp, hne, heq⟩
    have hbelow : ¬ dst <+: p := fun h => hne (hchildless.2 _ hp h)
    rwa [eq_append_of_reroot hbelow heq] at hp
  · intro hmem
    refine ⟨_, hmem, ?_, reroot_append _ _ _⟩
    rintro heq
    exact hsrc (heq ▸ List.prefix_append _ _)

end Below

namespace Wf

theorem addFile (h : t.Wf) (hdir : t.IsDir p) (hname : ValidName name)
    (hfree : ¬ t.IsDir (p ++ [name])) : (t.addFile (p ++ [name])).Wf where
  dirsNodup := by rw [addFile_dirs]; exact h.dirsNodup
  idsNodup := by rw [addFile_dirs]; exact h.idsNodup
  ids := by rw [addFile_dirs, addFile_nextId]; exact h.ids
  disjoint q hq := by
    rw [IsDir, addFile_dirs]
    rcases mem_addFile.mp hq with hq | rfl
    · exact h.disjoint q hq
    · exact hfree
  dirNames := by rw [addFile_dirs]; exact h.dirNames
  fileNames q hq := by
    rcases mem_addFile.mp hq with hq | rfl
    · exact h.fileNames q hq
    · intro n hn
      cases List.mem_append.mp hn with
      | inl hn => exact h.validName (.inl hdir) n hn
      | inr hn => rwa [List.mem_singleton.mp hn]
  dirParent := by simpa only [IsDir, addFile_dirs] using h.dirParent
  fileParent q hq := by
    rw [IsDir, addFile_dirs]
    rcases mem_addFile.mp hq with hq | rfl
    · exact h.fileParent q hq
    · rwa [List.dropLast_concat]

theorem removeFile (h : t.Wf) (p : Path) : (t.removeFile p).Wf where
  dirsNodup := h.dirsNodup
  idsNodup := h.idsNodup
  ids := h.ids
  disjoint q hq := h.disjoint q (mem_removeFile.mp hq).1
  dirNames := h.dirNames
  fileNames q hq := h.fileNames q (mem_removeFile.mp hq).1
  dirParent := h.dirParent
  fileParent q hq := h.fileParent q (mem_removeFile.mp hq).1

theorem addDir (h : t.Wf) (hdir : t.IsDir p) (hname : ValidName name)
    (hfree : ¬ t.Has (p ++ [name])) : (t.addDir (p ++ [name])).Wf where
  dirsNodup := by
    simp only [Tree.addDir, List.map_append, List.map_cons, List.map_nil]
    refine h.dirsNodup.append (List.nodup_singleton _) ?_
    rw [List.disjoint_singleton]
    intro hmem
    obtain ⟨d, hd, heq⟩ := List.mem_map.mp hmem
    exact hfree (.inl ⟨d.2, heq ▸ hd⟩)
  idsNodup := by
    simp only [Tree.addDir, List.map_append, List.map_cons, List.map_nil]
    refine h.idsNodup.append (List.nodup_singleton _) ?_
    rw [List.disjoint_singleton]
    intro hmem
    obtain ⟨d, hd, heq⟩ := List.mem_map.mp hmem
    exact absurd (h.ids d hd).2 (by omega)
  ids d hd := by
    show 0 < d.2 ∧ d.2 < t.nextId + 1
    rcases mem_addDir.mp hd with hd | rfl
    · have := h.ids d hd
      omega
    · obtain ⟨id, hp⟩ := hdir
      have := h.ids _ hp
      omega
  disjoint q hq := by
    rintro ⟨id, hd⟩
    cases mem_addDir.mp hd with
    | inl hd => exact h.disjoint q hq ⟨id, hd⟩
    | inr heq => exact hfree (.inr ((Prod.mk.inj heq).1 ▸ hq))
  dirNames d hd := by
    rcases mem_addDir.mp hd with hd | rfl
    · exact h.dirNames d hd
    · intro n hn
      cases List.mem_append.mp hn with
      | inl hn => exact h.validName (.inl hdir) n hn
      | inr hn => rwa [List.mem_singleton.mp hn]
  fileNames := h.fileNames
  dirParent d hd hne := by
    rcases mem_addDir.mp hd with hd | rfl
    · obtain ⟨id, hparent⟩ := h.dirParent d hd hne
      exact ⟨id, mem_addDir.mpr (.inl hparent)⟩
    · obtain ⟨id, hp⟩ := hdir
      rw [List.dropLast_concat]
      exact ⟨id, mem_addDir.mpr (.inl hp)⟩
  fileParent q hq := by
    obtain ⟨id, hparent⟩ := h.fileParent q hq
    exact ⟨id, mem_addDir.mpr (.inl hparent)⟩

/-- Nothing is left in a directory that is removed. -/
theorem removeDir (h : t.Wf) (hchildless : t.Childless p) (hdir : t.IsDir p) :
    (t.removeDir p).Wf where
  dirsNodup := h.dirsNodup.sublist (List.filter_sublist.map _)
  idsNodup := h.idsNodup.sublist (List.filter_sublist.map _)
  ids d hd := h.ids d (mem_removeDir.mp hd).1
  disjoint q hq := fun ⟨id, hd⟩ => h.disjoint q hq ⟨id, (mem_removeDir.mp hd).1⟩
  dirNames d hd := h.dirNames d (mem_removeDir.mp hd).1
  fileNames := h.fileNames
  dirParent d hd hne := by
    obtain ⟨hd, hp⟩ := mem_removeDir.mp hd
    obtain ⟨id, hparent⟩ := h.dirParent d hd hne
    refine ⟨id, mem_removeDir.mpr ⟨hparent, fun heq => hp (hchildless.1 d hd ?_)⟩⟩
    have heq : d.1.dropLast = p := heq
    exact heq ▸ List.dropLast_prefix _
  fileParent q hq := by
    obtain ⟨id, hparent⟩ := h.fileParent q hq
    refine ⟨id, mem_removeDir.mpr ⟨hparent, fun heq => h.disjoint q hq ?_⟩⟩
    have heq : q.dropLast = p := heq
    rwa [hchildless.2 q hq (heq ▸ List.dropLast_prefix _)]

section Rename

variable {dir : Path}

/-- The parent of what was there stays its parent, and what arrives has the
directory it was renamed into. -/
theorem isDir_rename_parent (hdir : t.IsDir dir) (hsrc : ¬ src <+: dir ++ [name])
    (hparent : t.IsDir p.dropLast) (hbelow : ¬ dir ++ [name] <+: p) :
    (t.rename src (dir ++ [name])).IsDir (reroot src (dir ++ [name]) p).dropLast := by
  have hkept : ∀ q, t.IsDir q → q ≠ dir ++ [name] →
      (t.rename src (dir ++ [name])).IsDir (reroot src (dir ++ [name]) q) := by
    rintro q ⟨id, hq⟩ hne
    exact ⟨id, mem_rename_dirs.mpr ⟨q, hq, hne, rfl⟩⟩
  have hne : p.dropLast ≠ dir ++ [name] := fun heq => hbelow (heq ▸ List.dropLast_prefix p)
  by_cases hp : src <+: p
  · obtain ⟨rel, rfl⟩ := hp
    cases rel using List.reverseRecOn with
    | nil =>
        have hself := hkept dir hdir (fun heq => by simpa using congrArg List.length heq)
        rw [reroot_beside (fun h => hsrc (h.trans (List.prefix_append _ _)))] at hself
        rwa [reroot_append, List.append_nil, List.dropLast_concat]
    | append_singleton rel n =>
        rw [← List.append_assoc, List.dropLast_concat] at hparent hne
        have hmoved := hkept _ hparent hne
        rw [reroot_append] at hmoved
        rwa [reroot_append, ← List.append_assoc, List.dropLast_concat]
  · have hsame := hkept _ hparent hne
    rw [reroot_beside (fun h => hp (h.trans (List.dropLast_prefix p)))] at hsame
    rwa [reroot_beside hp]

theorem mem_of_mem_reroot {n : Text} (h : n ∈ reroot src dst p) : n ∈ dst ∨ n ∈ p := by
  rw [reroot] at h
  split at h
  · exact (List.mem_append.mp h).imp_right List.mem_of_mem_drop
  · exact .inr h

theorem rename (h : t.Wf) (hdir : t.IsDir dir) (hname : ValidName name)
    (hsrc : ¬ src <+: dir ++ [name]) (hchildless : t.Childless (dir ++ [name])) :
    (t.rename src (dir ++ [name])).Wf := by
  have hdirBelow : ∀ {p id}, (p, id) ∈ t.dirs → p ≠ dir ++ [name] → ¬ dir ++ [name] <+: p :=
    fun hp hne hbelow => hne (hchildless.1 _ hp hbelow)
  have hfileBelow : ∀ {p}, p ∈ t.files → p ≠ dir ++ [name] → ¬ dir ++ [name] <+: p :=
    fun hp hne hbelow => hne (hchildless.2 _ hp hbelow)
  have hvalid : ∀ {p n}, (∀ n ∈ p, ValidName n) → n ∈ reroot src (dir ++ [name]) p →
      ValidName n := by
    intro p n hp hn
    cases mem_of_mem_reroot hn with
    | inl hn =>
        cases List.mem_append.mp hn with
        | inl hn => exact h.validName (.inl hdir) n hn
        | inr hn => rwa [List.mem_singleton.mp hn]
    | inr hn => exact hp n hn
  refine
    { dirsNodup := ?_, idsNodup := ?_, ids := ?_, disjoint := ?_, dirNames := ?_,
      fileNames := ?_, dirParent := ?_, fileParent := ?_ }
  · rw [Tree.rename, List.map_map]
    refine List.Nodup.map_on ?_ ((List.Nodup.of_map _ h.dirsNodup).filter _)
    intro d hd d' hd' heq
    rw [List.mem_filter, decide_eq_true_eq] at hd hd'
    have hpath := reroot_inj (hdirBelow hd.1 hd.2) (hdirBelow hd'.1 hd'.2) heq
    exact List.inj_on_of_nodup_map h.dirsNodup hd.1 hd'.1 hpath
  · rw [Tree.rename, List.map_map]
    exact h.idsNodup.sublist (List.filter_sublist.map _)
  · intro d hd
    obtain ⟨p, hp, -, -⟩ := mem_rename_dirs.mp hd
    exact h.ids (p, d.2) hp
  · rintro q hq ⟨id, hd⟩
    obtain ⟨p, hp, hne, rfl⟩ := mem_rename_files.mp hq
    obtain ⟨p', hp', hne', heq⟩ := mem_rename_dirs.mp hd
    obtain rfl := reroot_inj (hdirBelow hp' hne') (hfileBelow hp hne) heq
    exact h.disjoint _ hp ⟨id, hp'⟩
  · intro d hd n hn
    obtain ⟨p, hp, -, heq⟩ := mem_rename_dirs.mp hd
    exact hvalid (h.dirNames _ hp) (heq ▸ hn)
  · intro q hq n hn
    obtain ⟨p, hp, -, rfl⟩ := mem_rename_files.mp hq
    exact hvalid (h.fileNames p hp) hn
  · intro d hd hnil
    obtain ⟨p, hp, hne, heq⟩ := mem_rename_dirs.mp hd
    rw [← heq]
    refine isDir_rename_parent hdir hsrc (h.dirParent _ hp ?_) (hdirBelow hp hne)
    rintro rfl
    have hnot : ¬ src <+: [] := fun hpre => hsrc (hpre.trans (List.nil_prefix))
    exact hnil (heq ▸ reroot_beside hnot)
  · intro q hq
    obtain ⟨p, hp, hne, rfl⟩ := mem_rename_files.mp hq
    exact isDir_rename_parent hdir hsrc (h.fileParent p hp) (hfileBelow hp hne)

end Rename

end Wf

end Tree

end MediaServer.Inotify
