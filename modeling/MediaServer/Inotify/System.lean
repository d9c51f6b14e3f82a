import MediaServer.Inotify.Pairing
import MediaServer.Inotify.Walk

/-!
# The file system and the thread

One step is one operation on the file system, with all of its events handled. The
kernel reports an operation to the watch of the directory in which it happens; a
watch ends with its directory, and its descriptor is not given out again.
-/

namespace MediaServer.Inotify

/-- A directory on one of the storages, below which the server keeps its watches. -/
structure Root where
  path : Path
  known : msGetStorageTypeByFull (text path) ≠ .invalidFilePath

/-- A name in a directory. -/
structure Place where
  dir : Path
  name : Text
deriving DecidableEq, Repr

def Place.path (place : Place) : Path := place.dir ++ [place.name]

inductive Op where
  /-- Open for writing, creating the file if it does not exist, and close. -/
  | write (place : Place)
  | unlink (place : Place)
  | mkdir (place : Place)
  | rmdir (place : Place)
  | rename (cookie : Nat) (src dst : Place)
deriving DecidableEq, Repr

instance (t : Tree) (p : Path) : Decidable (t.Has p) :=
  inferInstanceAs (Decidable (t.IsDir p ∨ p ∈ t.files))

namespace Op

/-- What the kernel lets through. The root stays where it is. -/
def Enabled (root : Root) (t : Tree) : Op → Prop
  | write place => t.IsDir place.dir ∧ ValidName place.name ∧ ¬ t.IsDir place.path
  | unlink place => place.path ∈ t.files
  | mkdir place => t.IsDir place.dir ∧ ValidName place.name ∧ ¬ t.Has place.path
  | rmdir place => t.IsDir place.path ∧ t.Childless place.path ∧ ¬ place.path <+: root.path
  | rename _ src dst =>
      t.Has src.path ∧ t.IsDir dst.dir ∧ ValidName dst.name ∧ ¬ src.path <+: dst.path ∧
        t.Childless dst.path ∧ (t.Has dst.path → (t.IsDir src.path ↔ t.IsDir dst.path)) ∧
        ¬ src.path <+: root.path ∧ ¬ dst.path <+: root.path

instance (root : Root) (t : Tree) : DecidablePred (Enabled root t)
  | write place =>
      inferInstanceAs (Decidable (t.IsDir place.dir ∧ ValidName place.name ∧ ¬ t.IsDir place.path))
  | unlink place => inferInstanceAs (Decidable (place.path ∈ t.files))
  | mkdir place =>
      inferInstanceAs (Decidable (t.IsDir place.dir ∧ ValidName place.name ∧ ¬ t.Has place.path))
  | rmdir place =>
      inferInstanceAs (Decidable
        (t.IsDir place.path ∧ t.Childless place.path ∧ ¬ place.path <+: root.path))
  | rename _ src dst =>
      inferInstanceAs (Decidable
        (t.Has src.path ∧ t.IsDir dst.dir ∧ ValidName dst.name ∧ ¬ src.path <+: dst.path ∧
          t.Childless dst.path ∧ (t.Has dst.path → (t.IsDir src.path ↔ t.IsDir dst.path)) ∧
          ¬ src.path <+: root.path ∧ ¬ dst.path <+: root.path))

end Op

def Tree.apply (t : Tree) : Op → Tree
  | .write place => t.addFile place.path
  | .unlink place => t.removeFile place.path
  | .mkdir place => t.addDir place.path
  | .rmdir place => t.removeDir place.path
  | .rename _ src dst => t.rename src.path dst.path

theorem Tree.Wf.apply {root : Root} {t : Tree} {op : Op} (h : t.Wf) (henabled : op.Enabled root t) :
    (t.apply op).Wf := by
  cases op with
  | write place =>
      obtain ⟨hdir, hname, hfree⟩ := henabled
      exact h.addFile hdir hname hfree
  | unlink place => exact h.removeFile place.path
  | mkdir place =>
      obtain ⟨hdir, hname, hfree⟩ := henabled
      exact h.addDir hdir hname hfree
  | rmdir place =>
      obtain ⟨hdir, hchildless, -⟩ := henabled
      exact h.removeDir hchildless hdir
  | rename cookie src dst =>
      obtain ⟨-, hdir, hname, hsrc, hchildless, -⟩ := henabled
      exact h.rename hdir hname hsrc hchildless

/-- The directory's number. -/
def Tree.idOf (t : Tree) (p : Path) : Option Nat := (t.dirs.find? fun d => d.1 = p).map Prod.snd

theorem Tree.idOf_mem {t : Tree} {p : Path} {id : Nat} (h : t.idOf p = some id) :
    (p, id) ∈ t.dirs := by
  obtain ⟨d, hfind, rfl⟩ := Option.map_eq_some_iff.mp h
  have hpath := List.find?_some hfind
  rw [decide_eq_true_eq] at hpath
  rw [← hpath]
  exact List.mem_of_find?_eq_some hfind

theorem Tree.Wf.idOf_eq {t : Tree} {p : Path} {id : Nat} (h : t.Wf) (hmem : (p, id) ∈ t.dirs) :
    t.idOf p = some id := by
  cases hid : t.idOf p with
  | none =>
      have hnone := List.find?_eq_none.mp (Option.map_eq_none_iff.mp hid) _ hmem
      exact absurd (decide_eq_true rfl) hnone
  | some id' => rw [h.id_unique (Tree.idOf_mem hid) hmem]

def inIgnored : Nat := 0x8000

/-- The kernel pads the name to a multiple of the size of the record. -/
def nameEvent (wd : Nat) (mask cookie : Nat) (name : Text) : Event where
  wd := wd
  mask := mask
  cookie := cookie
  len := (name.length / 16 + 1) * 16
  name := name
  terminated := .inl (by omega)

/-- The last event of a watch, which has no name. -/
def ignoredEvent (wd : Nat) (behind : Text) : Event where
  wd := wd
  mask := inIgnored
  cookie := 0
  len := 0
  name := behind
  terminated := .inr rfl

structure Sys where
  tree : Tree
  inoti : Inoti
  wf : tree.Wf
  /-- What the buffer holds behind the last event of a descriptor. -/
  behind : Nat → Text := fun _ => []

namespace Sys

variable (s : Sys)

/-- The event for a name in a directory, if the directory is watched. -/
def notify (place : Place) (mask cookie : Nat) : List Event :=
  match s.tree.idOf place.dir with
  | some id => if (id : Int) ∈ s.inoti.kernel then [nameEvent id mask cookie place.name] else []
  | none => []

/-- The number of the directory that the operation removes. -/
def retired : Op → Option Nat
  | .rmdir place => s.tree.idOf place.path
  | .rename _ _ dst => s.tree.idOf dst.path
  | _ => none

/-- The flag of the events about what is at the path. -/
def kind (p : Path) : Nat := if s.tree.IsDir p then inIsDir else 0

def events : Op → List Event
  | .write place =>
      (if place.path ∈ s.tree.files then [] else s.notify place inCreate 0) ++
        s.notify place inCloseWrite 0
  | .unlink place => s.notify place inDelete 0
  | .mkdir place => s.notify place (inIsDir ||| inCreate) 0
  | .rmdir place => s.notify place (inIsDir ||| inDelete) 0
  | .rename cookie src dst =>
      s.notify src (s.kind src.path ||| inMovedFrom) cookie ++
        s.notify dst (s.kind src.path ||| inMovedTo) cookie

/-- The watch of a removed directory is gone, and its `IN_IGNORED` follows. -/
def retire (op : Op) : Inoti × List Event :=
  match s.retired op with
  | none => (s.inoti, [])
  | some id =>
      ({ s.inoti with kernel := s.inoti.kernel.filter (· ≠ id) },
        if (id : Int) ∈ s.inoti.kernel then [ignoredEvent id (s.behind id)] else [])

/-- The operation, and the events about it, one after the other. -/
def step (root : Root) (s : Sys) (op : Op) : Option Sys :=
  if h : op.Enabled root s.tree then
    some
      { tree := s.tree.apply op
        inoti := (s.events op ++ (s.retire op).2).foldl
          (Inoti.event (s.tree.apply op).world) (s.retire op).1
        wf := s.wf.apply h
        behind := s.behind }
  else none

variable {s} {s' : Sys} {root : Root} {op : Op}

theorem step_eq (h : s.step root op = some s') :
    op.Enabled root s.tree ∧ s'.tree = s.tree.apply op ∧
      s'.inoti = (s.retire op).2.foldl (Inoti.event (s.tree.apply op).world)
        ((s.events op).foldl (Inoti.event (s.tree.apply op).world) (s.retire op).1) := by
  rw [step] at h
  split at h
  next henabled =>
    obtain rfl := Option.some.inj h
    exact ⟨henabled, rfl, List.foldl_append⟩
  next => cases h

theorem step_behind (h : s.step root op = some s') : s'.behind = s.behind := by
  rw [step] at h
  split at h
  next => exact Option.some.inj h ▸ rfl
  next => cases h

theorem mem_notify {place : Place} {mask cookie : Nat} {e : Event} :
    e ∈ s.notify place mask cookie ↔ ∃ id, (place.dir, id) ∈ s.tree.dirs ∧
      (id : Int) ∈ s.inoti.kernel ∧ e = nameEvent id mask cookie place.name := by
  rw [notify]
  constructor
  · intro h
    split at h
    next id hid =>
      split at h
      next hkernel => exact ⟨id, Tree.idOf_mem hid, hkernel, List.mem_singleton.mp h⟩
      next => cases h
    next => cases h
  · rintro ⟨id, hmem, hkernel, rfl⟩
    rw [s.wf.idOf_eq hmem]
    simp only [if_pos hkernel, List.mem_singleton]

theorem retire_of_none (h : s.retired op = none) : s.retire op = (s.inoti, []) := by
  rw [retire, h]

@[simp] theorem retire_watches : (s.retire op).1.watches = s.inoti.watches := by
  rw [retire]
  split <;> rfl

@[simp] theorem retire_stopped : (s.retire op).1.stopped = s.inoti.stopped := by
  rw [retire]
  split <;> rfl

@[simp] theorem retire_db : (s.retire op).1.db = s.inoti.db := by
  rw [retire]
  split <;> rfl

@[simp] theorem retire_faulted : (s.retire op).1.faulted = s.inoti.faulted := by
  rw [retire]
  split <;> rfl

theorem retire_branch {e : Event} (he : e ∈ (s.retire op).2) : branch e.mask = .other := by
  rw [retire] at he
  split at he
  next => cases he
  next =>
    split at he
    next =>
      have hbranch : branch inIgnored = .other := by decide
      rwa [List.mem_singleton.mp he]
    next => cases he

theorem mem_retire_kernel {wd : Int} :
    wd ∈ (s.retire op).1.kernel ↔ wd ∈ s.inoti.kernel ∧ ∀ id ∈ s.retired op, wd ≠ (id : Int) := by
  rw [retire]
  split
  next h => simp only [h, reduceCtorEq, Option.mem_def, IsEmpty.forall_iff, implies_true, and_true]
  next id h =>
    simp only [h, List.mem_filter, decide_eq_true_eq, Option.mem_def, Option.some.injEq,
      forall_eq']

end Sys

theorem Tree.idOf_eq_none {t : Tree} {p : Path} (h : ¬ t.IsDir p) : t.idOf p = none := by
  cases hid : t.idOf p with
  | none => rfl
  | some id => exact absurd ⟨id, Tree.idOf_mem hid⟩ h

end MediaServer.Inotify
