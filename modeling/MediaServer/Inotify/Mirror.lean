import MediaServer.Inotify.System

/-!
# The watch list mirrors the directories

Every visible directory below the root should have a watch, and the entry with its
descriptor the directory's present path as its name. The thread keeps it so as long
as the events of an operation get through, a directory that is renamed was visible
before, and no entry stands in the way. Entries for removed directories may be left
over; they do no harm while their names are those of directories.
-/

namespace MediaServer.Inotify

namespace Sys

/-- The path is that of a visible directory. -/
def ShowsDir (root : Root) (t : Tree) (path : Text) : Prop :=
  ∃ d ∈ t.dirs, Visible root.path d.1 ∧ path = text d.1

instance (root : Root) (t : Tree) (path : Text) : Decidable (ShowsDir root t path) :=
  inferInstanceAs (Decidable (∃ d ∈ t.dirs, Visible root.path d.1 ∧ path = text d.1))

/-- The server has not crashed, every visible directory has a live watch, the entry with
its descriptor has its path, and the entries below the root name visible directories. -/
def Mirrored (root : Root) (s : Sys) : Prop :=
  s.inoti.faulted = false ∧
  (∀ d ∈ s.tree.dirs, Visible root.path d.1 →
    (d.2 : Int) ∈ s.inoti.kernel ∧ ⟨text d.1, d.2⟩ ∈ s.inoti.watches ∧
      ∀ node ∈ s.inoti.watches, node.wd = d.2 → node.name = text d.1) ∧
  ∀ node ∈ s.inoti.watches, Under (text root.path) node.name → ShowsDir root s.tree node.name

instance (root : Root) : DecidablePred (Mirrored root) := fun s =>
  inferInstanceAs (Decidable (s.inoti.faulted = false ∧
  (∀ d ∈ s.tree.dirs, Visible root.path d.1 →
    (d.2 : Int) ∈ s.inoti.kernel ∧ ⟨text d.1, d.2⟩ ∈ s.inoti.watches ∧
      ∀ node ∈ s.inoti.watches, node.wd = d.2 → node.name = text d.1) ∧
  ∀ node ∈ s.inoti.watches, Under (text root.path) node.name → ShowsDir root s.tree node.name))

/-- The descriptor was given to a directory that is gone or not visible, or to none. -/
def Stray (root : Root) (t : Tree) (wd : Int) : Prop :=
  wd < t.nextId ∧ ∀ d ∈ t.dirs, Visible root.path d.1 → wd ≠ d.2

instance (root : Root) (t : Tree) (wd : Int) : Decidable (Stray root t wd) :=
  inferInstanceAs (Decidable (wd < t.nextId ∧ ∀ d ∈ t.dirs, Visible root.path d.1 → wd ≠ d.2))

/-- The thread runs, the kernel watches the visible directories, each of them has its
entry, and the remaining entries are those of other directories, as the one that `main`
watches first, or of none. -/
structure Mirror (root : Root) (s : Sys) : Prop where
  running : s.inoti.stopped = false
  alive : s.inoti.faulted = false
  rootDir : s.tree.IsDir root.path
  kernel : ∀ wd ∈ s.inoti.kernel, ∃ d ∈ s.tree.dirs, wd = (d.2 : Int)
  live : ∀ d ∈ s.tree.dirs, Visible root.path d.1 → (d.2 : Int) ∈ s.inoti.kernel
  watched : ∀ d ∈ s.tree.dirs, Visible root.path d.1 → ⟨text d.1, d.2⟩ ∈ s.inoti.watches
  entries : ∀ node ∈ s.inoti.watches,
    (∃ d ∈ s.tree.dirs, Visible root.path d.1 ∧ node = ⟨text d.1, d.2⟩) ∨
      Stray root s.tree node.wd ∧
        (Under (text root.path) node.name → ShowsDir root s.tree node.name)

end Sys

/-! ### The operations that the thread follows -/

def powerOffName : Text := "_POWER_OFF".toList
def operationEndName : Text := "_FILEOPERATION_END".toList

/-- The event for the name gets to the branches: its length is within the limit of
the loop, and the name is none of the signals. -/
def Legible (name : Text) : Prop :=
  (name.length / 16 + 1) * 16 ≤ msFileNameLenMax ∧ name ≠ powerOffName ∧
    name ≠ "_FILEOPERATION_END".toList

instance (name : Text) : Decidable (Legible name) :=
  inferInstanceAs (Decidable ((name.length / 16 + 1) * 16 ≤ msFileNameLenMax ∧
    name ≠ powerOffName ∧ name ≠ "_FILEOPERATION_END".toList))

namespace Sys

variable (root : Root) (s : Sys)

/-- If the place is visible, its events are handled with its path. -/
def Heard (place : Place) : Prop :=
  Visible root.path place.path → Legible place.name ∧ Fits place.path

instance (place : Place) : Decidable (Heard root place) :=
  inferInstanceAs (Decidable (Visible root.path place.path → Legible place.name ∧ Fits place.path))

/-- In a watched directory that is not visible, the events of the place are dropped. -/
def Apart (place : Place) : Prop :=
  ∀ d ∈ s.tree.dirs, d.1 = place.dir → (d.2 : Int) ∈ s.inoti.kernel → ¬ Visible root.path d.1 →
    hiddenName place.name ∨ place.name = operationEndName

instance (place : Place) : Decidable (s.Apart root place) :=
  inferInstanceAs (Decidable (∀ d ∈ s.tree.dirs, d.1 = place.dir → (d.2 : Int) ∈ s.inoti.kernel →
    ¬ Visible root.path d.1 → hiddenName place.name ∨ place.name = operationEndName))

/-- The events of a visible place are handled with its path, those of others dropped. -/
def Told (place : Place) : Prop := Heard root place ∧ s.Apart root place

instance (place : Place) : Decidable (s.Told root place) :=
  inferInstanceAs (Decidable (Heard root place ∧ s.Apart root place))

/-- The events of the place do not end the thread. -/
def Survived (place : Place) : Prop :=
  ∀ d ∈ s.tree.dirs, d.1 = place.dir → (d.2 : Int) ∈ s.inoti.kernel → place.name ≠ powerOffName

instance (place : Place) : Decidable (s.Survived place) :=
  inferInstanceAs (Decidable (∀ d ∈ s.tree.dirs, d.1 = place.dir → (d.2 : Int) ∈ s.inoti.kernel →
    place.name ≠ powerOffName))

/-- Nor does the end of the watch of a directory that is removed. -/
def Silent (op : Op) : Prop :=
  ∀ id ∈ s.retired op, (id : Int) ∈ s.inoti.kernel → s.behind id ≠ powerOffName

instance (op : Op) : Decidable (s.Silent op) :=
  inferInstanceAs (Decidable
    (∀ id ∈ s.retired op, (id : Int) ∈ s.inoti.kernel → s.behind id ≠ powerOffName))

/-- No entry has the descriptor of a directory that is visible from the path. -/
def Unlisted (src : Path) : Prop :=
  ∀ d ∈ s.tree.dirs, Visible src d.1 → ∀ node ∈ s.inoti.watches, node.wd ≠ d.2

instance (src : Path) : Decidable (s.Unlisted src) :=
  inferInstanceAs (Decidable
    (∀ d ∈ s.tree.dirs, Visible src d.1 → ∀ node ∈ s.inoti.watches, node.wd ≠ d.2))

/-- One entry has the name. -/
def Sole (path : Text) : Prop := s.inoti.watches.countP (fun node => node.name = path) = 1

instance (path : Text) : Decidable (s.Sole path) :=
  inferInstanceAs (Decidable (s.inoti.watches.countP (fun node => node.name = path) = 1))

/-- What the walk comes upon below `src` fits the buffers once it is below `dst`. -/
def FitsMoved (src dst : Path) : Prop :=
  ∀ p ∈ s.tree.dirs.map Prod.fst ++ s.tree.files, Visible src p → Fits (reroot src dst p)

instance (src dst : Path) : Decidable (s.FitsMoved src dst) :=
  inferInstanceAs (Decidable (∀ p ∈ s.tree.dirs.map Prod.fst ++ s.tree.files,
    Visible src p → Fits (reroot src dst p)))

/-- The directories of the walk have one entry each, and the first entry of the list
is none of these. -/
def Carried (src : Path) : Prop :=
  ∀ d ∈ s.tree.dirs, Visible src d.1 →
    s.Sole (text d.1) ∧ ∀ node ∈ s.inoti.watches.head?, node.name ≠ text d.1

instance (src : Path) : Decidable (s.Carried src) :=
  inferInstanceAs (Decidable (∀ d ∈ s.tree.dirs, Visible src d.1 →
    s.Sole (text d.1) ∧ ∀ node ∈ s.inoti.watches.head?, node.name ≠ text d.1))

/-- The directory that `prev_wd` and `prev_name` are taken to stand for is none that
has an entry, nor is what the walk takes to have been below it; its files are taken to
have been on a storage. -/
def Missed (src dst : Path) : Prop :=
  ∃ pathFrom ∈ s.inoti.getFullPath s.inoti.prevWd s.inoti.prevName,
    (∀ p ∈ s.tree.dirs.map Prod.fst ++ s.tree.files, Visible src p →
      (appendAll pathFrom (p.drop src.length)).isSome) ∧
    (∀ p ∈ s.tree.files, Visible src p → ∀ path ∈ appendAll pathFrom (p.drop src.length),
      msGetStorageTypeByFull path ≠ .invalidFilePath) ∧
    ∀ d ∈ s.tree.dirs, Visible src d.1 →
      (∀ node ∈ s.inoti.watches.tail,
        appendAll pathFrom (d.1.drop src.length) ≠ some node.name) ∧
      ∀ d' ∈ s.tree.dirs, Visible src d'.1 →
        appendAll pathFrom (d.1.drop src.length) = some (text (reroot src dst d'.1)) → d.1 = d'.1

instance (src dst : Path) : Decidable (s.Missed src dst) :=
  inferInstanceAs (Decidable (∃ pathFrom ∈ s.inoti.getFullPath s.inoti.prevWd s.inoti.prevName,
    (∀ p ∈ s.tree.dirs.map Prod.fst ++ s.tree.files, Visible src p →
      (appendAll pathFrom (p.drop src.length)).isSome) ∧
    (∀ p ∈ s.tree.files, Visible src p → ∀ path ∈ appendAll pathFrom (p.drop src.length),
      msGetStorageTypeByFull path ≠ .invalidFilePath) ∧
    ∀ d ∈ s.tree.dirs, Visible src d.1 →
      (∀ node ∈ s.inoti.watches.tail,
        appendAll pathFrom (d.1.drop src.length) ≠ some node.name) ∧
      ∀ d' ∈ s.tree.dirs, Visible src d'.1 →
        appendAll pathFrom (d.1.drop src.length) = some (text (reroot src dst d'.1)) →
          d.1 = d'.1))

/-- A directory that leaves the visible ones is not followed. One that comes in is
watched if nothing is found under the path where it is taken to have been. -/
def FollowsDir (src dst : Place) : Prop :=
  s.Told root src ∧ s.Told root dst ∧
    (Visible root.path src.path → Visible root.path dst.path ∧
      s.FitsMoved src.path src.path ∧ s.FitsMoved src.path dst.path ∧ s.Carried src.path) ∧
    (¬ Visible root.path src.path → Visible root.path dst.path →
      ¬ s.tree.IsDir dst.path ∧ s.FitsMoved src.path dst.path ∧ s.Missed src.path dst.path ∧
        s.Unlisted src.path)

instance (src dst : Place) : Decidable (s.FollowsDir root src dst) :=
  inferInstanceAs (Decidable (s.Told root src ∧ s.Told root dst ∧
    (Visible root.path src.path → Visible root.path dst.path ∧
      s.FitsMoved src.path src.path ∧ s.FitsMoved src.path dst.path ∧ s.Carried src.path) ∧
    (¬ Visible root.path src.path → Visible root.path dst.path →
      ¬ s.tree.IsDir dst.path ∧ s.FitsMoved src.path dst.path ∧ s.Missed src.path dst.path ∧
        s.Unlisted src.path)))

/-- The watch list follows the operation. -/
def Tracks : Op → Prop
  | .write place | .unlink place => s.Survived place
  | .mkdir place => s.Told root place
  | .rmdir place =>
      s.Told root place ∧ (Visible root.path place.path → s.Sole (text place.path)) ∧
        s.Silent (.rmdir place)
  | .rename cookie src dst =>
      if s.tree.IsDir src.path then s.FollowsDir root src dst ∧ s.Silent (.rename cookie src dst)
      else s.Survived src ∧ s.Survived dst

instance : DecidablePred (Tracks root s)
  | .write place | .unlink place => inferInstanceAs (Decidable (s.Survived place))
  | .mkdir place => inferInstanceAs (Decidable (s.Told root place))
  | .rmdir place =>
      inferInstanceAs (Decidable
        (s.Told root place ∧ (Visible root.path place.path → s.Sole (text place.path)) ∧
          s.Silent (.rmdir place)))
  | .rename cookie src dst =>
      inferInstanceAs (Decidable
        (if s.tree.IsDir src.path then
          s.FollowsDir root src dst ∧ s.Silent (.rename cookie src dst)
        else s.Survived src ∧ s.Survived dst))

end Sys

/-- What is visible from the root lies on its storage. -/
theorem Root.known_text (root : Root) {p : Path} (h : Visible root.path p) :
    msGetStorageTypeByFull (text p) ≠ .invalidFilePath := by
  obtain ⟨rel, rfl, -⟩ := visible_iff.mp h
  rw [text_append]
  exact storage_append root.known _

section Events

/-! ### The events get through -/

variable {root : Root} {s : Sys} {place : Place} {mask cookie : Nat} {e : Event} {i : Inoti}
variable {w : World}

/-- The entries with the number of a visible directory have its path. -/
theorem Sys.Mirror.name_eq (m : s.Mirror root) {d : Path × Nat} (hd : d ∈ s.tree.dirs)
    (hvisible : Visible root.path d.1) {node : Watch} (hnode : node ∈ s.inoti.watches)
    (hwd : node.wd = d.2) : node.name = text d.1 := by
  rcases m.entries node hnode with ⟨d', hd', -, rfl⟩ | ⟨hstray, -⟩
  · have hid : d'.2 = d.2 := Int.ofNat_inj.mp hwd
    have hmem : (d'.1, d.2) ∈ s.tree.dirs := hid ▸ hd'
    rw [s.wf.path_unique hmem hd]
  · exact absurd hwd (hstray.2 d hd hvisible)

theorem Sys.Mirror.mirrored (m : s.Mirror root) : s.Mirrored root := by
  refine ⟨m.alive, fun d hd hvisible => ⟨m.live d hd hvisible, m.watched d hd hvisible,
    fun node hnode hwd => m.name_eq hd hvisible hnode hwd⟩, fun node hnode hunder => ?_⟩
  rcases m.entries node hnode with ⟨d, hd, hvisible, rfl⟩ | ⟨-, hnames⟩
  · exact ⟨d, hd, hvisible, rfl⟩
  · exact hnames hunder

theorem Sys.Mirror.getFullPath (m : s.Mirror root) {p : Path} {id : Nat} {name : Text}
    (hmem : (p, id) ∈ s.tree.dirs) (hvisible : Visible root.path p) (hfits : Fits (p ++ [name]))
    (hwatches : i.watches = s.inoti.watches) :
    i.getFullPath id name = some (text (p ++ [name])) := by
  have hwatched := m.watched _ hmem hvisible
  obtain ⟨node, hnode, hwd, hfind⟩ := findNode_of_mem ⟨_, hwatched, rfl⟩
  rw [Inoti.getFullPath, hwatches, hfind, Option.bind_some,
    m.name_eq hmem hvisible hnode hwd, msStrappend_text hfits]

theorem event_of_ignored {wd : Nat} {behind : Text} (hoff : w.powerOff = false)
    (hbehind : behind ≠ powerOffName) : i.event w (ignoredEvent wd behind) = i := by
  have hreceived : i.received (ignoredEvent wd behind) = none := by
    rw [Inoti.received]
    split
    · rfl
    · exact if_neg fun h => h.1 rfl
  have hpower : ¬ (w.powerOff = true ∨ (ignoredEvent wd behind).name = "_POWER_OFF".toList) := by
    rintro (h | h)
    · rw [hoff] at h
      cases h
    · exact hbehind h
  rw [Inoti.event, if_neg hpower, hreceived]
  simp only [ite_self]

/-- The event that announces the end of a watch changes nothing. -/
theorem Sys.step_inoti {s' : Sys} {op : Op} (hstep : s.step root op = some s')
    (hsilent : s.Silent op) :
    s'.inoti =
      (s.events op).foldl (Inoti.event (s.tree.apply op).world) (s.retire op).1 := by
  obtain ⟨-, -, hinoti⟩ := step_eq hstep
  rw [hinoti, retire]
  split
  · rfl
  next id hid =>
    simp only
    split
    next hkernel => exact event_of_ignored rfl (hsilent id hid hkernel)
    next => rfl

/-- No directory is removed. -/
theorem Sys.silent_of_none {op : Op} (h : s.retired op = none) : s.Silent op := by
  intro id hid
  rw [h] at hid
  cases hid

/-- The event for a hidden name is dropped. -/
theorem event_of_hidden (hoff : w.powerOff = false) (hrunning : i.stopped = false)
    (hhidden : hiddenName e.name) : i.event w e = i := by
  have hhead : e.name.head? = some '.' := of_decide_eq_true hhidden
  have hreceived : i.received e = none := if_pos (.inl hhead)
  have hpower : ¬ (w.powerOff = true ∨ e.name = "_POWER_OFF".toList) := by
    rintro (h | h)
    · rw [hoff] at h
      cases h
    · rw [h] at hhead
      cases hhead
  have hend : e.name ≠ "_FILEOPERATION_END".toList := by
    intro h
    rw [h] at hhead
    cases hhead
  rw [Inoti.event, hrunning, if_neg hpower, if_neg hend, hreceived]
  rfl

/-- So is the event for the end of a file operation, once it has been announced. -/
theorem event_of_end (hoff : w.powerOff = false) (hend : e.name = operationEndName) :
    i.event w e = i := by
  have hpower : ¬ (w.powerOff = true ∨ e.name = "_POWER_OFF".toList) := by
    rintro (h | h)
    · rw [hoff] at h
      cases h
    · exact absurd (hend.symm.trans h) (by decide)
  have hend : e.name = "_FILEOPERATION_END".toList := hend
  rw [Inoti.event, if_neg hpower, if_pos hend]
  exact ite_self i

theorem received_of_legible {wd : Nat} {name path : Text} (hhidden : ¬ hiddenName name)
    (hlegible : Legible name) (hwd : 0 < wd) (hpath : i.getFullPath wd name = some path) :
    i.received (nameEvent wd mask cookie name) = some (name, path) := by
  have hhead : ¬ (name.head? = some '.' ∨ (wd : Int) < 1) := by
    rintro (h | h)
    · exact hhidden (decide_eq_true h)
    · omega
  have hlen : (name.length / 16 + 1) * 16 ≠ 0 ∧ (name.length / 16 + 1) * 16 ≤ msFileNameLenMax :=
    ⟨by omega, hlegible.1⟩
  have hcopy : msStrcopy (msFileNameLenMax + 1) name = some name := by
    have hle := hlegible.1
    rw [msFileNameLenMax] at hle ⊢
    rw [msStrcopy, if_pos (by omega), List.take_of_length_le (by omega)]
  rw [Inoti.received]
  simp only [nameEvent, if_neg hhead, if_pos hlen, hcopy, Option.bind_some, hpath, Option.map_some]

theorem event_of_received {name path : Text} (hoff : w.powerOff = false)
    (hrunning : i.stopped = false) (hlegible : Legible e.name)
    (hreceived : i.received e = some (name, path)) : i.event w e = i.handle w e name path := by
  have hpower : ¬ (w.powerOff = true ∨ e.name = "_POWER_OFF".toList) := by
    rintro (h | h)
    · rw [hoff] at h
      cases h
    · exact hlegible.2.1 h
  rw [Inoti.event, hrunning, if_neg hpower, if_neg hlegible.2.2, hreceived]
  rfl

namespace Sys.Mirror

theorem not_above_root (m : s.Mirror root) {p : Path} (h : ¬ s.tree.IsDir p) :
    ¬ p <+: root.path := by
  rintro ⟨rel, hrel⟩
  exact h (s.wf.isDir_of_append (hrel ▸ m.rootDir))

/-- The events for a place that is not visible change nothing. -/
theorem foldl_notify_hidden (hapart : s.Apart root place) (hoff : w.powerOff = false)
    (hrunning : i.stopped = false) (hroot : ¬ place.path <+: root.path)
    (hvisible : ¬ Visible root.path place.path) :
    (s.notify place mask cookie).foldl (Inoti.event w) i = i := by
  have hsame : ∀ e ∈ s.notify place mask cookie, i.event w e = i := by
    intro e he
    obtain ⟨id, hmem, hkernel, rfl⟩ := mem_notify.mp he
    by_cases hdir : Visible root.path place.dir
    · have hhidden : hiddenName place.name := by
        by_contra h
        exact hvisible ((visible_concat hroot).mpr ⟨hdir, h⟩)
      exact event_of_hidden hoff hrunning hhidden
    · rcases hapart _ hmem rfl hkernel hdir with hhidden | hend
      · exact event_of_hidden hoff hrunning hhidden
      · exact event_of_end hoff hend
  generalize s.notify place mask cookie = es at hsame
  induction es with
  | nil => rfl
  | cons e es ih =>
      rw [List.foldl_cons, hsame e List.mem_cons_self]
      exact ih fun e he => hsame e (List.mem_cons_of_mem _ he)

/-- The event for a visible place is handled with its path. -/
theorem foldl_notify (m : s.Mirror root) (hdir : s.tree.IsDir place.dir)
    (hroot : ¬ place.path <+: root.path) (hvisible : Visible root.path place.path)
    (hheard : Heard root place) (mask cookie : Nat) :
    ∃ id, (place.dir, id) ∈ s.tree.dirs ∧ ∀ (w : World) (i : Inoti), w.powerOff = false →
      i.stopped = false → i.watches = s.inoti.watches →
        (s.notify place mask cookie).foldl (Inoti.event w) i =
            i.handle w (nameEvent id mask cookie place.name) place.name (text place.path) ∧
          i.received (nameEvent id mask cookie place.name) = some (place.name, text place.path) ∧
          i.getFullPath id place.name = some (text place.path) := by
  obtain ⟨id, hmem⟩ := hdir
  obtain ⟨hlegible, hfits⟩ := hheard hvisible
  obtain ⟨hparent, hhidden⟩ := (visible_concat hroot).mp hvisible
  refine ⟨id, hmem, fun w i hoff hrunning hwatches => ?_⟩
  have hnotify : s.notify place mask cookie = [nameEvent id mask cookie place.name] := by
    rw [notify, s.wf.idOf_eq hmem]
    exact if_pos (m.live _ hmem hparent)
  have hpath := m.getFullPath hmem hparent hfits hwatches
  have hreceived : i.received (nameEvent id mask cookie place.name) =
      some (place.name, text place.path) :=
    received_of_legible hhidden hlegible (s.wf.ids _ hmem).1 hpath
  refine ⟨?_, hreceived, hpath⟩
  rw [hnotify, List.foldl_cons, List.foldl_nil]
  exact event_of_received hoff hrunning hlegible hreceived

end Sys.Mirror

end Events

section Files

/-! ### Events of files leave the watch list alone -/

variable {root : Root} {s s' : Sys} {place : Place} {mask cookie : Nat} {e : Event} {i : Inoti}
variable {w : World} {name path : Text}

theorem sameTable_closeWrite : SameTable i (i.closeWrite w e name path) := by
  rw [Inoti.closeWrite]
  split
  · obtain ⟨hwatches, hkernel, hstopped⟩ : SameTable i (i.registerFile path) :=
      sameTable_registerFile
    exact ⟨hwatches, hkernel, hstopped⟩
  · split
    · exact .refl i
    · exact ⟨rfl, rfl, rfl⟩

theorem sameTable_handle (hfile : e.mask &&& inIsDir = 0) :
    SameTable i (i.handle w e name path) := by
  have hbranch : branch e.mask = .fileMovedFrom ∨ branch e.mask = .fileMovedTo ∨
      branch e.mask = .fileCreate ∨ branch e.mask = .fileDelete ∨
        branch e.mask = .fileCloseWrite ∨ branch e.mask = .other := by
    rw [branch, if_neg (not_not.mpr hfile)]
    split_ifs <;> simp
  rw [Inoti.handle]
  rcases hbranch with h | h | h | h | h | h <;> rw [h]
  · exact ⟨rfl, rfl, rfl⟩
  · exact sameTable_registerFile
  · exact ⟨rfl, rfl, rfl⟩
  · exact ⟨rfl, rfl, rfl⟩
  · exact sameTable_closeWrite
  · exact .refl i

theorem sameTable_event (hoff : w.powerOff = false) (hfile : e.mask &&& inIsDir = 0)
    (hname : e.name ≠ powerOffName) : SameTable i (i.event w e) := by
  rw [Inoti.event]
  split
  · exact .refl i
  · split
    next hpower =>
      cases hpower with
      | inl h =>
          rw [hoff] at h
          cases h
      | inr h => exact absurd h hname
    next =>
      split
      · exact .refl i
      · split
        · exact .refl i
        · exact sameTable_handle hfile

theorem sameTable_foldl {es : List Event} (hoff : w.powerOff = false)
    (h : ∀ e ∈ es, e.mask &&& inIsDir = 0 ∧ e.name ≠ powerOffName) :
    SameTable i (es.foldl (Inoti.event w) i) := by
  induction es generalizing i with
  | nil => exact .refl i
  | cons e es ih =>
      obtain ⟨hfile, hname⟩ := h e List.mem_cons_self
      refine (sameTable_event hoff hfile hname).trans (ih fun e he => ?_)
      exact h e (List.mem_cons_of_mem _ he)

namespace Sys.Mirror

/-- No event for the file ends the thread. -/
theorem file_event (hsurvived : s.Survived place) (hmask : mask &&& inIsDir = 0)
    (he : e ∈ s.notify place mask cookie) :
    e.mask &&& inIsDir = 0 ∧ e.name ≠ powerOffName := by
  obtain ⟨id, hmem, hkernel, rfl⟩ := mem_notify.mp he
  exact ⟨hmask, hsurvived _ hmem rfl hkernel⟩

/-- A place whose events are handled or dropped does not end the thread. -/
theorem survived (htold : s.Told root place) : s.Survived place := by
  rintro d hd hdir hkernel hname
  have hshown : ¬ hiddenName place.name := by
    rw [hname]
    decide
  by_cases hvisible : Visible root.path d.1
  · have hpath : Visible root.path place.path :=
      (visible_append (hdir ▸ hvisible)).mpr fun n hn => List.mem_singleton.mp hn ▸ hshown
    exact (htold.1 hpath).1.2.1 hname
  · rcases htold.2 d hd hdir hkernel hvisible with hhidden | hend
    · exact hshown hhidden
    · exact absurd (hname.symm.trans hend) (by decide)

/-- Only the directories and the watch list matter. -/
theorem of_sameTable (m : s.Mirror root) (hdirs : s'.tree.dirs = s.tree.dirs)
    (hnext : s'.tree.nextId = s.tree.nextId) (h : SameTable s.inoti s'.inoti)
    (halive : s'.inoti.faulted = false) : s'.Mirror root := by
  obtain ⟨hwatches, hkernel, hstopped⟩ := h
  refine
    { running := hstopped.trans m.running, alive := halive, rootDir := ?_, kernel := ?_,
      live := ?_, watched := ?_, entries := ?_ }
  · rw [Tree.IsDir, hdirs]
    exact m.rootDir
  · rw [hdirs, hkernel]
    exact m.kernel
  · rw [hdirs, hkernel]
    exact m.live
  · rw [hdirs, hwatches]
    exact m.watched
  · simp only [Stray, ShowsDir, hdirs, hnext, hwatches]
    exact m.entries

end Sys.Mirror

end Files

end MediaServer.Inotify
