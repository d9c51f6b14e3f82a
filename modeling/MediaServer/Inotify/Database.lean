import MediaServer.Inotify.WatchTable

/-!
# The database follows the file system

With the watch list in step, the items are the visible files. A file is registered
or deleted by its own events; a directory takes its items along when it is walked
under its old path, and the files of one that comes in are not registered at all.
-/

namespace MediaServer.Inotify

namespace Sys

/-- The items are the files that are not hidden and lie in directories that are not. -/
def Indexed (root : Root) (s : Sys) : Prop :=
  (∀ p ∈ s.tree.files, Visible root.path p → text p ∈ s.inoti.db) ∧
    ∀ item ∈ s.inoti.db, ∃ p ∈ s.tree.files, Visible root.path p ∧ item = text p

instance (root : Root) : DecidablePred (Indexed root) := fun s =>
  inferInstanceAs (Decidable ((∀ p ∈ s.tree.files, Visible root.path p → text p ∈ s.inoti.db) ∧
    ∀ item ∈ s.inoti.db, ∃ p ∈ s.tree.files, Visible root.path p ∧ item = text p))

structure Follows (root : Root) (s : Sys) : Prop where
  mirror : s.Mirror root
  nodup : s.inoti.db.Nodup
  indexed : s.Indexed root

/-- The items follow the operation: its events are handled, and a directory that comes
in brings no file. -/
def Indexes (root : Root) (s : Sys) : Op → Prop
  | .write place | .unlink place => s.Told root place
  | .mkdir place => s.Tracks root (.mkdir place)
  | .rmdir place => s.Tracks root (.rmdir place)
  | .rename cookie src dst =>
      if s.tree.IsDir src.path then
        s.Tracks root (.rename cookie src dst) ∧
          (¬ Visible root.path src.path → Visible root.path dst.path →
            ∀ p ∈ s.tree.files, ¬ Visible src.path p)
      else s.Told root src ∧ s.Told root dst

instance (root : Root) (s : Sys) : DecidablePred (Indexes root s)
  | .write place | .unlink place => inferInstanceAs (Decidable (s.Told root place))
  | .mkdir place => inferInstanceAs (Decidable (s.Tracks root (.mkdir place)))
  | .rmdir place => inferInstanceAs (Decidable (s.Tracks root (.rmdir place)))
  | .rename cookie src dst =>
      inferInstanceAs (Decidable
        (if s.tree.IsDir src.path then
          s.Tracks root (.rename cookie src dst) ∧
            (¬ Visible root.path src.path → Visible root.path dst.path →
              ∀ p ∈ s.tree.files, ¬ Visible src.path p)
        else s.Told root src ∧ s.Told root dst))

/-- An operation that the items follow is one that the watch list follows. -/
theorem Indexes.tracks {root : Root} {s : Sys} {op : Op} (h : s.Indexes root op) :
    s.Tracks root op := by
  cases op with
  | write place => exact Mirror.survived h
  | unlink place => exact Mirror.survived h
  | mkdir place => exact h
  | rmdir place => exact h
  | rename cookie src dst =>
      rw [Indexes] at h
      split at h
      next hdir => exact h.1
      next hfile =>
        rw [Tracks, if_neg hfile]
        exact ⟨Mirror.survived h.1, Mirror.survived h.2⟩

end Sys

section Events

variable {i : Inoti} {w : World} {e : Event} {name path item : Text}

theorem mem_registerFile : item ∈ (i.registerFile path).db ↔ item ∈ i.db ∨ item = path := by
  rw [Inoti.registerFile]
  split
  next hmem => exact ⟨.inl, fun h => h.elim (fun hitem => hitem) fun heq => heq ▸ hmem⟩
  next => rw [List.mem_append, List.mem_singleton]

theorem nodup_registerFile (h : i.db.Nodup) : (i.registerFile path).db.Nodup := by
  rw [Inoti.registerFile]
  split
  · exact h
  next hmem =>
    refine h.append (List.nodup_singleton _) ?_
    rwa [List.disjoint_singleton]

theorem closeWrite_db_of_created (h : (e.wd, name) ∈ i.createFiles) :
    (i.closeWrite w e name path).db = (i.registerFile path).db := by
  rw [Inoti.closeWrite, if_pos (.inl h)]

theorem closeWrite_db_of_present (h : path ∈ i.db) : (i.closeWrite w e name path).db = i.db := by
  rw [Inoti.closeWrite]
  split
  · rw [Inoti.registerFile, if_pos h]
  · split <;> rfl

end Events

namespace Sys.Mirror

variable {root : Root} {s : Sys} {place : Place} {i : Inoti} {w : World}

/-- The event of a file that has gone deletes its item. -/
theorem db_of_gone (m : s.Mirror root) (hdir : s.tree.IsDir place.dir)
    (hroot : ¬ place.path <+: root.path) (htold : s.Told root place)
    {mask : Nat} (cookie : Nat)
    (hbranch : branch mask = .fileMovedFrom ∨ branch mask = .fileDelete)
    (hoff : w.powerOff = false) (hrunning : i.stopped = false)
    (hwatches : i.watches = s.inoti.watches) (hnodup : i.db.Nodup) :
    ((s.notify place mask cookie).foldl (Inoti.event w) i).db.Nodup ∧
      ∀ item, item ∈ ((s.notify place mask cookie).foldl (Inoti.event w) i).db ↔
        item ∈ i.db ∧ (Visible root.path place.path → item ≠ text place.path) := by
  by_cases hvisible : Visible root.path place.path
  · obtain ⟨id, -, hevent⟩ := m.foldl_notify hdir hroot hvisible htold.1 mask cookie
    obtain ⟨hfold, -, -⟩ := hevent w i hoff hrunning hwatches
    have hdelete : (s.notify place mask cookie).foldl (Inoti.event w) i =
        i.deleteItem (text place.path) := by
      rw [hfold, Inoti.handle]
      rcases hbranch with h | h <;> simp only [nameEvent, h]
    rw [hdelete]
    refine ⟨hnodup.erase _, fun item => ?_⟩
    rw [Inoti.deleteItem, hnodup.mem_erase_iff, and_comm]
    simp only [hvisible, forall_const]
  · rw [foldl_notify_hidden htold.2 hoff hrunning hroot hvisible]
    exact ⟨hnodup, fun item => by simp only [hvisible, false_implies, and_true]⟩

/-- The event of a file that has been moved in registers it. -/
theorem db_of_moved (m : s.Mirror root) (hdir : s.tree.IsDir place.dir)
    (hroot : ¬ place.path <+: root.path) (htold : s.Told root place) (cookie : Nat)
    (hoff : w.powerOff = false) (hrunning : i.stopped = false)
    (hwatches : i.watches = s.inoti.watches) (hnodup : i.db.Nodup) :
    ((s.notify place inMovedTo cookie).foldl (Inoti.event w) i).db.Nodup ∧
      ∀ item, item ∈ ((s.notify place inMovedTo cookie).foldl (Inoti.event w) i).db ↔
        item ∈ i.db ∨ Visible root.path place.path ∧ item = text place.path := by
  by_cases hvisible : Visible root.path place.path
  · obtain ⟨id, -, hevent⟩ := m.foldl_notify hdir hroot hvisible htold.1 inMovedTo cookie
    obtain ⟨hfold, -, -⟩ := hevent w i hoff hrunning hwatches
    have hbranch : branch inMovedTo = .fileMovedTo := by decide
    have hregister : (s.notify place inMovedTo cookie).foldl (Inoti.event w) i =
        i.registerFile (text place.path) := by
      rw [hfold, Inoti.handle]
      simp only [nameEvent, hbranch]
    rw [hregister]
    refine ⟨nodup_registerFile hnodup, fun item => ?_⟩
    simp only [mem_registerFile, hvisible, true_and]
  · rw [foldl_notify_hidden htold.2 hoff hrunning hroot hvisible]
    exact ⟨hnodup, fun item => by simp only [hvisible, false_and, or_false]⟩

/-- Writing a file registers it, unless it was there and has its item. -/
theorem db_of_write (m : s.Mirror root) (henabled : (Op.write place).Enabled root s.tree)
    (htold : s.Told root place) (hnodup : s.inoti.db.Nodup)
    (hpresent : place.path ∈ s.tree.files → Visible root.path place.path →
      text place.path ∈ s.inoti.db) (hoff : w.powerOff = false) :
    ((s.events (.write place)).foldl (Inoti.event w) s.inoti).db.Nodup ∧
      ∀ item, item ∈ ((s.events (.write place)).foldl (Inoti.event w) s.inoti).db ↔
        item ∈ s.inoti.db ∨ Visible root.path place.path ∧ item = text place.path := by
  obtain ⟨hdir, -, hfree⟩ := henabled
  have hroot := m.not_above_root hfree
  rw [events, List.foldl_append]
  by_cases hvisible : Visible root.path place.path
  · obtain ⟨id, hmem, hcreated⟩ := m.foldl_notify hdir hroot hvisible htold.1 inCreate 0
    obtain ⟨id', hmem', hclosed⟩ := m.foldl_notify hdir hroot hvisible htold.1 inCloseWrite 0
    obtain rfl := s.wf.id_unique hmem' hmem
    have hcreate : branch inCreate = .fileCreate := by decide
    have hclose : branch inCloseWrite = .fileCloseWrite := by decide
    by_cases hfile : place.path ∈ s.tree.files
    · obtain ⟨hfold, -, -⟩ := hclosed w s.inoti hoff m.running rfl
      have hthere := hpresent hfile hvisible
      have hdb : ((s.notify place inCloseWrite 0).foldl (Inoti.event w) s.inoti).db =
          s.inoti.db := by
        rw [hfold, Inoti.handle]
        simp only [nameEvent, hclose]
        exact closeWrite_db_of_present hthere
      rw [if_pos hfile, List.foldl_nil, hdb]
      refine ⟨hnodup, fun item => ⟨.inl, fun h => h.elim (fun hitem => hitem) ?_⟩⟩
      rintro ⟨-, rfl⟩
      exact hthere
    · obtain ⟨hfirst, -, -⟩ := hcreated w s.inoti hoff m.running rfl
      rw [Inoti.handle] at hfirst
      simp only [nameEvent, hcreate] at hfirst
      obtain ⟨hsecond, -, -⟩ := hclosed w
        { s.inoti with createFiles := ((id' : Int), place.name) :: s.inoti.createFiles }
        hoff m.running rfl
      rw [Inoti.handle] at hsecond
      simp only [nameEvent, hclose] at hsecond
      rw [if_neg hfile, hfirst, hsecond, closeWrite_db_of_created List.mem_cons_self]
      refine ⟨nodup_registerFile hnodup, fun item => ?_⟩
      simp only [mem_registerFile, hvisible, true_and]
  · have hfirst : (if place.path ∈ s.tree.files then [] else s.notify place inCreate 0).foldl
        (Inoti.event w) s.inoti = s.inoti := by
      split
      · rfl
      · exact foldl_notify_hidden htold.2 hoff m.running hroot hvisible
    rw [hfirst, foldl_notify_hidden htold.2 hoff m.running hroot hvisible]
    exact ⟨hnodup, fun item => by simp only [hvisible, false_and, or_false]⟩

end Sys.Mirror

namespace Sys.Follows

variable {root : Root} {s s' : Sys} {op : Op} {place src dst : Place} {cookie : Nat}

theorem indexed_iff :
    s.Indexed root ↔ ∀ item, item ∈ s.inoti.db ↔
      ∃ p ∈ s.tree.files, Visible root.path p ∧ item = text p := by
  constructor
  · rintro ⟨hfiles, hitems⟩ item
    refine ⟨hitems item, ?_⟩
    rintro ⟨p, hp, hshown, rfl⟩
    exact hfiles p hp hshown
  · exact fun h => ⟨fun p hp hshown => (h _).mpr ⟨p, hp, hshown, rfl⟩, fun item => (h item).mp⟩

theorem mem_db (f : s.Follows root) (item : Text) :
    item ∈ s.inoti.db ↔ ∃ p ∈ s.tree.files, Visible root.path p ∧ item = text p :=
  indexed_iff.mp f.indexed item

theorem step_write (f : s.Follows root) (hstep : s.step root (.write place) = some s')
    (htold : s.Told root place) : s'.inoti.db.Nodup ∧ s'.Indexed root := by
  obtain ⟨henabled, htree, -⟩ := step_eq hstep
  have hinoti := step_inoti hstep (silent_of_none rfl)
  rw [retire_of_none rfl] at hinoti
  obtain ⟨hnodup, hdb⟩ := f.mirror.db_of_write henabled htold f.nodup
    (fun hfile hvisible => f.indexed.1 _ hfile hvisible)
    (w := (s.tree.apply (.write place)).world) rfl
  rw [← hinoti] at hnodup hdb
  refine ⟨hnodup, indexed_iff.mpr fun item => ?_⟩
  have hfiles : ∀ p, p ∈ s'.tree.files ↔ p ∈ s.tree.files ∨ p = place.path := by
    intro p
    rw [htree]
    exact Tree.mem_addFile
  rw [hdb, f.mem_db]
  simp only [hfiles, or_and_right, exists_or, exists_eq_left]

theorem step_unlink (f : s.Follows root) (hstep : s.step root (.unlink place) = some s')
    (htold : s.Told root place) : s'.inoti.db.Nodup ∧ s'.Indexed root := by
  obtain ⟨hfile, htree, -⟩ := step_eq hstep
  have hfile : place.path ∈ s.tree.files := hfile
  have hinoti := step_inoti hstep (silent_of_none rfl)
  rw [retire_of_none rfl] at hinoti
  have hroot := f.mirror.not_above_root (s.wf.disjoint _ hfile)
  have hbranch : branch inDelete = .fileDelete := by decide
  obtain ⟨hnodup, hdb⟩ := f.mirror.db_of_gone (s.wf.isDir_of_has (.inr hfile)) hroot htold 0
    (.inr hbranch)
    (w := (s.tree.apply (.unlink place)).world) rfl f.mirror.running rfl f.nodup
  have hevents : s.events (.unlink place) = s.notify place inDelete 0 := rfl
  rw [hevents] at hinoti
  rw [← hinoti] at hnodup hdb
  refine ⟨hnodup, indexed_iff.mpr fun item => ?_⟩
  have hfiles : ∀ p, p ∈ s'.tree.files ↔ p ∈ s.tree.files ∧ p ≠ place.path := by
    intro p
    rw [htree]
    exact Tree.mem_removeFile
  rw [hdb, f.mem_db]
  constructor
  · rintro ⟨⟨p, hp, hshown, rfl⟩, hne⟩
    refine ⟨p, (hfiles p).mpr ⟨hp, ?_⟩, hshown, rfl⟩
    rintro rfl
    exact hne hshown rfl
  · rintro ⟨p, hp, hshown, rfl⟩
    obtain ⟨hp, hne⟩ := (hfiles p).mp hp
    exact ⟨⟨p, hp, hshown, rfl⟩, fun _ heq => hne (s.wf.text_eq (.inr hp) (.inr hfile) heq)⟩

/-- A file that is renamed leaves its path, replacing what is at the other. -/
theorem mem_files_renamed (henabled : (Op.rename cookie src dst).Enabled root s.tree)
    (hsrc : ¬ s.tree.IsDir src.path) (p : Path) :
    p ∈ (s.tree.rename src.path dst.path).files ↔
      (p ∈ s.tree.files ∧ p ≠ src.path) ∨ p = dst.path := by
  have hmovable := henabled.movable
  have hsrcFile : src.path ∈ s.tree.files := henabled.1.resolve_left hsrc
  have hsame : ∀ q ∈ s.tree.files, q ≠ src.path → reroot src.path dst.path q = q := by
    intro q hq hne
    apply reroot_beside
    exact fun hbelow => hne ((s.wf.childless_of_not_isDir hsrc).2 q hq hbelow)
  have hmoved : reroot src.path dst.path src.path = dst.path := by
    have hreroot := reroot_append src.path dst.path []
    rwa [List.append_nil, List.append_nil] at hreroot
  have hneq : src.path ≠ dst.path := fun heq => hmovable.notInto (heq ▸ List.prefix_refl _)
  rw [Tree.mem_rename_files]
  constructor
  · rintro ⟨q, hq, -, rfl⟩
    by_cases hqs : q = src.path
    · rw [hqs, hmoved]
      exact .inr rfl
    · rw [hsame q hq hqs]
      exact .inl ⟨hq, hqs⟩
  · intro h
    by_cases hp : p = dst.path
    · exact ⟨src.path, hsrcFile, hneq, hmoved.trans hp.symm⟩
    · obtain ⟨hmem, hne⟩ := h.resolve_right hp
      exact ⟨p, hmem, hp, hsame p hmem hne⟩

theorem step_rename_file (f : s.Follows root)
    (hstep : s.step root (.rename cookie src dst) = some s') (hsrc : ¬ s.tree.IsDir src.path)
    (hsrcTold : s.Told root src) (hdstTold : s.Told root dst) :
    s'.inoti.db.Nodup ∧ s'.Indexed root := by
  obtain ⟨henabled, htree, -⟩ := step_eq hstep
  have hdst := Sys.Mirror.not_isDir_dst henabled hsrc
  have hretired : s.retired (.rename cookie src dst) = none := Tree.idOf_eq_none hdst
  have hinoti := step_inoti hstep (silent_of_none hretired)
  have hsrcFile : src.path ∈ s.tree.files := henabled.1.resolve_left hsrc
  have hsrcRoot := f.mirror.not_above_root hsrc
  rw [retire_of_none hretired, Sys.Mirror.events_rename_file hsrc, List.foldl_append] at hinoti
  have hbranch : branch inMovedFrom = .fileMovedFrom := by decide
  obtain ⟨hnodup, hdb⟩ := f.mirror.db_of_gone (s.wf.isDir_of_has (.inr hsrcFile)) hsrcRoot
    hsrcTold cookie (.inl hbranch)
    (w := (s.tree.apply (.rename cookie src dst)).world) rfl f.mirror.running rfl f.nodup
  have hsame : SameTable s.inoti ((s.notify src inMovedFrom cookie).foldl
      (Inoti.event (s.tree.apply (.rename cookie src dst)).world) s.inoti) :=
    sameTable_foldl rfl fun _ he =>
      Sys.Mirror.file_event (Sys.Mirror.survived hsrcTold) (by decide) he
  have hdstRoot := f.mirror.not_above_root hdst
  obtain ⟨hnodup', hdb'⟩ := f.mirror.db_of_moved henabled.2.1 hdstRoot hdstTold cookie
    (w := (s.tree.apply (.rename cookie src dst)).world) rfl
    (hsame.2.2.trans f.mirror.running) hsame.1 hnodup
  rw [← hinoti] at hnodup' hdb'
  refine ⟨hnodup', indexed_iff.mpr fun item => ?_⟩
  have hfiles : ∀ p, p ∈ s'.tree.files ↔ (p ∈ s.tree.files ∧ p ≠ src.path) ∨ p = dst.path := by
    intro p
    rw [htree]
    exact mem_files_renamed henabled hsrc p
  rw [hdb', hdb, f.mem_db]
  constructor
  · rintro (⟨⟨p, hp, hshown, rfl⟩, hne⟩ | ⟨hshown, rfl⟩)
    · refine ⟨p, (hfiles p).mpr (.inl ⟨hp, ?_⟩), hshown, rfl⟩
      rintro rfl
      exact hne hshown rfl
    · exact ⟨dst.path, (hfiles _).mpr (.inr rfl), hshown, rfl⟩
  · rintro ⟨p, hp, hshown, rfl⟩
    rcases (hfiles p).mp hp with ⟨hp, hne⟩ | rfl
    · exact .inl ⟨⟨p, hp, hshown, rfl⟩,
        fun _ heq => hne (s.wf.text_eq (.inr hp) (.inr hsrcFile) heq)⟩
    · exact .inr ⟨hshown, rfl⟩

/-! ### Operations on directories -/

/-- Nothing happens to the files, nor to the items. -/
theorem of_same (f : s.Follows root) (hfiles : s'.tree.files = s.tree.files)
    (hdb : s'.inoti.db = s.inoti.db) : s'.inoti.db.Nodup ∧ s'.Indexed root := by
  rw [Indexed, hfiles, hdb]
  exact ⟨f.nodup, f.indexed⟩

theorem step_mkdir (f : s.Follows root) (hstep : s.step root (.mkdir place) = some s')
    (htold : s.Told root place) : s'.inoti.db.Nodup ∧ s'.Indexed root := by
  obtain ⟨henabled, htree, -⟩ := step_eq hstep
  have hinoti := step_inoti hstep (silent_of_none rfl)
  have hfree : ¬ s.tree.IsDir place.path := fun h => henabled.2.2 (.inl h)
  rw [retire_of_none rfl] at hinoti
  refine f.of_same (htree ▸ rfl) ?_
  by_cases hvisible : Visible root.path place.path
  · rw [hinoti, f.mirror.foldl_mkdir henabled htold.1 hvisible]
    exact addWatch_db
  · rw [hinoti, events,
      Sys.Mirror.foldl_notify_hidden htold.2 rfl f.mirror.running (f.mirror.not_above_root hfree) hvisible]

theorem step_rmdir (f : s.Follows root) (hstep : s.step root (.rmdir place) = some s')
    (htold : s.Told root place) (hsilent : s.Silent (.rmdir place)) :
    s'.inoti.db.Nodup ∧ s'.Indexed root := by
  obtain ⟨henabled, htree, -⟩ := step_eq hstep
  have hrunning : (s.retire (.rmdir place)).1.stopped = false :=
    retire_stopped.trans f.mirror.running
  have hinoti := step_inoti hstep hsilent
  refine f.of_same (htree ▸ rfl) ?_
  by_cases hvisible : Visible root.path place.path
  · rw [f.mirror.foldl_rmdir henabled htold.1 hvisible rfl hrunning retire_watches] at hinoti
    rw [hinoti]
    exact retire_db
  · rw [events, Sys.Mirror.foldl_notify_hidden htold.2 rfl hrunning henabled.2.2 hvisible] at hinoti
    rw [hinoti, retire_db]

/-- No file is lost when a directory is renamed. -/
theorem mem_files_moved (henabled : (Op.rename cookie src dst).Enabled root s.tree)
    (hdir : s.tree.IsDir src.path) (p : Path) :
    p ∈ (s.tree.rename src.path dst.path).files ↔
      (p ∈ s.tree.files ∧ ¬ src.path <+: p) ∨
        ∃ rel, p = dst.path ++ rel ∧ src.path ++ rel ∈ s.tree.files := by
  have hmovable := henabled.movable
  have hkind := henabled.2.2.2.2.2.1
  have hne : ∀ q ∈ s.tree.files, q ≠ dst.path := by
    rintro q hq rfl
    exact s.wf.disjoint _ hq ((hkind (.inr hq)).mp hdir)
  rw [Tree.mem_rename_files]
  constructor
  · rintro ⟨q, hq, -, rfl⟩
    by_cases hbelow : src.path <+: q
    · obtain ⟨rel, rfl⟩ := hbelow
      exact .inr ⟨rel, reroot_append _ _ _, hq⟩
    · rw [reroot_beside hbelow]
      exact .inl ⟨hq, hbelow⟩
  · rintro (⟨hp, hbelow⟩ | ⟨rel, rfl, hmem⟩)
    · exact ⟨p, hp, hne p hp, reroot_beside hbelow⟩
    · exact ⟨_, hmem, hne _ hmem, reroot_append _ _ _⟩

theorem walk_itemized (f : s.Follows root)
    (henabled : (Op.rename cookie src dst).Enabled root s.tree)
    (hsrc : Visible root.path src.path) (hdst : Visible root.path dst.path) :
    Itemized (s.tree.rename src.path dst.path) dst.path (fun rel => text (src.path ++ rel))
      s.inoti.db := by
  have hmovable := henabled.movable
  have hwf : (s.tree.rename src.path dst.path).Wf := s.wf.apply henabled
  have hfound : ∀ rel, (Visit.file rel).Sound (s.tree.rename src.path dst.path) dst.path →
      src.path ++ rel ∈ s.tree.files ∧ Visible root.path (src.path ++ rel) := by
    intro rel hsound
    obtain ⟨hmem, hrel⟩ := hmovable.sound_file_iff.mp hsound
    exact ⟨hmem, (visible_append hsrc).mpr hrel⟩
  refine
    { inj := fun rel rel' hrel hrel' heq => ?_
      apart := fun rel rel' hrel hrel' =>
        hmovable.text_ne s.wf hwf (.inr (hfound rel hrel).1) (.inr hrel'.1)
      present := fun rel hrel => f.indexed.1 _ (hfound rel hrel).1 (hfound rel hrel).2
      storage := fun rel hrel => ⟨root.known_text (hfound rel hrel).2,
        root.known_text ((visible_append hdst).mpr hrel.2)⟩ }
  exact List.append_cancel_left
    (s.wf.text_eq (.inr (hfound rel hrel).1) (.inr (hfound rel' hrel').1) heq)

/-- The items of a visible directory go with it. -/
theorem step_rename_shown (f : s.Follows root)
    (hstep : s.step root (.rename cookie src dst) = some s') (hdir : s.tree.IsDir src.path)
    (hfollows : s.FollowsDir root src dst) (hsilent : s.Silent (.rename cookie src dst))
    (hvisible : Visible root.path src.path) :
    s'.inoti.db.Nodup ∧ s'.Indexed root := by
  obtain ⟨henabled, htree, -⟩ := step_eq hstep
  have hmovable := henabled.movable
  have hwf : (s.tree.rename src.path dst.path).Wf := s.wf.apply henabled
  obtain ⟨hdst, -, hfits, -⟩ := hfollows.2.2.1 hvisible
  have hwalk := mem_walk hwf hmovable hfits hdir
  obtain ⟨start, finish, -, hstart, -, hwalked, -, hlast, -⟩ :=
    f.mirror.walked_shown hstep hdir hfollows hsilent hvisible
  have hitems : start.db = s.inoti.db := hstart.trans retire_db
  have hitemized := f.walk_itemized henabled hvisible hdst
  rw [← hitems] at hitemized
  obtain ⟨hnodup, hdb⟩ := foldl_db (w := (s.tree.rename src.path dst.path).world) hitemized
    (hitems ▸ f.nodup) _ fun v hv => (hwalk v).mp hv
  rw [hwalked, ← hlast] at hnodup hdb
  have hvisit : ∀ rel, Visit.file rel ∈ visits (s.tree.rename src.path dst.path) dst.path
      Inoti.maxDepth [] ↔ src.path ++ rel ∈ s.tree.files ∧ Shown rel :=
    fun rel => (hwalk _).trans hmovable.sound_file_iff
  have hfiles : ∀ p, p ∈ s'.tree.files ↔ (p ∈ s.tree.files ∧ ¬ src.path <+: p) ∨
      ∃ rel, p = dst.path ++ rel ∧ src.path ++ rel ∈ s.tree.files := by
    intro p
    rw [htree]
    exact mem_files_moved henabled hdir p
  refine ⟨hnodup, indexed_iff.mpr fun item => ?_⟩
  rw [hdb, hitems, f.mem_db]
  simp only [hvisit]
  constructor
  · rintro (⟨⟨p, hp, hshown, rfl⟩, hstays⟩ | ⟨rel, ⟨hmem, hrel⟩, rfl⟩)
    · refine ⟨p, (hfiles p).mpr (.inl ⟨hp, ?_⟩), hshown, rfl⟩
      rintro ⟨rel, rfl⟩
      exact hstays rel ⟨hp, (visible_append hvisible).mp hshown⟩ rfl
    · exact ⟨_, (hfiles _).mpr (.inr ⟨rel, rfl, hmem⟩), (visible_append hdst).mpr hrel, rfl⟩
  · rintro ⟨p, hp, hshown, rfl⟩
    rcases (hfiles p).mp hp with ⟨hp, hbeside⟩ | ⟨rel, rfl, hmem⟩
    · refine .inl ⟨⟨p, hp, hshown, rfl⟩, fun rel ⟨hmem, _⟩ heq => hbeside ?_⟩
      have hpath := s.wf.text_eq (.inr hp) (.inr hmem) heq
      exact hpath ▸ List.prefix_append _ _
    · exact .inr ⟨rel, ⟨hmem, (visible_append hdst).mp hshown⟩, rfl⟩

/-- The visible files when a directory comes from a place that was not visible, and no
file with it that could be seen. -/
theorem mem_files_arrived (henabled : (Op.rename cookie src dst).Enabled root s.tree)
    (hdir : s.tree.IsDir src.path) (hsrc : ¬ Visible root.path src.path)
    (hbare : Visible root.path dst.path → ∀ p ∈ s.tree.files, ¬ Visible src.path p) {p : Path}
    (hshown : Visible root.path p) :
    p ∈ (s.tree.rename src.path dst.path).files ↔ p ∈ s.tree.files := by
  rw [mem_files_moved henabled hdir]
  obtain ⟨-, -, -, -, -, -, hsrcRoot, hdstRoot⟩ := henabled
  constructor
  · rintro (⟨hp, -⟩ | ⟨rel, rfl, hmem⟩)
    · exact hp
    · have hdst := hshown.above hdstRoot
      have hrel := (visible_append hdst).mp hshown
      exact absurd ((visible_self rel).mpr hrel) (hbare hdst _ hmem)
  · refine fun hp => .inl ⟨hp, ?_⟩
    rintro ⟨rel, rfl⟩
    exact hsrc (hshown.above hsrcRoot)

theorem step_rename_arrived (f : s.Follows root)
    (hstep : s.step root (.rename cookie src dst) = some s') (hdir : s.tree.IsDir src.path)
    (hfollows : s.FollowsDir root src dst) (hsilent : s.Silent (.rename cookie src dst))
    (hsrc : ¬ Visible root.path src.path)
    (hbare : Visible root.path dst.path → ∀ p ∈ s.tree.files, ¬ Visible src.path p) :
    s'.inoti.db.Nodup ∧ s'.Indexed root := by
  obtain ⟨henabled, htree, -⟩ := step_eq hstep
  have hmovable := henabled.movable
  have hwf : (s.tree.rename src.path dst.path).Wf := s.wf.apply henabled
  have hdb : s'.inoti.db = s.inoti.db := by
    by_cases hdst : Visible root.path dst.path
    · obtain ⟨-, hfits, ⟨pathFrom, hslot, hjoins, -⟩, -⟩ := hfollows.2.2.2 hsrc hdst
      obtain ⟨start, finish, -, hstart, -, hwalked, -, hfinish, -⟩ :=
        f.mirror.walked_arrived hstep hdir hfollows hsrc hdst hslot (joins_below hjoins)
      refine hfinish.trans (hwalked ▸ (foldl_db_of_dirs _ fun rel hvisit => ?_).trans hstart)
      obtain ⟨hmem, hrel⟩ := hmovable.sound_file_iff.mp
        ((mem_walk hwf hmovable hfits hdir _).mp hvisit)
      exact hbare hdst _ hmem ((visible_self rel).mpr hrel)
    · rw [step_inoti hstep hsilent, Sys.Mirror.foldl_rename_hidden henabled hfollows.1.2 hfollows.2.1.2 rfl
        (retire_stopped.trans f.mirror.running) hsrc hdst, retire_db]
  refine ⟨hdb ▸ f.nodup, indexed_iff.mpr fun item => ?_⟩
  rw [hdb, f.mem_db, htree]
  have hsame : ∀ p, Visible root.path p →
      (p ∈ (s.tree.apply (.rename cookie src dst)).files ↔ p ∈ s.tree.files) :=
    fun p hshown => mem_files_arrived henabled hdir hsrc hbare hshown
  constructor
  · rintro ⟨p, hp, hshown, rfl⟩
    exact ⟨p, (hsame p hshown).mpr hp, hshown, rfl⟩
  · rintro ⟨p, hp, hshown, rfl⟩
    exact ⟨p, (hsame p hshown).mp hp, hshown, rfl⟩

theorem step (f : s.Follows root) (hindexes : s.Indexes root op)
    (hstep : s.step root op = some s') : s'.Follows root := by
  have hmirror := f.mirror.step hindexes.tracks hstep
  have hitems : s'.inoti.db.Nodup ∧ s'.Indexed root := by
    cases op with
    | write place => exact f.step_write hstep hindexes
    | unlink place => exact f.step_unlink hstep hindexes
    | mkdir place => exact f.step_mkdir hstep hindexes
    | rmdir place => exact f.step_rmdir hstep hindexes.1 hindexes.2.2
    | rename cookie src dst =>
        rw [Indexes] at hindexes
        split at hindexes
        next hdir =>
          obtain ⟨htracks, hbare⟩ := hindexes
          rw [Tracks, if_pos hdir] at htracks
          obtain ⟨hfollows, hsilent⟩ := htracks
          by_cases hsrc : Visible root.path src.path
          · exact f.step_rename_shown hstep hdir hfollows hsilent hsrc
          · exact f.step_rename_arrived hstep hdir hfollows hsilent hsrc (hbare hsrc)
        next hfile => exact f.step_rename_file hstep hfile hindexes.1 hindexes.2
  exact ⟨hmirror, hitems.1, hitems.2⟩

end Sys.Follows

theorem album_follows : album.Follows media :=
  ⟨album_mirror, by decide, by decide⟩

end MediaServer.Inotify
