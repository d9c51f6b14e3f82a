import MediaServer.Inotify.Mirror

/-!
# What the thread does about one operation

For each operation on directories, the state of the thread once the events have been
handled, in a table that mirrors the tree.
-/

namespace MediaServer.Inotify

section Directory

variable {t : Tree} {p : Path} {i : Inoti} {e : Event} {w : World} {name path : Text}

theorem children_of_childless (hchildless : t.Childless p) : t.children p = [] := by
  rw [List.eq_nil_iff_forall_not_mem]
  intro ent hent
  have hlen : p ++ [ent.name] ≠ p := by simp
  rcases Tree.mem_children.mp hent with ⟨⟨id, hmem⟩, -⟩ | ⟨hmem, -⟩
  · exact hlen (hchildless.1 _ hmem (List.prefix_append _ _))
  · exact hlen (hchildless.2 _ hmem (List.prefix_append _ _))

/-- There is nothing to scan in a new directory. -/
theorem directoryScan_childless (h : t.Wf) (hdir : t.IsDir p) (hchildless : t.Childless p) :
    Inoti.directoryScanAndRegisterFile t.world Inoti.maxDepth i (text p) =
      i.addWatch t.world (text p) := by
  rw [Inoti.maxDepth, Inoti.directoryScanAndRegisterFile, h.opendir_text hdir,
    children_of_childless hchildless]
  rfl

theorem mem_removeWatch {node : Watch}
    (h : i.watches.countP (fun node => node.name = path) ≤ 1) :
    node ∈ (i.removeWatch path).watches ↔ node ∈ i.watches ∧ node.name ≠ path := by
  have hwatches : (i.removeWatch path).watches =
      i.watches.filter fun node => !decide (node.name = path) := eraseP_eq_filter h
  rw [hwatches, List.mem_filter, Bool.not_eq_true', decide_eq_false_iff_not]

theorem handle_dirMovedTo {pathFrom : Text} (hbranch : branch e.mask = .dirMovedTo)
    (hreceived : i.received e = some (name, path))
    (hslot : i.getFullPath i.prevWd i.prevName = some pathFrom) :
    i.handle w e name path =
      { Inoti.scanRenamedFolder w Inoti.maxDepth i pathFrom path with
        prevMask := 0, prevWd := 0 } := by
  have hcall : i.renameCall e = some (pathFrom, path) := by
    simp only [Inoti.renameCall, hreceived, hbranch, hslot, Option.map_some]
  simp only [Inoti.handle, hbranch, hcall]

end Directory

namespace Sys.Mirror

variable {root : Root} {s : Sys} {place src dst : Place} {i : Inoti} {w : World} {cookie : Nat}

theorem foldl_mkdir (m : s.Mirror root) (henabled : (Op.mkdir place).Enabled root s.tree)
    (hheard : Heard root place) (hvisible : Visible root.path place.path) :
    (s.events (.mkdir place)).foldl (Inoti.event (s.tree.apply (.mkdir place)).world) s.inoti =
      { s.inoti.addWatch (s.tree.apply (.mkdir place)).world (text place.path) with
        prevMask := inIsDir ||| inCreate } := by
  have hwf := s.wf.apply henabled
  obtain ⟨hdir, hname, hfree⟩ := henabled
  have hisDir : ¬ s.tree.IsDir place.path := fun h => hfree (.inl h)
  obtain ⟨id, -, hevent⟩ := m.foldl_notify hdir (m.not_above_root hisDir) hvisible hheard
    (inIsDir ||| inCreate) 0
  obtain ⟨hfold, -, -⟩ := hevent (s.tree.apply (.mkdir place)).world s.inoti rfl m.running rfl
  have hbranch : branch (inIsDir ||| inCreate) = .dirCreate := by decide
  have hnew : (s.tree.apply (.mkdir place)).IsDir place.path :=
    ⟨s.tree.nextId, Tree.mem_addDir.mpr (.inr rfl)⟩
  have hchildless : (s.tree.apply (.mkdir place)).Childless place.path := by
    have hold := s.wf.childless_of_not_isDir hisDir
    refine ⟨fun d hd hbelow => ?_, hold.2⟩
    rcases Tree.mem_addDir.mp hd with hd | rfl
    · exact hold.1 d hd hbelow
    · rfl
  rw [events, hfold, Inoti.handle]
  simp only [nameEvent, hbranch, directoryScan_childless hwf hnew hchildless]

theorem foldl_rmdir (m : s.Mirror root) (henabled : (Op.rmdir place).Enabled root s.tree)
    (hheard : Heard root place) (hvisible : Visible root.path place.path)
    (hoff : w.powerOff = false) (hrunning : i.stopped = false)
    (hwatches : i.watches = s.inoti.watches) :
    (s.events (.rmdir place)).foldl (Inoti.event w) i = i.removeWatch (text place.path) := by
  obtain ⟨hisDir, -, hroot⟩ := henabled
  obtain ⟨id, -, hevent⟩ := m.foldl_notify (s.wf.isDir_parent hisDir) hroot hvisible hheard
    (inIsDir ||| inDelete) 0
  obtain ⟨hfold, -, -⟩ := hevent w i hoff hrunning hwatches
  have hbranch : branch (inIsDir ||| inDelete) = .dirDelete := by decide
  rw [events, hfold, Inoti.handle]
  simp only [nameEvent, hbranch]

end Sys.Mirror

/-- Neither path lies below the other, and nothing is lost at `dst` but `dst`. -/
structure Movable (t : Tree) (src dst : Path) : Prop where
  notInto : ¬ src <+: dst
  notOnto : ¬ dst <+: src
  childless : t.Childless dst

theorem Op.Enabled.movable {root : Root} {t : Tree} {cookie : Nat} {src dst : Place}
    (h : (Op.rename cookie src dst).Enabled root t) : Movable t src.path dst.path := by
  obtain ⟨hhas, -, -, hinto, hchildless, -⟩ := h
  refine ⟨hinto, fun hbelow => hinto ?_, hchildless⟩
  rcases hhas with ⟨id, hmem⟩ | hmem
  · have heq : src.path = dst.path := hchildless.1 _ hmem hbelow
    exact heq ▸ List.prefix_refl _
  · exact hchildless.2 _ hmem hbelow ▸ List.prefix_refl _

section Walked

variable {t : Tree} {src dst rel : Path}

theorem visible_self (rel : Path) : Visible src (src ++ rel) ↔ Shown rel :=
  visible_append ⟨List.prefix_refl _, by simp⟩

/-- What a walk of the renamed directory comes upon was below the old path. -/
theorem Movable.has_iff (h : Movable t src dst) :
    (t.rename src dst).Has (dst ++ rel) ↔ t.Has (src ++ rel) := by
  refine or_congr ⟨?_, ?_⟩ (Tree.mem_rename_files_below h.notInto h.childless)
  · exact fun ⟨id, hmem⟩ => ⟨id, (Tree.mem_rename_dirs_below h.notInto h.childless).mp hmem⟩
  · exact fun ⟨id, hmem⟩ => ⟨id, (Tree.mem_rename_dirs_below h.notInto h.childless).mpr hmem⟩

theorem Movable.sound_dir_iff (h : Movable t src dst) :
    (Visit.dir rel).Sound (t.rename src dst) dst ↔ t.IsDir (src ++ rel) ∧ Shown rel := by
  refine and_congr_left fun _ => ⟨?_, ?_⟩
  · exact fun ⟨id, hmem⟩ => ⟨id, (Tree.mem_rename_dirs_below h.notInto h.childless).mp hmem⟩
  · exact fun ⟨id, hmem⟩ => ⟨id, (Tree.mem_rename_dirs_below h.notInto h.childless).mpr hmem⟩

theorem Movable.sound_file_iff (h : Movable t src dst) :
    (Visit.file rel).Sound (t.rename src dst) dst ↔ src ++ rel ∈ t.files ∧ Shown rel :=
  and_congr_left fun _ => Tree.mem_rename_files_below h.notInto h.childless

/-- No path of the walk is an old path of the walk. -/
theorem Movable.text_ne (h : Movable t src dst) (hwf : t.Wf) (hwf' : (t.rename src dst).Wf)
    {rel' : Path} (hhas : t.Has (src ++ rel)) (hhas' : (t.rename src dst).Has (dst ++ rel')) :
    text (src ++ rel) ≠ text (dst ++ rel') := by
  intro heq
  have hpath := text_inj (fun n hn => (hwf.validName hhas n hn).2)
    (fun n hn => (hwf'.validName hhas' n hn).2) heq
  exact not_below_append h.notOnto h.notInto rel (hpath ▸ List.prefix_append _ _)

theorem mem_paths {p : Path} : p ∈ t.dirs.map Prod.fst ++ t.files ↔ t.Has p := by
  rw [List.mem_append, Tree.Has, Tree.IsDir, List.mem_map]
  refine or_congr_left ⟨?_, ?_⟩
  · rintro ⟨d, hd, rfl⟩
    exact ⟨d.2, hd⟩
  · rintro ⟨id, hmem⟩
    exact ⟨_, hmem, rfl⟩

/-- The buffers hold what the walk takes to have been below a path. -/
theorem joins_below {pathFrom : Text} (h : ∀ p ∈ t.dirs.map Prod.fst ++ t.files, Visible src p →
      (appendAll pathFrom (p.drop src.length)).isSome) :
    ∀ rel, Shown rel → t.Has (src ++ rel) → (appendAll pathFrom rel).isSome := by
  intro rel hrel hhas
  have hjoin := h _ (mem_paths.mpr hhas) ((visible_self rel).mpr hrel)
  rwa [List.drop_left] at hjoin

theorem Sys.FitsMoved.fits {s : Sys} (h : s.FitsMoved src dst) (hshown : Shown rel)
    (hhas : s.tree.Has (src ++ rel)) : Fits (dst ++ rel) := by
  have hfits := h _ (mem_paths.mpr hhas) ((visible_self rel).mpr hshown)
  rwa [reroot_append] at hfits

/-- The walk of a renamed directory comes upon all that is visible in it. -/
theorem mem_walk {s : Sys} (hwf : (s.tree.rename src dst).Wf) (h : Movable s.tree src dst)
    (hfits : s.FitsMoved src dst) (hdir : s.tree.IsDir src) (v : Visit) :
    v ∈ visits (s.tree.rename src dst) dst Inoti.maxDepth [] ↔
      v.Sound (s.tree.rename src dst) dst := by
  have hdepth : ∀ rel, Shown rel → s.tree.Has (src ++ rel) → rel.length < Inoti.maxDepth := by
    intro rel hshown hhas
    have hlen := Nat.le_trans (length_le_text _) (hfits.fits hshown hhas)
    rw [List.length_append, msFilePathLenMax] at hlen
    rw [Inoti.maxDepth, msFilePathLenMax]
    omega
  have hstart : (Visit.dir []).Sound (s.tree.rename src dst) dst :=
    h.sound_dir_iff.mpr ⟨by rwa [List.append_nil], List.forall_mem_nil _⟩
  constructor
  · exact sound_of_mem_visits hstart.1 hstart.2 v
  · intro hsound
    cases v with
    | dir rel =>
        have hhas := (h.sound_dir_iff.mp hsound).1
        exact (@mem_visits _ _ [] hwf _ rel hsound.1 hsound.2 (hdepth rel hsound.2 (.inl hhas))).1
    | file rel =>
        cases rel using List.reverseRecOn with
        | nil =>
            rw [Visit.Sound, List.append_nil] at hsound
            exact absurd (by simpa using hstart.1) (hwf.disjoint _ hsound.1)
        | append_singleton rel name =>
            obtain ⟨hfile, hshown⟩ := hsound
            have hshownRel : Shown rel := fun n hn => hshown n (List.mem_append_left _ hn)
            rw [← List.append_assoc] at hfile
            have hparent := hwf.isDir_of_has (.inr hfile)
            have hhas := (h.sound_dir_iff.mp ⟨hparent, hshownRel⟩).1
            exact (@mem_visits _ _ [] hwf _ rel hparent hshownRel
              (hdepth rel hshownRel (.inl hhas))).2 name
                (hshown name (List.mem_append_right _ (List.mem_singleton_self _))) hfile

end Walked

namespace Sys.Mirror

variable {root : Root} {s : Sys} {src dst : Place} {i : Inoti} {cookie : Nat}

/-- The walk of the renamed directory, from a state with the table and items of `i`. -/
def Walked (s : Sys) (src dst : Place) (pathFrom : Path → Text) (i i' : Inoti) : Prop :=
  ∃ start finish, SameTable i start ∧ start.db = i.db ∧ start.faulted = i.faulted ∧
    (visits (s.tree.rename src.path dst.path) dst.path Inoti.maxDepth []).foldl
      (Visit.apply (s.tree.rename src.path dst.path).world dst.path pathFrom) start = finish ∧
    SameTable finish i' ∧ i'.db = finish.db ∧ i'.faulted = finish.faulted

theorem Walked.faulted {pathFrom : Path → Text} {i' : Inoti} (h : Walked s src dst pathFrom i i')
    (hknown : ∀ rel,
      .file rel ∈ visits (s.tree.rename src.path dst.path) dst.path Inoti.maxDepth [] →
        msGetStorageTypeByFull (pathFrom rel) ≠ .invalidFilePath ∧
          msGetStorageTypeByFull (text (dst.path ++ rel)) ≠ .invalidFilePath) :
    i'.faulted = i.faulted := by
  obtain ⟨start, finish, -, -, hstart, rfl, -, -, hfinish⟩ := h
  exact hfinish.trans ((foldl_visits_faulted hknown).trans hstart)

theorem events_rename_dir (hdir : s.tree.IsDir src.path) :
    s.events (.rename cookie src dst) =
      s.notify src (inIsDir ||| inMovedFrom) cookie ++
        s.notify dst (inIsDir ||| inMovedTo) cookie := by
  rw [events, kind, if_pos hdir]

/-- The scan of a directory that has arrived at `dst`. -/
theorem scan_eq (henabled : (Op.rename cookie src dst).Enabled root s.tree)
    (hdir : s.tree.IsDir src.path) (hfits : s.FitsMoved src.path dst.path)
    {pathFrom : Path → Text}
    (hfrom : Joins (s.tree.rename src.path dst.path) dst.path pathFrom) :
    Inoti.scanRenamedFolder (s.tree.rename src.path dst.path).world Inoti.maxDepth i
        (pathFrom []) (text dst.path) =
      (visits (s.tree.rename src.path dst.path) dst.path Inoti.maxDepth []).foldl
        (Visit.apply (s.tree.rename src.path dst.path).world dst.path pathFrom) i := by
  have hmovable := henabled.movable
  have hto := joins_text dst.path fun rel hshown hhas =>
    hfits.fits hshown (hmovable.has_iff.mp hhas)
  have hstart : (Visit.dir []).Sound (s.tree.rename src.path dst.path) dst.path :=
    hmovable.sound_dir_iff.mpr ⟨by rwa [List.append_nil], nofun⟩
  have hscan := scanRenamedFolder_eq (s.wf.apply henabled) hfrom hto Inoti.maxDepth i
    hstart.1 hstart.2
  rwa [List.append_nil] at hscan

/-- A visible directory is walked under its old path. -/
theorem foldl_rename_shown (m : s.Mirror root)
    (henabled : (Op.rename cookie src dst).Enabled root s.tree) (hdir : s.tree.IsDir src.path)
    (hfollows : s.FollowsDir root src dst) (hvisible : Visible root.path src.path)
    (hrunning : i.stopped = false) (hwatches : i.watches = s.inoti.watches) :
    Walked s src dst (fun rel => text (src.path ++ rel)) i
      ((s.events (.rename cookie src dst)).foldl
        (Inoti.event (s.tree.rename src.path dst.path).world) i) := by
  obtain ⟨⟨hsrcHeard, -⟩, ⟨hdstHeard, -⟩, hshown, -⟩ := hfollows
  obtain ⟨hdstVisible, hfitsSrc, hfitsDst, -⟩ := hshown hvisible
  have hmovable := henabled.movable
  have hscan : ∀ i, _ := fun i => @scan_eq root s src dst i cookie henabled hdir hfitsDst _
    (joins_text src.path fun rel hrel hhas => hfitsSrc.fits hrel (hmovable.has_iff.mp hhas))
  obtain ⟨-, hdstDir, -, -, -, -, hsrcRoot, hdstRoot⟩ := henabled
  obtain ⟨id, -, hfrom⟩ := m.foldl_notify (s.wf.isDir_parent hdir) hsrcRoot hvisible hsrcHeard
    (inIsDir ||| inMovedFrom) cookie
  obtain ⟨id', -, hto⟩ := m.foldl_notify hdstDir hdstRoot hdstVisible hdstHeard
    (inIsDir ||| inMovedTo) cookie
  have hbranchFrom : branch (inIsDir ||| inMovedFrom) = .dirMovedFrom := by decide
  have hbranchTo : branch (inIsDir ||| inMovedTo) = .dirMovedTo := by decide
  let start : Inoti :=
    { i with prevMask := inIsDir ||| inMovedFrom, prevWd := id, prevName := src.name }
  have hfirst : (s.notify src (inIsDir ||| inMovedFrom) cookie).foldl
      (Inoti.event (s.tree.rename src.path dst.path).world) i = start := by
    obtain ⟨hfold, hreceived, -⟩ :=
      hfrom (s.tree.rename src.path dst.path).world i rfl hrunning hwatches
    have hcopy : msStrcopy (msFileNameLenMax + 1) src.name = some src.name :=
      (msStrcopy_name hreceived).1
    rw [hfold]
    simp only [Inoti.handle, nameEvent, hbranchFrom, hcopy, Option.getD_some, start]
  obtain ⟨-, -, hslot⟩ :=
    hfrom (s.tree.rename src.path dst.path).world start rfl hrunning hwatches
  obtain ⟨hsecond, hreceived, -⟩ :=
    hto (s.tree.rename src.path dst.path).world start rfl hrunning hwatches
  rw [events_rename_dir hdir, List.foldl_append, hfirst, hsecond,
    handle_dirMovedTo hbranchTo hreceived hslot]
  simp only [List.append_nil] at hscan
  exact ⟨start, _, ⟨rfl, rfl, rfl⟩, rfl, rfl, (hscan start).symm, ⟨rfl, rfl, rfl⟩, rfl, rfl⟩

/-- A directory that comes in is walked under the path that the slot stands for. -/
theorem foldl_rename_arrived (m : s.Mirror root)
    (henabled : (Op.rename cookie src dst).Enabled root s.tree) (hdir : s.tree.IsDir src.path)
    (hapart : s.Apart root src) (hdstHeard : Heard root dst) (hsrc : ¬ Visible root.path src.path)
    (hdst : Visible root.path dst.path) (hfits : s.FitsMoved src.path dst.path) {pathFrom : Text}
    (hslot : s.inoti.getFullPath s.inoti.prevWd s.inoti.prevName = some pathFrom)
    (hjoins : ∀ rel, Shown rel → s.tree.Has (src.path ++ rel) → (appendAll pathFrom rel).isSome) :
    Walked s src dst (fun rel => (appendAll pathFrom rel).getD []) s.inoti
      ((s.events (.rename cookie src dst)).foldl
        (Inoti.event (s.tree.rename src.path dst.path).world) s.inoti) := by
  have hmovable := henabled.movable
  have hscan := @scan_eq root s src dst s.inoti cookie henabled hdir hfits _
    (joins_appendAll fun rel hrel hhas => hjoins rel hrel (hmovable.has_iff.mp hhas))
  obtain ⟨-, hdstDir, -, -, -, -, hsrcRoot, hdstRoot⟩ := henabled
  obtain ⟨id, -, hto⟩ := m.foldl_notify hdstDir hdstRoot hdst hdstHeard
    (inIsDir ||| inMovedTo) cookie
  have hbranch : branch (inIsDir ||| inMovedTo) = .dirMovedTo := by decide
  obtain ⟨hsecond, hreceived, -⟩ :=
    hto (s.tree.rename src.path dst.path).world s.inoti rfl m.running rfl
  rw [events_rename_dir hdir, List.foldl_append,
    foldl_notify_hidden hapart rfl m.running hsrcRoot hsrc, hsecond,
    handle_dirMovedTo hbranch hreceived hslot]
  exact ⟨s.inoti, _, .refl _, rfl, rfl, hscan.symm, ⟨rfl, rfl, rfl⟩, rfl, rfl⟩

/-- The step of a visible directory that is renamed. -/
theorem walked_shown {s' : Sys} (m : s.Mirror root)
    (hstep : s.step root (.rename cookie src dst) = some s') (hdir : s.tree.IsDir src.path)
    (hfollows : s.FollowsDir root src dst) (hsilent : s.Silent (.rename cookie src dst))
    (hvisible : Visible root.path src.path) :
    Walked s src dst (fun rel => text (src.path ++ rel)) (s.retire (.rename cookie src dst)).1
      s'.inoti := by
  rw [step_inoti hstep hsilent]
  exact m.foldl_rename_shown (step_eq hstep).1 hdir hfollows hvisible
    (retire_stopped.trans m.running) retire_watches

/-- The step of one that comes in. -/
theorem walked_arrived {s' : Sys} (m : s.Mirror root)
    (hstep : s.step root (.rename cookie src dst) = some s') (hdir : s.tree.IsDir src.path)
    (hfollows : s.FollowsDir root src dst) (hsrc : ¬ Visible root.path src.path)
    (hdst : Visible root.path dst.path) {pathFrom : Text}
    (hslot : s.inoti.getFullPath s.inoti.prevWd s.inoti.prevName = some pathFrom)
    (hjoins : ∀ rel, Shown rel → s.tree.Has (src.path ++ rel) → (appendAll pathFrom rel).isSome) :
    Walked s src dst (fun rel => (appendAll pathFrom rel).getD []) s.inoti s'.inoti := by
  obtain ⟨⟨-, hapart⟩, ⟨hdstHeard, -⟩, -, harrived⟩ := hfollows
  obtain ⟨hfree, hfits, -, -⟩ := harrived hsrc hdst
  have hretired : s.retired (.rename cookie src dst) = none := Tree.idOf_eq_none hfree
  rw [step_inoti hstep (silent_of_none hretired), retire_of_none hretired]
  exact m.foldl_rename_arrived (step_eq hstep).1 hdir hapart hdstHeard hsrc hdst hfits hslot hjoins

theorem foldl_rename_hidden (henabled : (Op.rename cookie src dst).Enabled root s.tree)
    {w : World} (hsrcApart : s.Apart root src) (hdstApart : s.Apart root dst)
    (hoff : w.powerOff = false) (hrunning : i.stopped = false)
    (hsrc : ¬ Visible root.path src.path) (hdst : ¬ Visible root.path dst.path) :
    (s.events (.rename cookie src dst)).foldl (Inoti.event w) i = i := by
  obtain ⟨-, -, -, -, -, -, hsrcRoot, hdstRoot⟩ := henabled
  rw [events, List.foldl_append, foldl_notify_hidden hsrcApart hoff hrunning hsrcRoot hsrc,
    foldl_notify_hidden hdstApart hoff hrunning hdstRoot hdst]

end Sys.Mirror

end MediaServer.Inotify
