import MediaServer.Inotify.Effects

/-!
# The watch list follows the tree
-/

namespace MediaServer.Inotify

namespace Sys.Mirror

variable {root : Root} {s s' : Sys} {op : Op} {place src dst : Place} {cookie : Nat}

/-- The server can only crash over a directory that is renamed. -/
theorem step_faulted (hstep : s.step root op = some s')
    (hevents : ∀ e ∈ s.events op, branch e.mask ≠ .dirMovedTo) :
    s'.inoti.faulted = s.inoti.faulted := by
  obtain ⟨-, -, hinoti⟩ := step_eq hstep
  have hignored : ∀ e ∈ (s.retire op).2, branch e.mask ≠ .dirMovedTo := by
    intro e he
    rw [retire_branch he]
    decide
  rw [hinoti, foldl_faulted fun i e he => event_faulted (hignored e he),
    foldl_faulted fun i e he => event_faulted (hevents e he), retire_faulted]

theorem notify_branch {mask : Nat} {e : Event} (he : e ∈ s.notify place mask cookie) :
    branch e.mask = branch mask := by
  obtain ⟨id, -, -, rfl⟩ := mem_notify.mp he
  rfl

/-- An operation on files, none of whose events ends the thread. -/
theorem of_files (m : s.Mirror root) (hstep : s.step root op = some s')
    (hretired : s.retired op = none)
    (hevents : ∀ e ∈ s.events op, e.mask &&& inIsDir = 0 ∧ e.name ≠ powerOffName)
    (hdirs : (s.tree.apply op).dirs = s.tree.dirs)
    (hnext : (s.tree.apply op).nextId = s.tree.nextId) : s'.Mirror root := by
  obtain ⟨-, htree, -⟩ := step_eq hstep
  have hinoti := step_inoti hstep (silent_of_none hretired)
  rw [retire_of_none hretired] at hinoti
  refine m.of_sameTable (htree ▸ hdirs) (htree ▸ hnext) ?_ ?_
  · rw [hinoti]
    exact sameTable_foldl rfl hevents
  · refine (step_faulted hstep fun e he => ?_).trans m.alive
    rw [branch, if_neg (not_not.mpr (hevents e he).1)]
    split_ifs <;> decide

theorem step_write (m : s.Mirror root) (hstep : s.step root (.write place) = some s')
    (hsurvived : s.Survived place) : s'.Mirror root := by
  refine m.of_files hstep rfl (fun e he => ?_) Tree.addFile_dirs Tree.addFile_nextId
  cases List.mem_append.mp he with
  | inl he =>
      split at he
      · cases he
      · exact file_event hsurvived (by decide) he
  | inr he => exact file_event hsurvived (by decide) he

theorem step_unlink (m : s.Mirror root) (hstep : s.step root (.unlink place) = some s')
    (hsurvived : s.Survived place) : s'.Mirror root :=
  m.of_files hstep rfl (fun _ he => file_event hsurvived (by decide) he) rfl rfl

theorem not_isDir_dst (henabled : (Op.rename cookie src dst).Enabled root s.tree)
    (hsrc : ¬ s.tree.IsDir src.path) : ¬ s.tree.IsDir dst.path := by
  obtain ⟨-, -, -, -, -, hkind, -⟩ := henabled
  exact fun hdst => hsrc ((hkind (.inl hdst)).mpr hdst)

theorem events_rename_file (hsrc : ¬ s.tree.IsDir src.path) :
    s.events (.rename cookie src dst) =
      s.notify src inMovedFrom cookie ++ s.notify dst inMovedTo cookie := by
  rw [events, kind, if_neg hsrc, Nat.zero_or, Nat.zero_or]

theorem step_rename_file (m : s.Mirror root)
    (hstep : s.step root (.rename cookie src dst) = some s') (hsrc : ¬ s.tree.IsDir src.path)
    (hsrcSurvived : s.Survived src) (hdstSurvived : s.Survived dst) : s'.Mirror root := by
  have henabled := (step_eq hstep).1
  have hdst := not_isDir_dst henabled hsrc
  refine m.of_files hstep (Tree.idOf_eq_none hdst) (fun e he => ?_)
    (s.wf.rename_dirs_of_file hsrc hdst) rfl
  rw [events_rename_file hsrc] at he
  cases List.mem_append.mp he with
  | inl he => exact file_event hsrcSurvived (by decide) he
  | inr he => exact file_event hdstSurvived (by decide) he

/-! ### New and removed directories -/

/-- A path that no visible directory has is no entry's. -/
theorem name_ne_text (m : s.Mirror root) {p : Path} (hp : ∀ name ∈ p, ValidName name)
    (hvisible : Visible root.path p) (hdir : ¬ s.tree.IsDir p) {node : Watch}
    (hnode : node ∈ s.inoti.watches) : node.name ≠ text p := by
  intro hname
  have hnames : ShowsDir root s.tree node.name := by
    rcases m.entries node hnode with ⟨d, hd, hshown, rfl⟩ | ⟨-, hnames⟩
    · exact ⟨d, hd, hshown, rfl⟩
    · exact hnames (hname ▸ under_text hvisible.1)
  obtain ⟨d, hd, -, htext⟩ := hnames
  have hpath : d.1 = p := text_inj (fun n hn => (s.wf.dirNames d hd n hn).2)
    (fun n hn => (hp n hn).2) (htext.symm.trans hname)
  exact hdir ⟨d.2, hpath ▸ hd⟩

/-- An entry stays good while the visible directories stay and its descriptor, if it is
stray, stays so. -/
theorem entries_kept (m : s.Mirror root) {t : Tree}
    (hkept : ∀ d ∈ s.tree.dirs, Visible root.path d.1 → d ∈ t.dirs) {node : Watch}
    (hnode : node ∈ s.inoti.watches)
    (hstray : Stray root s.tree node.wd → Stray root t node.wd) :
    (∃ d ∈ t.dirs, Visible root.path d.1 ∧ node = ⟨text d.1, d.2⟩) ∨
      Stray root t node.wd ∧
        (Under (text root.path) node.name → ShowsDir root t node.name) := by
  rcases m.entries node hnode with ⟨d, hd, hshown, rfl⟩ | ⟨hwd, hnames⟩
  · exact .inl ⟨d, hkept d hd hshown, hshown, rfl⟩
  · refine .inr ⟨hstray hwd, fun hunder => ?_⟩
    obtain ⟨d, hd, hshown, hname⟩ := hnames hunder
    exact ⟨d, hkept d hd hshown, hshown, hname⟩

theorem step_mkdir (m : s.Mirror root) (hstep : s.step root (.mkdir place) = some s')
    (htold : s.Told root place) : s'.Mirror root := by
  obtain ⟨henabled, htree, -⟩ := step_eq hstep
  obtain ⟨hheard, hapart⟩ := htold
  have hinoti := step_inoti hstep (silent_of_none rfl)
  have hfree : ¬ s.tree.IsDir place.path := fun h => henabled.2.2 (.inl h)
  have hnew : (place.path, s.tree.nextId) ∈ (s.tree.apply (.mkdir place)).dirs :=
    Tree.mem_addDir.mpr (.inr rfl)
  have hwf := s.wf.apply henabled
  rw [retire_of_none rfl] at hinoti
  -- the table gets the entry of the new directory if it is visible
  have htable : s'.inoti.stopped = false ∧
      (∀ wd, wd ∈ s'.inoti.kernel ↔
        wd ∈ s.inoti.kernel ∨ Visible root.path place.path ∧ wd = (s.tree.nextId : Int)) ∧
      ∀ node, node ∈ s'.inoti.watches ↔ node ∈ s.inoti.watches ∨
        Visible root.path place.path ∧ node = ⟨text place.path, s.tree.nextId⟩ := by
    by_cases hvisible : Visible root.path place.path
    · have habsent : ∀ node ∈ s.inoti.watches, node.name ≠ text place.path := fun node hnode =>
        m.name_ne_text (hwf.dirNames _ hnew) hvisible hfree hnode
      rw [m.foldl_mkdir henabled hheard hvisible, addWatch_of_absent habsent
        (hwf.inotifyAddWatch_text hnew) (Int.natCast_pos.mpr (hwf.ids _ hnew).1)] at hinoti
      rw [hinoti]
      refine ⟨m.running, fun wd => ?_, fun node => ?_⟩
      · simp only [mem_addKernel, hvisible, true_and, eq_comm]
      · simp only [List.mem_append, List.mem_singleton, hvisible, true_and]
    · rw [events,
        foldl_notify_hidden hapart rfl m.running (m.not_above_root hfree) hvisible] at hinoti
      simp only [hinoti, m.running, hvisible, false_and, or_false, implies_true, and_self]
  obtain ⟨hrunning, hkernel, hwatches⟩ := htable
  have hmem : ∀ d, d ∈ s'.tree.dirs ↔ d ∈ s.tree.dirs ∨ d = (place.path, s.tree.nextId) := by
    intro d
    rw [htree]
    exact Tree.mem_addDir
  have halive : s'.inoti.faulted = s.inoti.faulted := step_faulted hstep fun e he => by
    rw [notify_branch he]
    decide
  refine
    { running := hrunning, alive := halive.trans m.alive, rootDir := ?_,
      kernel := fun wd hwd => ?_, live := fun d hd hshown => ?_,
      watched := fun d hd hshown => ?_, entries := fun node hnode => ?_ }
  · obtain ⟨id, hroot⟩ := m.rootDir
    exact ⟨id, (hmem _).mpr (.inl hroot)⟩
  · rcases (hkernel wd).mp hwd with hwd | ⟨-, rfl⟩
    · obtain ⟨d, hd, rfl⟩ := m.kernel wd hwd
      exact ⟨d, (hmem d).mpr (.inl hd), rfl⟩
    · exact ⟨_, (hmem _).mpr (.inr rfl), rfl⟩
  · refine (hkernel _).mpr ?_
    rcases (hmem d).mp hd with hd | rfl
    · exact .inl (m.live d hd hshown)
    · exact .inr ⟨hshown, rfl⟩
  · refine (hwatches _).mpr ?_
    rcases (hmem d).mp hd with hd | rfl
    · exact .inl (m.watched d hd hshown)
    · exact .inr ⟨hshown, rfl⟩
  · rcases (hwatches node).mp hnode with hnode | ⟨hshown, rfl⟩
    · refine m.entries_kept (fun d hd _ => (hmem d).mpr (.inl hd)) hnode ?_
      rintro ⟨hlt, hstray⟩
      refine ⟨?_, fun d hd hshown => ?_⟩
      · rw [htree]
        exact Int.lt_trans hlt (Int.ofNat_lt.mpr (Nat.lt_succ_self _))
      · rcases (hmem d).mp hd with hd | rfl
        · exact hstray d hd hshown
        · exact Int.ne_of_lt hlt
    · exact .inl ⟨_, (hmem _).mpr (.inr rfl), hshown, rfl⟩

/-- What the kernel goes on watching is not removed. -/
theorem kernel_retired (m : s.Mirror root) {p : Path} (hretired : s.retired op = s.tree.idOf p)
    {wd : Int} (hwd : wd ∈ (s.retire op).1.kernel) :
    ∃ d ∈ s.tree.dirs, d.1 ≠ p ∧ wd = (d.2 : Int) := by
  rw [mem_retire_kernel, hretired] at hwd
  obtain ⟨hwd, hne⟩ := hwd
  obtain ⟨d, hd, rfl⟩ := m.kernel wd hwd
  refine ⟨d, hd, ?_, rfl⟩
  rintro rfl
  exact hne d.2 (s.wf.idOf_eq hd) rfl

/-- The kernel goes on watching the visible directories that are not removed. -/
theorem live_retired (m : s.Mirror root) {p : Path} (hretired : s.retired op = s.tree.idOf p)
    {d : Path × Nat} (hd : d ∈ s.tree.dirs) (hne : d.1 ≠ p) (hshown : Visible root.path d.1) :
    (d.2 : Int) ∈ (s.retire op).1.kernel := by
  rw [mem_retire_kernel, hretired]
  refine ⟨m.live d hd hshown, fun id hid heq => hne ?_⟩
  have hmem : (p, d.2) ∈ s.tree.dirs := Int.ofNat_inj.mp heq ▸ Tree.idOf_mem hid
  exact s.wf.path_unique hd hmem

theorem step_rmdir (m : s.Mirror root) (hstep : s.step root (.rmdir place) = some s')
    (htold : s.Told root place)
    (hsole : Visible root.path place.path → s.Sole (text place.path))
    (hsilent : s.Silent (.rmdir place)) : s'.Mirror root := by
  obtain ⟨hheard, hapart⟩ := htold
  obtain ⟨henabled, htree, -⟩ := step_eq hstep
  have hrunning : (s.retire (.rmdir place)).1.stopped = false := retire_stopped.trans m.running
  -- the table loses the entry of the directory if it was visible
  have htable : s'.inoti.stopped = false ∧
      s'.inoti.kernel = (s.retire (.rmdir place)).1.kernel ∧
      ∀ node, node ∈ s'.inoti.watches ↔ node ∈ s.inoti.watches ∧
        (Visible root.path place.path → node.name ≠ text place.path) := by
    have hinoti := step_inoti hstep hsilent
    by_cases hvisible : Visible root.path place.path
    · rw [m.foldl_rmdir henabled hheard hvisible rfl hrunning retire_watches] at hinoti
      rw [hinoti]
      refine ⟨hrunning, rfl, fun node => ?_⟩
      rw [mem_removeWatch (by rw [retire_watches]; exact Nat.le_of_eq (hsole hvisible)),
        retire_watches]
      simp only [hvisible, forall_const]
    · rw [events, foldl_notify_hidden hapart rfl hrunning henabled.2.2 hvisible] at hinoti
      rw [hinoti]
      refine ⟨hrunning, rfl, fun node => ?_⟩
      simp only [retire_watches, hvisible, false_implies, and_true]
  obtain ⟨hrunning', hkernel, hwatches⟩ := htable
  have hmem : ∀ d, d ∈ s'.tree.dirs ↔ d ∈ s.tree.dirs ∧ d.1 ≠ place.path := by
    intro d
    rw [htree]
    exact Tree.mem_removeDir
  have halive : s'.inoti.faulted = s.inoti.faulted := step_faulted hstep fun e he => by
    rw [notify_branch he]
    decide
  refine
    { running := hrunning', alive := halive.trans m.alive, rootDir := ?_,
      kernel := fun wd hwd => ?_, live := fun d hd hshown => ?_,
      watched := fun d hd hshown => ?_, entries := fun node hnode => ?_ }
  · obtain ⟨id, hroot⟩ := m.rootDir
    refine ⟨id, (hmem _).mpr ⟨hroot, fun heq => henabled.2.2 ?_⟩⟩
    have heq : root.path = place.path := heq
    exact heq ▸ List.prefix_refl _
  · rw [hkernel] at hwd
    obtain ⟨d, hd, hne, rfl⟩ := m.kernel_retired rfl hwd
    exact ⟨d, (hmem d).mpr ⟨hd, hne⟩, rfl⟩
  · rw [hkernel]
    obtain ⟨hd, hne⟩ := (hmem d).mp hd
    exact m.live_retired rfl hd hne hshown
  · obtain ⟨hd, hne⟩ := (hmem d).mp hd
    refine (hwatches _).mpr ⟨m.watched d hd hshown, fun _ htext => hne ?_⟩
    exact s.wf.text_eq (.inl ⟨d.2, hd⟩) (.inl henabled.1) htext
  · obtain ⟨hnode, hkept⟩ := (hwatches node).mp hnode
    have hother : ∀ d ∈ s.tree.dirs, Visible root.path d.1 → node.name = text d.1 →
        d ∈ s'.tree.dirs := by
      intro d hd hshown hname
      refine (hmem d).mpr ⟨hd, ?_⟩
      rintro heq
      exact hkept (heq ▸ hshown) (heq ▸ hname)
    rcases m.entries node hnode with ⟨d, hd, hshown, rfl⟩ | ⟨⟨hlt, hstray⟩, hnames⟩
    · exact .inl ⟨d, hother d hd hshown rfl, hshown, rfl⟩
    · refine .inr ⟨⟨by rw [htree]; exact hlt, fun d hd => hstray d ((hmem d).mp hd).1⟩, ?_⟩
      intro hunder
      obtain ⟨d, hd, hshown, hname⟩ := hnames hunder
      exact ⟨d, hother d hd hshown hname, hshown, hname⟩

/-! ### Renamed directories -/

theorem rootDir_rename (m : s.Mirror root)
    (henabled : (Op.rename cookie src dst).Enabled root s.tree) :
    (s.tree.rename src.path dst.path).IsDir root.path := by
  obtain ⟨-, -, -, -, -, -, hsrcRoot, hdstRoot⟩ := henabled
  obtain ⟨id, hroot⟩ := m.rootDir
  refine ⟨id, Tree.mem_rename_dirs.mpr ⟨root.path, hroot, ?_, reroot_beside hsrcRoot⟩⟩
  rintro heq
  exact hdstRoot (heq ▸ List.prefix_refl _)

/-- A rename between two visible places changes no path's visibility. -/
theorem visible_reroot {p : Path} (hsrc : Visible root.path src.path)
    (hdst : Visible root.path dst.path) :
    Visible root.path (reroot src.path dst.path p) ↔ Visible root.path p := by
  by_cases hbelow : src.path <+: p
  · obtain ⟨rel, rfl⟩ := hbelow
    rw [reroot_append, visible_append hdst, visible_append hsrc]
  · rw [reroot_beside hbelow]

/-- Nor does it make a stray descriptor that of a visible directory. -/
theorem stray_reroot {wd : Int} (hsrc : Visible root.path src.path)
    (hdst : Visible root.path dst.path) (h : Stray root s.tree wd) :
    Stray root (s.tree.rename src.path dst.path) wd := by
  refine ⟨h.1, fun d hd hshown => ?_⟩
  obtain ⟨old, hold, -, heq⟩ := Tree.mem_rename_dirs.mp hd
  exact h.2 (old, d.2) hold ((visible_reroot hsrc hdst).mp (heq ▸ hshown))

theorem walk_known
    (henabled : (Op.rename cookie src dst).Enabled root s.tree)
    (hfollows : s.FollowsDir root src dst) (hvisible : Visible root.path src.path) :
    Known (s.tree.rename src.path dst.path) dst.path (fun rel => text (src.path ++ rel))
      s.inoti.watches := by
  obtain ⟨-, -, hshown, -⟩ := hfollows
  obtain ⟨-, -, -, hcarried⟩ := hshown hvisible
  have hmovable := henabled.movable
  have hwf : (s.tree.rename src.path dst.path).Wf := s.wf.apply henabled
  have hcarried' : ∀ rel, (Visit.dir rel).Sound (s.tree.rename src.path dst.path) dst.path →
      s.Sole (text (src.path ++ rel)) ∧
        ∀ node ∈ s.inoti.watches.head?, node.name ≠ text (src.path ++ rel) := by
    intro rel hsound
    obtain ⟨⟨id, hmem⟩, hrel⟩ := hmovable.sound_dir_iff.mp hsound
    exact hcarried _ hmem ((visible_self rel).mpr hrel)
  refine
    { inj := fun rel rel' hrel hrel' heq => ?_, apart := fun rel rel' hrel hrel' => ?_,
      head := fun rel hrel => (hcarried' rel hrel).2
      sole := fun rel hrel => (hcarried' rel hrel).1 }
  · have hdir := (hmovable.sound_dir_iff.mp hrel).1
    have hdir' := (hmovable.sound_dir_iff.mp hrel').1
    exact List.append_cancel_left (s.wf.text_eq (.inl hdir) (.inl hdir') heq)
  · have hdir := (hmovable.sound_dir_iff.mp hrel).1
    exact hmovable.text_ne s.wf hwf (.inl hdir) (.inl hrel'.1)

/-- The table after the walk of a directory that was visible: the entries below it have
their new paths. -/
theorem table_rename_shown (m : s.Mirror root)
    (hstep : s.step root (.rename cookie src dst) = some s') (hdir : s.tree.IsDir src.path)
    (hfollows : s.FollowsDir root src dst) (hsilent : s.Silent (.rename cookie src dst))
    (hvisible : Visible root.path src.path) :
    s'.inoti.stopped = false ∧
      s'.inoti.kernel = (s.retire (.rename cookie src dst)).1.kernel ∧
      ∃ done, (∀ rel, rel ∈ done ↔ s.tree.IsDir (src.path ++ rel) ∧ Shown rel) ∧
        s'.inoti.watches = s.inoti.watches.map
          (retitle dst.path (fun rel => text (src.path ++ rel)) done) := by
  have henabled := (step_eq hstep).1
  have hmovable := henabled.movable
  have hwf : (s.tree.rename src.path dst.path).Wf := s.wf.apply henabled
  obtain ⟨-, -, hfits, -⟩ := hfollows.2.2.1 hvisible
  have hwalk := mem_walk hwf hmovable hfits hdir
  obtain ⟨start, finish, hstart, -, -, hwalked, ⟨hw, hk, hs⟩, -⟩ :=
    m.walked_shown hstep hdir hfollows hsilent hvisible
  have hlist : start.watches = s.inoti.watches := hstart.1.trans retire_watches
  have hrunning : start.stopped = false := hstart.2.2.trans (retire_stopped.trans m.running)
  have hknown := walk_known henabled hfollows hvisible
  rw [← hlist] at hknown
  obtain ⟨hwatches, hkernel, hstopped⟩ := foldl_known
    (w := (s.tree.rename src.path dst.path).world) hknown _ fun v hv => (hwalk v).mp hv
  rw [hwalked] at hwatches hkernel hstopped
  refine ⟨hs.trans (hstopped.trans hrunning), hk.trans (hkernel.trans hstart.2.1), _,
    fun rel => ?_, hw.trans (hlist ▸ hwatches)⟩
  exact mem_dirs.trans ((hwalk _).trans hmovable.sound_dir_iff)

/-- An entry with the path of a visible directory gets its new path. -/
theorem retitle_visible (henabled : (Op.rename cookie src dst).Enabled root s.tree)
    (hfollows : s.FollowsDir root src dst) (hvisible : Visible root.path src.path)
    {done : List Path} (hdone : ∀ rel, rel ∈ done ↔ s.tree.IsDir (src.path ++ rel) ∧ Shown rel)
    {node : Watch} {d : Path × Nat} (hd : d ∈ s.tree.dirs) (hshown : Visible root.path d.1)
    (hname : node.name = text d.1) :
    retitle dst.path (fun rel => text (src.path ++ rel)) done node =
      ⟨text (reroot src.path dst.path d.1), node.wd⟩ := by
  obtain ⟨p, id⟩ := d
  have hknown := walk_known henabled hfollows hvisible
  have hsound : ∀ rel ∈ done, (Visit.dir rel).Sound (s.tree.rename src.path dst.path) dst.path :=
    fun rel hrel => henabled.movable.sound_dir_iff.mpr ((hdone rel).mp hrel)
  by_cases hbelow : src.path <+: p
  · obtain ⟨rel, rfl⟩ := hbelow
    have hrel : rel ∈ done := (hdone rel).mpr ⟨⟨id, hd⟩, (visible_append hvisible).mp hshown⟩
    rw [retitle_of_mem hknown hsound hrel hname, reroot_append]
  · rw [retitle_of_absent, reroot_beside hbelow, ← hname]
    intro rel hrel heq
    have hpath := s.wf.text_eq (.inl ((hdone rel).mp hrel).1) (.inl ⟨id, hd⟩) (heq.trans hname)
    exact hbelow (hpath ▸ List.prefix_append _ _)

/-- At the new path of a visible directory there is one; at `dst` itself it is the
directory that was renamed. -/
theorem showsDir_rename (henabled : (Op.rename cookie src dst).Enabled root s.tree)
    (hdir : s.tree.IsDir src.path) (hsrc : Visible root.path src.path)
    (hdst : Visible root.path dst.path) {d : Path × Nat} (hd : d ∈ s.tree.dirs)
    (hshown : Visible root.path d.1) :
    ShowsDir root (s.tree.rename src.path dst.path) (text (reroot src.path dst.path d.1)) := by
  have hmovable := henabled.movable
  by_cases hp : d.1 = dst.path
  · obtain ⟨id, hmem⟩ := hdir
    rw [hp, reroot_beside hmovable.notInto]
    have hmoved : (dst.path ++ [], id) ∈ (s.tree.rename src.path dst.path).dirs :=
      (Tree.mem_rename_dirs_below hmovable.notInto hmovable.childless).mpr
        (by rwa [List.append_nil])
    rw [List.append_nil] at hmoved
    exact ⟨_, hmoved, hdst, rfl⟩
  · exact ⟨(reroot src.path dst.path d.1, d.2),
      Tree.mem_rename_dirs.mpr ⟨d.1, hd, hp, rfl⟩, (visible_reroot hsrc hdst).mpr hshown, rfl⟩

/-- The descriptor of the directory that is replaced is that of none. -/
theorem stray_replaced {p q : Path} {id : Nat} (hmem : (q, id) ∈ s.tree.dirs) :
    Stray root (s.tree.rename p q) (id : Int) := by
  refine ⟨Int.ofNat_lt.mpr (s.wf.ids _ hmem).2, fun d hd _ heq => ?_⟩
  obtain ⟨old, hold, hne, -⟩ := Tree.mem_rename_dirs.mp hd
  have hid : id = d.2 := Int.ofNat_inj.mp heq
  exact hne (s.wf.path_unique hold (hid ▸ hmem))

/-- The files of a visible directory are on the storage before and after. -/
theorem alive_rename_shown (m : s.Mirror root)
    (hstep : s.step root (.rename cookie src dst) = some s') (hdir : s.tree.IsDir src.path)
    (hfollows : s.FollowsDir root src dst) (hsilent : s.Silent (.rename cookie src dst))
    (hvisible : Visible root.path src.path) : s'.inoti.faulted = false := by
  have henabled := (step_eq hstep).1
  have hmovable := henabled.movable
  have hwf : (s.tree.rename src.path dst.path).Wf := s.wf.apply henabled
  obtain ⟨hdst, -, hfits, -⟩ := hfollows.2.2.1 hvisible
  have hwalked := m.walked_shown hstep hdir hfollows hsilent hvisible
  refine (hwalked.faulted fun rel hrel => ?_).trans (retire_faulted.trans m.alive)
  obtain ⟨-, hshown⟩ := hmovable.sound_file_iff.mp ((mem_walk hwf hmovable hfits hdir _).mp hrel)
  exact ⟨root.known_text ((visible_append hvisible).mpr hshown),
    root.known_text ((visible_append hdst).mpr hshown)⟩

theorem step_rename_shown (m : s.Mirror root)
    (hstep : s.step root (.rename cookie src dst) = some s') (hdir : s.tree.IsDir src.path)
    (hfollows : s.FollowsDir root src dst) (hsilent : s.Silent (.rename cookie src dst))
    (hvisible : Visible root.path src.path) : s'.Mirror root := by
  obtain ⟨henabled, htree, -⟩ := step_eq hstep
  have htree : s'.tree = s.tree.rename src.path dst.path := htree
  obtain ⟨hrunning, hkernel, done, hdone, hwatches⟩ :=
    m.table_rename_shown hstep hdir hfollows hsilent hvisible
  have hdst := (hfollows.2.2.1 hvisible).1
  have hretitle : ∀ node : Watch, ∀ d ∈ s.tree.dirs, Visible root.path d.1 →
      node.name = text d.1 →
        retitle dst.path (fun rel => text (src.path ++ rel)) done node =
          ⟨text (reroot src.path dst.path d.1), node.wd⟩ :=
    fun node d hd hshown hname =>
      retitle_visible henabled hfollows hvisible hdone hd hshown hname
  have hshows : ∀ d ∈ s.tree.dirs, Visible root.path d.1 →
      ShowsDir root s'.tree (text (reroot src.path dst.path d.1)) :=
    fun d hd hshown => htree ▸ showsDir_rename henabled hdir hvisible hdst hd hshown
  have halive := m.alive_rename_shown hstep hdir hfollows hsilent hvisible
  refine
    { running := hrunning, alive := halive, rootDir := htree ▸ m.rootDir_rename henabled,
      kernel := fun wd hwd => ?_, live := fun d hd hshown => ?_,
      watched := fun d hd hshown => ?_, entries := fun node hnode => ?_ }
  · rw [hkernel] at hwd
    obtain ⟨d, hd, hne, rfl⟩ := m.kernel_retired rfl hwd
    rw [htree]
    exact ⟨(reroot src.path dst.path d.1, d.2), Tree.mem_rename_dirs.mpr ⟨d.1, hd, hne, rfl⟩, rfl⟩
  · rw [htree] at hd
    obtain ⟨p, hp, hne, heq⟩ := Tree.mem_rename_dirs.mp hd
    have hold : Visible root.path p := (visible_reroot hvisible hdst).mp (heq ▸ hshown)
    rw [hkernel]
    exact m.live_retired (d := (p, d.2)) rfl hp hne hold
  · rw [htree] at hd
    obtain ⟨p, hp, -, heq⟩ := Tree.mem_rename_dirs.mp hd
    have hold : Visible root.path p := (visible_reroot hvisible hdst).mp (heq ▸ hshown)
    rw [hwatches, ← heq, ← hretitle ⟨text p, d.2⟩ _ hp hold rfl]
    exact List.mem_map_of_mem (m.watched _ hp hold)
  · rw [hwatches] at hnode
    obtain ⟨old, hold, rfl⟩ := List.mem_map.mp hnode
    rcases m.entries old hold with ⟨d, hd, hshown, rfl⟩ | ⟨hstray, hnames⟩
    · rw [hretitle _ d hd hshown rfl]
      by_cases hp : d.1 = dst.path
      · have hmem : (dst.path, d.2) ∈ s.tree.dirs := hp ▸ hd
        exact .inr ⟨htree ▸ stray_replaced hmem, fun _ => hshows d hd hshown⟩
      · refine .inl ⟨(reroot src.path dst.path d.1, d.2), ?_,
          (visible_reroot hvisible hdst).mpr hshown, rfl⟩
        rw [htree]
        exact Tree.mem_rename_dirs.mpr ⟨d.1, hd, hp, rfl⟩
    · rw [retitle_wd]
      refine .inr ⟨htree ▸ stray_reroot hvisible hdst hstray, ?_⟩
      by_cases hname : ShowsDir root s.tree old.name
      · obtain ⟨d, hd, hshown, hname⟩ := hname
        rw [hretitle old d hd hshown hname]
        exact fun _ => hshows d hd hshown
      · rw [retitle_of_absent]
        · exact fun hunder => absurd (hnames hunder) hname
        · intro rel hrel heq
          obtain ⟨⟨id, hmem⟩, hrel⟩ := (hdone rel).mp hrel
          exact hname ⟨_, hmem, (visible_append hvisible).mpr hrel, heq.symm⟩

/-- The visible directories when a directory comes from a place that was not visible:
those from before, and what it brings. -/
theorem mem_dirs_arrived (henabled : (Op.rename cookie src dst).Enabled root s.tree)
    (hsrc : ¬ Visible root.path src.path) {d : Path × Nat} (hshown : Visible root.path d.1) :
    d ∈ (s.tree.rename src.path dst.path).dirs ↔
      (d ∈ s.tree.dirs ∧ d.1 ≠ dst.path) ∨
        ∃ rel, d.1 = dst.path ++ rel ∧ (src.path ++ rel, d.2) ∈ s.tree.dirs := by
  have hmovable := henabled.movable
  obtain ⟨-, -, -, -, -, -, hsrcRoot, -⟩ := henabled
  have hbeside : ¬ src.path <+: d.1 := by
    rintro ⟨rel, hrel⟩
    exact hsrc (Visible.above (hrel ▸ hshown) hsrcRoot)
  constructor
  · intro hd
    obtain ⟨p, hp, hne, heq⟩ := Tree.mem_rename_dirs.mp hd
    by_cases hbelow : src.path <+: p
    · obtain ⟨rel, rfl⟩ := hbelow
      rw [reroot_append] at heq
      exact .inr ⟨rel, heq.symm, hp⟩
    · rw [reroot_beside hbelow] at heq
      exact .inl ⟨by rwa [heq] at hp, heq ▸ hne⟩
  · rintro (⟨hd, hne⟩ | ⟨rel, heq, hmem⟩)
    · exact Tree.mem_rename_dirs.mpr ⟨d.1, hd, hne, reroot_beside hbeside⟩
    · have hmoved :=
        (Tree.mem_rename_dirs_below hmovable.notInto hmovable.childless).mpr hmem
      rwa [← heq] at hmoved

theorem walk_unknown (m : s.Mirror root)
    (henabled : (Op.rename cookie src dst).Enabled root s.tree)
    (hdst : Visible root.path dst.path) (hfree : ¬ s.tree.IsDir dst.path) {pathFrom : Text}
    (hjoins : ∀ rel, Shown rel → s.tree.Has (src.path ++ rel) → (appendAll pathFrom rel).isSome)
    (hmissed : ∀ d ∈ s.tree.dirs, Visible src.path d.1 →
      (∀ node ∈ s.inoti.watches.tail,
        appendAll pathFrom (d.1.drop src.path.length) ≠ some node.name) ∧
      ∀ d' ∈ s.tree.dirs, Visible src.path d'.1 →
        appendAll pathFrom (d.1.drop src.path.length) =
          some (text (reroot src.path dst.path d'.1)) → d.1 = d'.1) :
    Unknown (s.tree.rename src.path dst.path) dst.path
      (fun rel => (appendAll pathFrom rel).getD []) s.inoti.watches := by
  have hmovable := henabled.movable
  have hwf : (s.tree.rename src.path dst.path).Wf := s.wf.apply henabled
  have hpath : ∀ rel, (Visit.dir rel).Sound (s.tree.rename src.path dst.path) dst.path →
      appendAll pathFrom rel = some ((appendAll pathFrom rel).getD []) := by
    intro rel hsound
    obtain ⟨hdir, hrel⟩ := hmovable.sound_dir_iff.mp hsound
    obtain ⟨path, hpath⟩ := Option.isSome_iff_exists.mp (hjoins rel hrel (.inl hdir))
    rw [hpath, Option.getD_some]
  refine
    { absent := fun rel hsound node hnode hname => ?_, self := fun rel rel' hrel hrel' heq => ?_,
      fresh := fun rel hsound node hnode => ?_, nonempty := ?_ }
  · obtain ⟨⟨id, hmem⟩, hrel⟩ := hmovable.sound_dir_iff.mp hsound
    have habsent := (hmissed _ hmem ((visible_self rel).mpr hrel)).1 node hnode
    rw [List.drop_left, hpath rel hsound] at habsent
    exact habsent (congrArg some hname.symm)
  · obtain ⟨⟨id, hmem⟩, hshown⟩ := hmovable.sound_dir_iff.mp hrel
    obtain ⟨⟨id', hmem'⟩, hshown'⟩ := hmovable.sound_dir_iff.mp hrel'
    have hself := (hmissed _ hmem ((visible_self rel).mpr hshown)).2 _ hmem'
      ((visible_self rel').mpr hshown')
    rw [List.drop_left, reroot_append, hpath rel hrel] at hself
    exact List.append_cancel_left (hself (congrArg some heq))
  · refine m.name_ne_text (hwf.validName (.inl hsound.1)) ((visible_append hdst).mpr hsound.2) ?_
      hnode
    exact fun hdir => hfree (s.wf.isDir_of_append hdir)
  · obtain ⟨-, ⟨id, hdir⟩, -, -, -, -, -, hdstRoot⟩ := henabled
    have hparent := ((visible_concat hdstRoot).mp hdst).1
    exact List.ne_nil_of_mem (m.watched _ hdir hparent)

/-- The table after the walk of a directory that was not visible: what is visible in it
has been added. -/
theorem table_rename_arrived (m : s.Mirror root)
    (hstep : s.step root (.rename cookie src dst) = some s') (hdir : s.tree.IsDir src.path)
    (hfollows : s.FollowsDir root src dst) (hsrc : ¬ Visible root.path src.path)
    (hdst : Visible root.path dst.path) :
    s'.inoti.stopped = false ∧
      ∃ new, s'.inoti.watches = s.inoti.watches ++ new ∧
        (∀ wd, wd ∈ s'.inoti.kernel ↔ wd ∈ s.inoti.kernel ∨ ∃ node ∈ new, node.wd = wd) ∧
        ∀ node, node ∈ new ↔ ∃ rel id, Shown rel ∧ (src.path ++ rel, id) ∈ s.tree.dirs ∧
          node = ⟨text (dst.path ++ rel), id⟩ := by
  have henabled := (step_eq hstep).1
  have hmovable := henabled.movable
  have hwf : (s.tree.rename src.path dst.path).Wf := s.wf.apply henabled
  obtain ⟨hfree, hfits, ⟨pathFrom, hslot, hjoins, -, hmissed⟩, -⟩ := hfollows.2.2.2 hsrc hdst
  have hjoins' := joins_below hjoins
  have hwalk := mem_walk hwf hmovable hfits hdir
  obtain ⟨start, finish, hstart, -, -, hwalked, ⟨hw, hk, hs⟩, -⟩ :=
    m.walked_arrived hstep hdir hfollows hsrc hdst hslot hjoins'
  have hunknown := m.walk_unknown henabled hdst hfree hjoins' hmissed
  rw [← hstart.1] at hunknown
  obtain ⟨new, hwatches, hnew, hkernel, hstopped⟩ :=
    foldl_unknown hwf hunknown _ fun v hv => (hwalk v).mp hv
  rw [hwalked] at hwatches hkernel hstopped
  refine ⟨hs.trans (hstopped.trans (hstart.2.2.trans m.running)), new,
    hw.trans (hwatches.trans (by rw [hstart.1])), fun wd => ?_, fun node => ?_⟩
  · rw [hk, hkernel, hstart.2.1]
  · rw [hnew]
    constructor
    · rintro ⟨rel, id, hvisit, hmem, rfl⟩
      exact ⟨rel, id, ((hwalk _).mp hvisit).2,
        (Tree.mem_rename_dirs_below hmovable.notInto hmovable.childless).mp hmem, rfl⟩
    · rintro ⟨rel, id, hrel, hmem, rfl⟩
      refine ⟨rel, id, (hwalk _).mpr (hmovable.sound_dir_iff.mpr ⟨⟨id, hmem⟩, hrel⟩),
        (Tree.mem_rename_dirs_below hmovable.notInto hmovable.childless).mpr hmem, rfl⟩

/-- Those of one that comes in are taken to have been on one. -/
theorem alive_rename_arrived (m : s.Mirror root)
    (hstep : s.step root (.rename cookie src dst) = some s') (hdir : s.tree.IsDir src.path)
    (hfollows : s.FollowsDir root src dst) (hsrc : ¬ Visible root.path src.path)
    (hdst : Visible root.path dst.path) : s'.inoti.faulted = false := by
  have henabled := (step_eq hstep).1
  have hmovable := henabled.movable
  have hwf : (s.tree.rename src.path dst.path).Wf := s.wf.apply henabled
  obtain ⟨-, hfits, ⟨pathFrom, hslot, hjoins, hplaced, -⟩, -⟩ := hfollows.2.2.2 hsrc hdst
  have hjoins' := joins_below hjoins
  have hwalked := m.walked_arrived hstep hdir hfollows hsrc hdst hslot hjoins'
  refine (hwalked.faulted fun rel hrel => ?_).trans m.alive
  obtain ⟨hmem, hshown⟩ :=
    hmovable.sound_file_iff.mp ((mem_walk hwf hmovable hfits hdir _).mp hrel)
  refine ⟨?_, root.known_text ((visible_append hdst).mpr hshown)⟩
  obtain ⟨path, hpath⟩ := Option.isSome_iff_exists.mp (hjoins' rel hshown (.inr hmem))
  have hknown := hplaced _ hmem ((visible_self rel).mpr hshown)
  rw [List.drop_left] at hknown
  rw [hpath, Option.getD_some]
  exact hknown path hpath

theorem step_rename_arrived (m : s.Mirror root)
    (hstep : s.step root (.rename cookie src dst) = some s') (hdir : s.tree.IsDir src.path)
    (hfollows : s.FollowsDir root src dst) (hsrc : ¬ Visible root.path src.path)
    (hdst : Visible root.path dst.path) : s'.Mirror root := by
  obtain ⟨henabled, htree, -⟩ := step_eq hstep
  have htree : s'.tree = s.tree.rename src.path dst.path := htree
  obtain ⟨hfree, -, -, hunlisted⟩ := hfollows.2.2.2 hsrc hdst
  obtain ⟨hrunning, new, hwatches, hkernel, hadded⟩ :=
    m.table_rename_arrived hstep hdir hfollows hsrc hdst
  have hmem : ∀ d : Path × Nat, Visible root.path d.1 → (d ∈ s'.tree.dirs ↔ d ∈ s.tree.dirs ∨
      ∃ rel, d.1 = dst.path ++ rel ∧ (src.path ++ rel, d.2) ∈ s.tree.dirs) := by
    intro d hshown
    rw [htree, mem_dirs_arrived henabled hsrc hshown]
    refine or_congr_left ⟨And.left, fun hd => ⟨hd, fun heq => hfree ⟨d.2, ?_⟩⟩⟩
    exact heq ▸ hd
  have halive := m.alive_rename_arrived hstep hdir hfollows hsrc hdst
  refine
    { running := hrunning, alive := halive, rootDir := htree ▸ m.rootDir_rename henabled,
      kernel := fun wd hwd => ?_, live := fun d hd hshown => ?_,
      watched := fun d hd hshown => ?_, entries := fun node hnode => ?_ }
  · rcases (hkernel wd).mp hwd with hwd | ⟨node, hnode, rfl⟩
    · obtain ⟨d, hd, rfl⟩ := m.kernel wd hwd
      have hne : d.1 ≠ dst.path := fun heq => hfree ⟨d.2, heq ▸ hd⟩
      rw [htree]
      exact ⟨(reroot src.path dst.path d.1, d.2),
        Tree.mem_rename_dirs.mpr ⟨d.1, hd, hne, rfl⟩, rfl⟩
    · obtain ⟨rel, id, hrel, hdirs, rfl⟩ := (hadded node).mp hnode
      have hshown := (visible_append hdst).mpr hrel
      exact ⟨(dst.path ++ rel, id), (hmem _ hshown).mpr (.inr ⟨rel, rfl, hdirs⟩), rfl⟩
  · refine (hkernel _).mpr ?_
    rcases (hmem d hshown).mp hd with hd | ⟨rel, heq, hdirs⟩
    · exact .inl (m.live d hd hshown)
    · have hrel := (visible_append hdst).mp (heq ▸ hshown)
      exact .inr ⟨_, (hadded _).mpr ⟨rel, d.2, hrel, hdirs, rfl⟩, rfl⟩
  · rw [hwatches]
    rcases (hmem d hshown).mp hd with hd | ⟨rel, heq, hdirs⟩
    · exact List.mem_append_left _ (m.watched d hd hshown)
    · have hrel := (visible_append hdst).mp (heq ▸ hshown)
      exact List.mem_append_right _ ((hadded _).mpr ⟨rel, d.2, hrel, hdirs, by rw [heq]⟩)
  · rw [hwatches] at hnode
    rcases List.mem_append.mp hnode with hnode | hnode
    · refine m.entries_kept (fun d hd hshown => (hmem d hshown).mpr (.inl hd)) hnode ?_
      rintro ⟨hlt, hstray⟩
      refine ⟨by rw [htree]; exact hlt, fun d hd hshown => ?_⟩
      rcases (hmem d hshown).mp hd with hd | ⟨rel, heq, hdirs⟩
      · exact hstray d hd hshown
      · have hrel := (visible_append hdst).mp (heq ▸ hshown)
        exact hunlisted _ hdirs ((visible_self rel).mpr hrel) node hnode
    · obtain ⟨rel, id, hrel, hdirs, rfl⟩ := (hadded node).mp hnode
      have hshown := (visible_append hdst).mpr hrel
      exact .inl ⟨(dst.path ++ rel, id), (hmem _ hshown).mpr (.inr ⟨rel, rfl, hdirs⟩), hshown, rfl⟩

theorem step_rename_hidden (m : s.Mirror root)
    (hstep : s.step root (.rename cookie src dst) = some s')
    (hfollows : s.FollowsDir root src dst) (hsilent : s.Silent (.rename cookie src dst))
    (hsrc : ¬ Visible root.path src.path) (hdst : ¬ Visible root.path dst.path) :
    s'.Mirror root := by
  obtain ⟨henabled, htree, -⟩ := step_eq hstep
  have htree : s'.tree = s.tree.rename src.path dst.path := htree
  have hrunning : (s.retire (.rename cookie src dst)).1.stopped = false :=
    retire_stopped.trans m.running
  have hinoti := step_inoti hstep hsilent
  rw [foldl_rename_hidden henabled hfollows.1.2 hfollows.2.1.2 rfl hrunning hsrc hdst] at hinoti
  have hmem : ∀ d : Path × Nat, Visible root.path d.1 →
      (d ∈ s'.tree.dirs ↔ d ∈ s.tree.dirs ∧ d.1 ≠ dst.path) := by
    intro d hshown
    rw [htree, mem_dirs_arrived henabled hsrc hshown, or_iff_left]
    rintro ⟨rel, heq, -⟩
    exact hdst (Visible.above (heq ▸ hshown) henabled.2.2.2.2.2.2.2)
  have hkept : ∀ d ∈ s.tree.dirs, Visible root.path d.1 → d ∈ s'.tree.dirs := by
    intro d hd hshown
    refine (hmem d hshown).mpr ⟨hd, ?_⟩
    rintro heq
    exact hdst (heq ▸ hshown)
  refine
    { running := hinoti ▸ hrunning, alive := hinoti ▸ retire_faulted.trans m.alive,
      rootDir := htree ▸ m.rootDir_rename henabled, kernel := fun wd hwd => ?_,
      live := fun d hd hshown => ?_, watched := fun d hd hshown => ?_,
      entries := fun node hnode => ?_ }
  · rw [hinoti] at hwd
    obtain ⟨d, hd, hne, rfl⟩ := m.kernel_retired rfl hwd
    rw [htree]
    exact ⟨(reroot src.path dst.path d.1, d.2), Tree.mem_rename_dirs.mpr ⟨d.1, hd, hne, rfl⟩, rfl⟩
  · obtain ⟨hd, hne⟩ := (hmem d hshown).mp hd
    rw [hinoti]
    exact m.live_retired rfl hd hne hshown
  · rw [hinoti, retire_watches]
    exact m.watched d ((hmem d hshown).mp hd).1 hshown
  · rw [hinoti, retire_watches] at hnode
    refine m.entries_kept hkept hnode ?_
    rintro ⟨hlt, hstray⟩
    exact ⟨by rw [htree]; exact hlt,
      fun d hd hshown => hstray d ((hmem d hshown).mp hd).1 hshown⟩

/-- The thread keeps the table in step with an operation that it can follow. -/
theorem step (m : s.Mirror root) (htracks : s.Tracks root op) (hstep : s.step root op = some s') :
    s'.Mirror root := by
  cases op with
  | write place => exact m.step_write hstep htracks
  | unlink place => exact m.step_unlink hstep htracks
  | mkdir place => exact m.step_mkdir hstep htracks
  | rmdir place => exact m.step_rmdir hstep htracks.1 htracks.2.1 htracks.2.2
  | rename cookie src dst =>
      rw [Tracks] at htracks
      split at htracks
      next hdir =>
        obtain ⟨hfollows, hsilent⟩ := htracks
        by_cases hsrc : Visible root.path src.path
        · exact m.step_rename_shown hstep hdir hfollows hsilent hsrc
        · by_cases hdst : Visible root.path dst.path
          · exact m.step_rename_arrived hstep hdir hfollows hsrc hdst
          · exact m.step_rename_hidden hstep hfollows hsilent hsrc hdst
      next hfile => exact m.step_rename_file hstep hfile htracks.1 htracks.2

end Sys.Mirror

def media : Root where
  path := ["opt".toList, "media".toList]
  known := by decide

/-- Where the ends of file operations are announced. -/
def notiPath : Path := ["opt".toList, "data".toList, "file-manager-service".toList]

/-- `/opt/media/a` with a file `f` in it, as the server has found them; `main` has watched
the directory for the announcements first. -/
def album : Sys where
  tree :=
    { dirs :=
        [([], 1), (["opt".toList], 2), (["opt".toList, "data".toList], 3), (notiPath, 4),
          (media.path, 5), (media.path ++ ["a".toList], 6)]
      files := [media.path ++ ["a".toList, "f".toList]]
      nextId := 7 }
  inoti :=
    { watches :=
        [⟨msDbUpdateNotiPath, 4⟩, ⟨"/opt/media".toList, 5⟩, ⟨"/opt/media/a".toList, 6⟩]
      kernel := [4, 5, 6]
      db := ["/opt/media/a/f".toList] }
  wf :=
    { dirsNodup := by decide, idsNodup := by decide, ids := by decide, disjoint := by decide,
      dirNames := by decide, fileNames := by decide, dirParent := by decide,
      fileParent := by decide }

theorem album_mirror : album.Mirror media where
  running := rfl
  alive := rfl
  rootDir := by decide
  kernel := by decide
  live := by decide
  watched := by decide
  entries := by decide

end MediaServer.Inotify
