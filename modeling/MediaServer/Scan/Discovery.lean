import Mathlib.Data.List.Nodup
import MediaServer.Inotify.Thread
import MediaServer.Scan.NodeTree

/-!
# Which directories the walks discover

Undisturbed, both walks end, and they record the directories that they take up: those
for which the path that `ms_strappend` builds can be opened. On a tree whose paths fit
the buffers these are the directories that nothing hides, but for one case. The test
`d_type & DT_DIR` lets sockets and block devices through, and the path of such an
entry may be cut off to that of a directory.
-/

namespace MediaServer.Scan

open Polling

/-- `_ms_dir_check`. -/
def Walker.msDirCheck (stops : Nat → Test → Bool) (fs : FileSystem) (root : Text) (fuel : Nat) :
    Option (Walker (List Text)) :=
  walkTree stops fs msScanAddNode root [] fuel

/-- `ms_inoti_add_watch_all_directory`. -/
def Walker.msInotiAddWatchAllDirectory (stops : Nat → Test → Bool) (w : Inotify.World)
    (root : Text) (s : Inotify.Inoti) (fuel : Nat) : Option (Walker Inotify.Inoti) :=
  walkTree stops w.fs (fun s path => s.addWatch w path) root s fuel

/-- The root, and the directories that neither their own name nor that of a directory
above them hides. -/
inductive VisibleDir (fs : FileSystem) (root : Text) : Text → Prop where
  | root : VisibleDir fs root root
  | sub {path : Text} {e : Dirent} : VisibleDir fs root path → e ∈ fs.entries path →
      ¬ e.hidden → e.dType = dtDir → VisibleDir fs root (path ++ '/' :: e.name)

/-- These directories can be opened and have paths that the buffers hold whole. A
socket or a block device cannot be opened as a directory. -/
structure Browsable (fs : FileSystem) (root : Text) : Prop where
  opens : ∀ path, VisibleDir fs root path → fs.opens path
  fits : ∀ path, VisibleDir fs root path → path.length ≤ msFilePathLenMax - 2
  only : ∀ path, VisibleDir fs root path → ∀ e ∈ fs.entries path, e.isDir → e.dType ≠ dtDir →
    ¬ fs.opens (path ++ '/' :: e.name)

/-- Exactly the visible directories, each once, and the depth of each call is the
number of ancestors. -/
structure Complete (fs : FileSystem) (root : Text) (found : List Text)
    (calls : List (Int × Nat)) : Prop where
  exact : ∀ path, path ∈ found ↔ VisibleDir fs root path
  once : found.Nodup
  depths : ∀ c ∈ calls, c.1 = c.2

/-- The walk ends, and then `P` holds. -/
def EndsWith {ρ : Type} (walk : Nat → Option ρ) (P : ρ → Prop) : Prop :=
  ∃ enough, ∀ fuel ≥ enough, ∃ r, walk fuel = some r ∧ P r

/-- `_ms_dir_check` ends with a complete list. -/
def DirCheckComplete (fs : FileSystem) (root : Text) : Prop :=
  EndsWith (Walker.msDirCheck (fun _ _ => false) fs root) fun r =>
    Complete fs root r.recorded r.calls

/-- `ms_inoti_add_watch_all_directory` ends with a complete list of new watches. -/
def AddWatchComplete (w : Inotify.World) (root : Text) (s : Inotify.Inoti) : Prop :=
  EndsWith (Walker.msInotiAddWatchAllDirectory (fun _ _ => false) w root s) fun r =>
    ∃ added, r.recorded.watches = s.watches ++ added ∧
      Complete w.fs root (added.map Inotify.Watch.name) r.calls

/-- A socket or a block device in a visible directory whose path is cut off to one
that can be opened. -/
def Decoy (fs : FileSystem) (root path : Text) (e : Dirent) : Prop :=
  VisibleDir fs root path ∧ e ∈ fs.entries path ∧ ¬ e.hidden ∧ e.isDir ∧ e.dType ≠ dtDir ∧
    ∃ getPath, msStrappend path e.name = some getPath ∧ fs.opens getPath

/-- The directories that the walks take up. -/
inductive TakenUp (fs : FileSystem) (root : Text) : Text → Prop where
  | root : TakenUp fs root root
  | sub {path : Text} {d : Text × Text} : TakenUp fs root path →
      d ∈ selected fs (subdirectory fs path) path → TakenUp fs root (joined d)

section Outputs

variable {fs : FileSystem} {root path : Text} {depth : Nat} {d : Text × Text}

theorem outputs_walkActions (depth : Nat) (path : Text) :
    outputs (walkActions fs (depth + 1) path) =
      selected fs (subdirectory fs path) path ++
        (selected fs (subdirectory fs path) path).flatMap
          fun d => outputs (walkActions fs depth (joined d)) := by
  have hflat : ∀ ds : List (Text × Text),
      outputs (ds.flatMap fun d => walkActions fs depth (joined d)) =
        ds.flatMap fun d => outputs (walkActions fs depth (joined d)) := by
    intro ds
    induction ds with
    | nil => rfl
    | cons d ds ih => rw [List.flatMap_cons, outputs_append, ih, List.flatMap_cons]
  rw [walkActions, outputs_append, outputs_dirActions, hflat]

theorem takenUp_of_mem_outputs (hpath : TakenUp fs root path)
    (h : d ∈ outputs (walkActions fs depth path)) : TakenUp fs root (joined d) := by
  induction depth generalizing path with
  | zero => cases h
  | succ depth ih =>
      rw [outputs_walkActions] at h
      cases List.mem_append.mp h with
      | inl h => exact .sub hpath h
      | inr h =>
          obtain ⟨c, hc, hd⟩ := List.mem_flatMap.mp h
          exact ih (.sub hpath hc) hd

/-- A subdirectory of what comes up in a walk comes up too. -/
theorem mem_outputs_of_selected (hdepth : msFilePathLenMax < path.length + depth) {q : Text}
    (hq : q = path ∨ q ∈ (outputs (walkActions fs depth path)).map joined)
    (hd : d ∈ selected fs (subdirectory fs q) q) :
    joined d ∈ (outputs (walkActions fs depth path)).map joined := by
  induction depth generalizing path with
  | zero =>
      rcases hq with rfl | hq
      · obtain ⟨getPath, happend⟩ := Option.isSome_iff_exists.mp (eq_of_mem_subdirectories hd).2
        have hlength := length_le_of_msStrappend happend
        exact absurd hlength (by omega)
      · cases hq
  | succ depth ih =>
      rw [outputs_walkActions, List.map_append, List.map_flatMap] at hq ⊢
      rcases hq with rfl | hq
      · exact List.mem_append_left _ (List.mem_map_of_mem hd)
      · have hbelow : ∀ c ∈ selected fs (subdirectory fs path) path,
            msFilePathLenMax < (joined c).length + depth := by
          intro c hc
          rw [joined, (eq_of_mem_subdirectories hc).1, List.length_append, List.length_cons]
          omega
        refine List.mem_append_right _ (List.mem_flatMap.mpr ?_)
        cases List.mem_append.mp hq with
        | inl hq =>
            obtain ⟨c, hc, rfl⟩ := List.mem_map.mp hq
            exact ⟨c, hc, ih (hbelow c hc) (.inl rfl)⟩
        | inr hq =>
            obtain ⟨c, hc, hq⟩ := List.mem_flatMap.mp hq
            exact ⟨c, hc, ih (hbelow c hc) (.inr hq)⟩

/-- The walk puts out what it takes up. -/
theorem takenUp_iff {p : Text} :
    TakenUp fs root p ↔
      p = root ∨ p ∈ (outputs (walkActions fs (msFilePathLenMax + 1) root)).map joined := by
  constructor
  · intro h
    induction h with
    | root => exact .inl rfl
    | sub _ hd ih => exact .inr (mem_outputs_of_selected (by omega) ih hd)
  · rintro (rfl | hp)
    · exact .root
    · obtain ⟨d, hd, rfl⟩ := List.mem_map.mp hp
      exact takenUp_of_mem_outputs .root hd

end Outputs

theorem mem_msScanAddNode {nodes : List Text} {path p : Text} :
    p ∈ msScanAddNode nodes path ↔ p ∈ nodes ∨ p = path := by
  rw [msScanAddNode]
  split
  next hmem => exact ⟨.inl, fun h => h.elim id fun heq => heq ▸ hmem⟩
  next => rw [List.mem_append, List.mem_singleton]

theorem nodup_msScanAddNode {nodes : List Text} (h : nodes.Nodup) (path : Text) :
    (msScanAddNode nodes path).Nodup := by
  rw [msScanAddNode]
  split
  next => exact h
  next hnot => exact List.Nodup.append h (List.nodup_singleton path) (by simpa using hnot)

theorem foldl_msScanAddNode (paths : List Text) {nodes : List Text} (h : nodes.Nodup) :
    (paths.foldl msScanAddNode nodes).Nodup ∧
      ∀ p, p ∈ paths.foldl msScanAddNode nodes ↔ p ∈ nodes ∨ p ∈ paths := by
  induction paths generalizing nodes with
  | nil => exact ⟨h, by simp⟩
  | cons path paths ih =>
      obtain ⟨hnodup, hmem⟩ := ih (nodup_msScanAddNode h path)
      refine ⟨hnodup, fun p => ?_⟩
      rw [List.foldl_cons, hmem, mem_msScanAddNode, List.mem_cons, or_assoc]

/-- What follows on a walk that ends does so too. -/
theorem EndsWith.bind {ρ ρ' : Type} {walk : Nat → Option ρ} {walk' : Nat → Option ρ'}
    {P : ρ → Prop} {Q : ρ' → Prop} (h : EndsWith walk P)
    (hnext : ∀ fuel r, walk fuel = some r → P r → ∃ r', walk' fuel = some r' ∧ Q r') :
    EndsWith walk' Q := by
  obtain ⟨enough, henough⟩ := h
  refine ⟨enough, fun fuel hfuel => ?_⟩
  obtain ⟨r, hr, hp⟩ := henough fuel hfuel
  exact hnext fuel r hr hp

theorem EndsWith.mono {ρ : Type} {walk : Nat → Option ρ} {P Q : ρ → Prop} (h : EndsWith walk P)
    (hPQ : ∀ r, P r → Q r) : EndsWith walk Q :=
  h.bind fun _ r hr hp => ⟨r, hr, hPQ r hp⟩

/-- What is known of a walk decides what it ends with. -/
theorem EndsWith.iff {ρ : Type} {walk : Nat → Option ρ} {P Q : ρ → Prop} {C : Prop}
    (ends : EndsWith walk Q) (hQ : ∀ r, Q r → (P r ↔ C)) : EndsWith walk P ↔ C := by
  constructor
  · rintro ⟨other, hother⟩
    obtain ⟨enough, henough⟩ := ends
    obtain ⟨r, hr, hq⟩ := henough (max enough other) (Nat.le_max_left _ _)
    obtain ⟨r', hr', hp⟩ := hother (max enough other) (Nat.le_max_right _ _)
    obtain rfl := Option.some.inj (hr.symm.trans hr')
    exact (hQ r hq).mp hp
  · intro hc
    exact ends.mono fun r hq => (hQ r hq).mpr hc

section Walks

variable {fs : FileSystem} {w : Inotify.World} {s : Inotify.Inoti} {root : Text}

/-- A list of what is taken up, once. -/
def Lists (fs : FileSystem) (root : Text) (l : List Text) : Prop :=
  l.Nodup ∧ ∀ p, p ∈ l ↔ TakenUp fs root p

/-- Undisturbed, the walk along the frames lists what is taken up. -/
theorem msDirCheck_ends (fs : FileSystem) (hroot : root.length ≤ msFilePathLenMax) :
    EndsWith (msDirCheck (fun _ _ => false) fs root) (Lists fs root) := by
  obtain ⟨enough, henough⟩ := msDirCheck_eq (fun _ _ => false) fs hroot
  obtain ⟨hnodup, hmem⟩ := foldl_msScanAddNode
    ((outputs (walkActions fs (msFilePathLenMax + 1) root)).map joined) (List.nodup_singleton root)
  refine ⟨enough, fun fuel hfuel => ⟨_, henough fuel hfuel, ?_, fun p => ?_⟩⟩
  · rw [emitted_of_never]
    exact hnodup
  · rw [emitted_of_never, hmem, takenUp_iff, List.mem_singleton]

/-- A walk along the nodes ends when that along the frames does, with records that match
its list. -/
theorem EndsWith.walkTree {σ : Type} {record : σ → Text → σ} {Rel : σ → List Text → Prop}
    {stops : Nat → Test → Bool} {Q : List Text → Prop}
    (h : EndsWith (msDirCheck stops fs root) Q)
    (hrecord : ∀ s l p, Under root p → Rel s l → Rel (record s p) (msScanAddNode l p))
    {recorded : σ} (hstart : Rel recorded []) :
    EndsWith (walkTree stops fs record root recorded) fun r =>
      (∃ l, Rel r.recorded l ∧ Q l) ∧ ∀ c ∈ r.calls, c.1 = c.2 := by
  refine h.bind fun fuel l hl hq => ?_
  obtain ⟨r, hr, hrel, hcalls⟩ := walkTree_of_msDirCheck hrecord hstart hl
  exact ⟨r, hr, ⟨l, hrel, hq⟩, hcalls⟩

/-- The walk along the nodes has the list of the walk along the frames. -/
theorem Walker.msDirCheck_of_msDirCheck {stops : Nat → Test → Bool} {fuel : Nat} {l : List Text}
    (h : Scan.msDirCheck stops fs root fuel = some l) :
    ∃ walker, Walker.msDirCheck stops fs root fuel = some walker ∧ walker.recorded = l ∧
      ∀ c ∈ walker.calls, c.1 = c.2 :=
  walkTree_of_msDirCheck (fun _ _ _ _ heq => by rw [heq]) rfl h

/-- Undisturbed, it lists what is taken up. -/
theorem Walker.msDirCheck_ends (fs : FileSystem) (hroot : root.length ≤ msFilePathLenMax) :
    EndsWith (Walker.msDirCheck (fun _ _ => false) fs root) fun walker =>
      Lists fs root walker.recorded ∧ ∀ c ∈ walker.calls, c.1 = c.2 := by
  refine (Scan.msDirCheck_ends fs hroot).bind fun fuel l hl hlists => ?_
  obtain ⟨walker, hwalker, rfl, hcalls⟩ := Walker.msDirCheck_of_msDirCheck hl
  exact ⟨walker, hwalker, hlists, hcalls⟩

theorem Lists.complete_iff {l : List Text} {calls : List (Int × Nat)} (h : Lists fs root l)
    (hcalls : ∀ c ∈ calls, c.1 = c.2) :
    Complete fs root l calls ↔ ∀ p, TakenUp fs root p ↔ VisibleDir fs root p := by
  constructor
  · intro hcomplete p
    rw [← h.2, hcomplete.exact]
  · intro hiff
    exact ⟨fun p => by rw [h.2, hiff], h.1, hcalls⟩

theorem dirCheckComplete_iff (hroot : root.length ≤ msFilePathLenMax) :
    DirCheckComplete fs root ↔ ∀ p, TakenUp fs root p ↔ VisibleDir fs root p := by
  refine EndsWith.iff (Walker.msDirCheck_ends fs hroot) ?_
  rintro walker ⟨hlists, hcalls⟩
  exact hlists.complete_iff hcalls

/-- The new watches are those of a scan list. -/
def Watches (w : Inotify.World) (s t : Inotify.Inoti) (l : List Text) : Prop :=
  t.watches = s.watches ++ l.map fun path => ⟨path, w.inotifyAddWatch path⟩

/-- `ms_inoti_add_watch_with_node` looks for the path as `_ms_scan_add_node` does. -/
theorem addWatch_watches (hwatch : ∀ path, 0 < w.inotifyAddWatch path)
    (hnone : ∀ node ∈ s.watches, ¬ Under root node.name) {t : Inotify.Inoti} {l : List Text}
    {path : Text} (hpath : Under root path) (h : Watches w s t l) :
    Watches w s (t.addWatch w path) (msScanAddNode l path) := by
  have hfound : (∃ node ∈ t.watches, node.name = path) ↔ path ∈ l := by
    rw [h]
    constructor
    · rintro ⟨node, hnode, rfl⟩
      cases List.mem_append.mp hnode with
      | inl hold => exact absurd hpath (hnone node hold)
      | inr hnew =>
          obtain ⟨p, hp, rfl⟩ := List.mem_map.mp hnew
          exact hp
    · intro hmem
      exact ⟨_, List.mem_append_right _ (List.mem_map_of_mem hmem), rfl⟩
  rw [Inotify.Inoti.addWatch, msScanAddNode]
  simp only [hfound]
  split
  · exact h
  · rw [if_pos (hwatch path), Watches, List.map_append, ← List.append_assoc, ← h]
    rfl

theorem addWatchComplete_iff (hwatch : ∀ path, 0 < w.inotifyAddWatch path)
    (hnone : ∀ node ∈ s.watches, ¬ Under root node.name)
    (hroot : root.length ≤ msFilePathLenMax) :
    AddWatchComplete w root s ↔ ∀ p, TakenUp w.fs root p ↔ VisibleDir w.fs root p := by
  have hrecord : ∀ t l p, Under root p → Watches w s t l →
      Watches w s (t.addWatch w p) (msScanAddNode l p) :=
    fun t l p hp h => addWatch_watches hwatch hnone hp h
  refine EndsWith.iff ((msDirCheck_ends w.fs hroot).walkTree hrecord
    (List.append_nil s.watches).symm) ?_
  rintro r ⟨⟨l, hrel, hlists⟩, hcalls⟩
  have hnames : (l.map fun path => (⟨path, w.inotifyAddWatch path⟩ : Inotify.Watch)).map
      Inotify.Watch.name = l := by
    rw [List.map_map]
    exact List.map_id l
  rw [← hlists.complete_iff hcalls]
  constructor
  · rintro ⟨added, hadded, hcomplete⟩
    obtain rfl := List.append_cancel_left (hadded.symm.trans hrel)
    rwa [hnames] at hcomplete
  · intro hcomplete
    exact ⟨_, hrel, by rwa [hnames]⟩

theorem mem_subdirectories {path : Text} (hopens : fs.opens path) {d : Text × Text} :
    d ∈ selected fs (subdirectory fs path) path ↔
      ∃ e ∈ fs.entries path, ¬ e.hidden ∧ e.isDir ∧
        (∃ getPath, msStrappend path e.name = some getPath ∧ fs.opens getPath) ∧
          d = (path, e.name) := by
  have hsub : ∀ e, subdirectory fs path e = some d ↔ e.isDir ∧
      (∃ getPath, msStrappend path e.name = some getPath ∧ fs.opens getPath) ∧
        d = (path, e.name) := by
    intro e
    rw [subdirectory]
    cases e.isDir with
    | false => simp
    | true =>
        cases msStrappend path e.name with
        | none => simp
        | some getPath => simpa using fun _ => eq_comm
  rw [selected, FileSystem.opendir, if_pos hopens]
  simp only [List.mem_filterMap, List.mem_filter, decide_eq_true_eq, hsub, and_assoc]

/-- What is taken up is visible, and the other way round, unless there is a decoy. -/
theorem takenUp_iff_visible (h : Browsable fs root) :
    (∀ p, TakenUp fs root p ↔ VisibleDir fs root p) ↔ ∀ path e, ¬ Decoy fs root path e := by
  constructor
  · rintro hiff path e ⟨hpath, he, hhidden, hdir, htype, happend⟩
    have hselected := (mem_subdirectories (h.opens path hpath)).mpr
      ⟨e, he, hhidden, hdir, happend, rfl⟩
    have hvisible := (hiff _).mp (.sub ((hiff path).mpr hpath) hselected)
    exact h.only path hpath e he hdir htype (h.opens _ hvisible)
  · intro hnone p
    constructor
    · intro htaken
      induction htaken with
      | root => exact .root
      | @sub path d _ hd ih =>
          obtain ⟨e, he, hhidden, hdir, happend, rfl⟩ :=
            (mem_subdirectories (h.opens path ih)).mp hd
          by_cases htype : e.dType = dtDir
          · exact .sub ih he hhidden htype
          · exact absurd ⟨ih, he, hhidden, hdir, htype, happend⟩ (hnone path e)
    · intro hvisible
      induction hvisible with
      | root => exact .root
      | @sub path e hpath he hhidden htype ih =>
          have hsub : VisibleDir fs root (path ++ '/' :: e.name) := .sub hpath he hhidden htype
          have happend := msStrappend_whole (h.fits _ hsub)
          have hdir : e.isDir := by
            rw [Dirent.isDir, htype]
            rfl
          exact .sub ih ((mem_subdirectories (h.opens path hpath)).mpr
            ⟨e, he, hhidden, hdir, ⟨_, happend, h.opens _ hsub⟩, rfl⟩)

/-- The path of a decoy has one or two bytes more than the buffers hold. -/
theorem Decoy.length {path : Text} {e : Dirent} (h : Browsable fs root)
    (hdecoy : Decoy fs root path e) :
    msFilePathLenMax - 2 < (path ++ '/' :: e.name).length ∧
      (path ++ '/' :: e.name).length ≤ msFilePathLenMax := by
  obtain ⟨hpath, he, -, hdir, htype, getPath, happend, hopens⟩ := hdecoy
  constructor
  · by_contra hshort
    rw [msStrappend] at happend
    split at happend
    next =>
      rw [List.take_of_length_le (Nat.le_of_not_lt hshort)] at happend
      obtain rfl := Option.some.inj happend
      exact h.only path hpath e he hdir htype hopens
    next => cases happend
  · have hlength := length_le_of_msStrappend happend
    rw [List.length_append, List.length_cons]
    omega

theorem walks_complete_iff (h : Browsable w.fs root)
    (hwatch : ∀ path, 0 < w.inotifyAddWatch path)
    (hnone : ∀ node ∈ s.watches, ¬ Under root node.name) :
    (DirCheckComplete w.fs root ∧ AddWatchComplete w root s) ↔
      ∀ path e, ¬ Decoy w.fs root path e := by
  have hroot : root.length ≤ msFilePathLenMax := Nat.le_trans (h.fits root .root) (Nat.sub_le _ _)
  rw [dirCheckComplete_iff hroot, addWatchComplete_iff hwatch hnone hroot, and_self,
    takenUp_iff_visible h]

end Walks

/-- On a tree that does not change, both walks end and record the visible directories,
each once and under its path, exactly when there is no decoy. -/
theorem discovery_complete_iff (w : Inotify.World) (root : Text) (s : Inotify.Inoti)
    (browsable : Browsable w.fs root) (watches : ∀ path, 0 < w.inotifyAddWatch path)
    (none : ∀ node ∈ s.watches, ¬ Under root node.name) :
    (DirCheckComplete w.fs root ∧ AddWatchComplete w root s) ↔
      ∀ path e, ¬ Decoy w.fs root path e :=
  walks_complete_iff browsable watches none

/-- The storage holds a directory with a file in it, and a hidden directory. -/
def smallTree : Inotify.World where
  fs :=
    { entries := fun path =>
        if path = msRootPathInternal then [⟨"a".toList, dtDir⟩, ⟨".b".toList, dtDir⟩]
        else if path = msRootPathInternal ++ "/a".toList then [⟨"c.mp3".toList, dtReg⟩]
        else []
      opens := fun path => path ≠ msRootPathInternal ++ "/a/c.mp3".toList }
  inotifyAddWatch := fun _ => 1

theorem visibleDir_smallTree {path : Text} (h : VisibleDir smallTree.fs msRootPathInternal path) :
    path = msRootPathInternal ∨ path = msRootPathInternal ++ "/a".toList := by
  have hne : msRootPathInternal ++ "/a".toList ≠ msRootPathInternal := by decide
  induction h with
  | root => exact .inl rfl
  | @sub path e _ he hhidden htype ih =>
      rw [smallTree] at he
      simp only at he
      rcases ih with rfl | rfl
      · rw [if_pos rfl] at he
        rcases List.mem_cons.mp he with rfl | he
        · exact .inr rfl
        · rw [List.mem_singleton.mp he] at hhidden
          exact absurd (by decide) hhidden
      · rw [if_neg hne, if_pos rfl] at he
        rw [List.mem_singleton.mp he] at htype
        cases htype

/-- Every entry with the bit of a directory is one. -/
theorem dType_smallTree {path : Text} {e : Dirent} (he : e ∈ smallTree.fs.entries path)
    (hdir : e.isDir) : e.dType = dtDir := by
  rw [smallTree] at he
  simp only at he
  split at he
  · rcases List.mem_cons.mp he with rfl | he
    · rfl
    · rw [List.mem_singleton.mp he]
  · split at he
    · rw [List.mem_singleton.mp he] at hdir
      cases hdir
    · cases he

theorem discovery_complete_smallTree :
    DirCheckComplete smallTree.fs msRootPathInternal ∧
      AddWatchComplete smallTree msRootPathInternal {} := by
  refine (discovery_complete_iff smallTree msRootPathInternal {} ⟨?_, ?_, ?_⟩ ?_ nofun).mpr ?_
  · intro path hpath
    rcases visibleDir_smallTree hpath with rfl | rfl <;> decide
  · intro path hpath
    rcases visibleDir_smallTree hpath with rfl | rfl <;> decide
  · intro path _ e he hdir htype
    exact absurd (dType_smallTree he hdir) htype
  · exact fun _ => Int.zero_lt_one
  · rintro path e ⟨-, he, -, hdir, htype, -⟩
    exact htype (dType_smallTree he hdir)

/-- Directories in each other down to a path of 4090 bytes, which holds the directory
`abc` and the socket `abcd`. -/
def deepTree : Inotify.World where
  fs :=
    { entries := fun path =>
        if path.length < 4090 then [⟨List.replicate 254 'a', dtDir⟩]
        else if path.length = 4090 then [⟨"abc".toList, dtDir⟩, ⟨"abcd".toList, 12⟩]
        else []
      opens := fun path => path.length ≤ 4094 }
  inotifyAddWatch := fun _ => 1

theorem length_visibleDir_deepTree {path : Text}
    (h : VisibleDir deepTree.fs msRootPathInternal path) :
    (∃ k ≤ 16, path.length = 10 + 255 * k) ∨ path.length = 4094 := by
  induction h with
  | root => exact .inl ⟨0, Nat.zero_le 16, rfl⟩
  | @sub path e _ he hhidden htype ih =>
      rw [deepTree] at he
      simp only at he
      split at he
      next hlt =>
        rw [List.mem_singleton.mp he, List.length_append, List.length_cons, List.length_replicate]
        rcases ih with ⟨k, hk, hlength⟩ | hlength
        · exact .inl ⟨k + 1, by omega, by omega⟩
        · omega
      next =>
        split at he
        next hlength =>
          rcases List.mem_cons.mp he with rfl | he
          · right
            rw [List.length_append, hlength]
            rfl
          · rw [List.mem_singleton.mp he] at htype
            cases htype
        next => cases he

theorem exists_visibleDir_deepTree (k : Nat) (hk : k ≤ 16) :
    ∃ path, VisibleDir deepTree.fs msRootPathInternal path ∧ path.length = 10 + 255 * k := by
  induction k with
  | zero => exact ⟨_, .root, rfl⟩
  | succ k ih =>
      obtain ⟨path, hpath, hlength⟩ := ih (Nat.le_of_succ_le hk)
      have he : (⟨List.replicate 254 'a', dtDir⟩ : Dirent) ∈ deepTree.fs.entries path := by
        rw [deepTree]
        simp only
        rw [if_pos (by omega)]
        exact List.mem_singleton_self _
      refine ⟨_, .sub hpath he (by decide) rfl, ?_⟩
      rw [List.length_append, List.length_cons, List.length_replicate]
      omega

/-- The path of the socket is cut off to that of the directory, so both walks record it. -/
theorem discovery_decoy :
    Browsable deepTree.fs msRootPathInternal ∧ (∀ path, 0 < deepTree.inotifyAddWatch path) ∧
      ¬ (DirCheckComplete deepTree.fs msRootPathInternal ∧
        AddWatchComplete deepTree msRootPathInternal {}) := by
  have hfits : ∀ path, VisibleDir deepTree.fs msRootPathInternal path → path.length ≤ 4094 := by
    intro path hpath
    rcases length_visibleDir_deepTree hpath with ⟨k, hk, hlength⟩ | hlength <;> omega
  have hbrowsable : Browsable deepTree.fs msRootPathInternal := by
    refine ⟨fun path hpath => decide_eq_true (hfits path hpath), hfits, ?_⟩
    intro path _ e he hdir htype
    rw [deepTree] at he ⊢
    simp only at he ⊢
    split at he
    next => exact absurd (by rw [List.mem_singleton.mp he]) htype
    next =>
      split at he
      next hlength =>
        rcases List.mem_cons.mp he with rfl | he
        · exact absurd rfl htype
        · rw [List.mem_singleton.mp he, decide_eq_true_eq, List.length_append, hlength]
          decide
      next => cases he
  refine ⟨hbrowsable, fun _ => Int.zero_lt_one, fun h => ?_⟩
  have hnone := (walks_complete_iff (s := {}) hbrowsable (fun _ => Int.zero_lt_one) nofun).mp h
  obtain ⟨path, hpath, hlength⟩ := exists_visibleDir_deepTree 16 (Nat.le_refl 16)
  have happend : msStrappend path "abcd".toList =
      some ((path ++ '/' :: "abcd".toList).take (msFilePathLenMax - 2)) :=
    if_pos (by rw [hlength]; decide)
  refine hnone path ⟨"abcd".toList, 12⟩ ⟨hpath, ?_, by decide, by decide, by decide, _, happend, ?_⟩
  · rw [deepTree]
    simp only
    rw [if_neg (by omega), if_pos (by omega)]
    exact List.mem_cons_of_mem _ (List.mem_singleton_self _)
  · rw [deepTree]
    exact decide_eq_true (List.length_take_le _ _)

end MediaServer.Scan
