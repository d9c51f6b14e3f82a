import Mathlib.Logic.Relation
import MediaServer.Inotify.Service
import MediaServer.Scan.Equivalence

/-!
# What the three walkers take for a file

A full scan looks at single bits of `d_type`, `_ms_inoti_directory_scan_and_register_file`
takes everything for a file that is no directory, and `_ms_inoti_scan_renamed_folder` only
what is a regular file. So a symbolic link is registered by the first two and not moved by
the third.

The walkers see one tree, which lies at `dir` and has lain at `org`. Paths come from
`ms_strappend`, and a former path may be refused, or be on no storage, where the present one
is not.
-/

namespace MediaServer.Scan

open Inotify Polling

/-- The files that an undisturbed full scan hands to `ms_insert_item_batch`. -/
def scanFiles (fs : FileSystem) (root : Text) (fuel : Nat) : Option (List Text) :=
  (Walker.msDirCheck (fun _ _ => false) fs root fuel).map fun walker =>
    scanLoop (fun _ _ => false) fs (fun files path => files ++ [path]) 0 walker.recorded []

/-- The walkers hand over the same files: the calls of the two recursions are those for the
files of the scan, and the two paths of a move go the same way from `org` and from `dir`. -/
structure WalkersAgree (w : World) (org dir : Text) (files : List Text) : Prop where
  registered : ∀ path, .register path ∈ registerCalls w Inoti.maxDepth dir ↔ path ∈ files
  moved : ∀ src dst, .move src dst ∈ moveCalls w Inoti.maxDepth org dir ↔
    dst ∈ files ∧ ∃ rel, src = org ++ rel ∧ dst = dir ++ rel

/-- What the kernel promises of the entries of a directory. Nothing but a directory opens as
one, and a symbolic link has no bit in common with `DT_DIR`. -/
structure KernelEntries (fs : FileSystem) : Prop where
  noSlash : ∀ path, ∀ e ∈ fs.entries path, '/' ∉ e.name
  distinct : ∀ path, ((fs.entries path).map Dirent.name).Nodup
  opens : ∀ path, ∀ e ∈ fs.entries path, e.isDir → fs.opens (path ++ '/' :: e.name) →
    e.dType = dtDir

section Tree

variable (fs : FileSystem)

/-- From a directory into a subdirectory that opens. -/
def Enters (path sub : Text) : Prop :=
  ∃ e, Shows fs path e ∧ e.dType = dtDir ∧ msStrappend path e.name = some sub ∧ fs.opens sub

/-- The same step with the former paths in front. -/
def EntersBoth (x y : Text × Text) : Prop :=
  ∃ e, Shows fs x.2 e ∧ e.dType = dtDir ∧ msStrappend x.1 e.name = some y.1 ∧
    msStrappend x.2 e.name = some y.2 ∧ fs.opens y.2

/-- The tree below a directory has this entry. -/
def HasEntry (dir path : Text) (e : Dirent) : Prop :=
  Relation.ReflTransGen (Enters fs) dir path ∧ Shows fs path e

/-- No path in the tree is cut off, except perhaps to that of a directory that does not
open. -/
def WholePaths (dir : Text) : Prop :=
  ∀ path e p, HasEntry fs dir path e → msStrappend path e.name = some p →
    (e.dType = dtDir → fs.opens p) → p = path ++ '/' :: e.name

/-- The entries of the tree are directories and regular files, unless `ms_strappend` refuses
their paths. -/
def PlainEntries (dir : Text) : Prop :=
  ∀ path e, HasEntry fs dir path e → (msStrappend path e.name).isSome →
    e.dType = dtDir ∨ e.dType = dtReg

/-- The former path of each regular file fits into the buffer, and both of its paths are on a
storage. -/
def MovablePaths (org dir : Text) : Prop :=
  ∀ path e rel, HasEntry fs dir path e → e.dType = dtReg →
    msStrappend path e.name = some (dir ++ rel) →
    (org ++ rel).length ≤ msFilePathLenMax - 2 ∧
      msGetStorageTypeByFull (org ++ rel) ≠ .invalidFilePath ∧
      msGetStorageTypeByFull (dir ++ rel) ≠ .invalidFilePath

end Tree

section Walks

variable {w : World} {fs : FileSystem} {org dir path q : Text} {e : Dirent}

/-- A step makes the path longer. -/
theorem WholePaths.enters {sub : Text} (whole : WholePaths fs dir)
    (hpath : Relation.ReflTransGen (Enters fs) dir path) (h : Enters fs path sub) :
    path.length < sub.length := by
  obtain ⟨e, he, -, happend, hopens⟩ := h
  rw [whole path e sub ⟨hpath, he⟩ happend fun _ => hopens, List.length_append, List.length_cons]
  omega

theorem not_msStrappend_of_long {name p : Text} (h : msFilePathLenMax < path.length)
    (happend : msStrappend path name = some p) : False := by
  have := length_le_of_msStrappend happend
  omega

theorem opens_of_mem_registerCalls {depth : Nat} {call : ServiceCall}
    (h : call ∈ registerCalls w depth path) : w.fs.opens path := by
  cases depth with
  | zero => cases h
  | succ depth =>
      obtain ⟨e, -, he, -⟩ := mem_registerCalls_succ.mp h
      exact he.1

/-- What the walk over a new directory registers. -/
theorem register_mem_iff (whole : WholePaths w.fs dir)
    (hpath : Relation.ReflTransGen (Enters w.fs) dir path) {depth : Nat}
    (hdepth : msFilePathLenMax < path.length + depth) :
    .register q ∈ registerCalls w depth path ↔
      ∃ d e, HasEntry w.fs path d e ∧ e.dType ≠ dtDir ∧ msStrappend d e.name = some q := by
  induction depth generalizing path with
  | zero =>
      refine iff_of_false List.not_mem_nil ?_
      rintro ⟨d, e, ⟨hd, -⟩, -, happend⟩
      rcases hd.cases_head with rfl | ⟨sub, ⟨e', -, -, happend', -⟩, -⟩
      · exact not_msStrappend_of_long hdepth happend
      · exact not_msStrappend_of_long hdepth happend'
  | succ depth ih =>
      have hbelow : ∀ sub, Enters w.fs path sub →
          (.register q ∈ registerCalls w depth sub ↔ ∃ d e, HasEntry w.fs sub d e ∧
            e.dType ≠ dtDir ∧ msStrappend d e.name = some q) := by
        intro sub henters
        have := whole.enters hpath henters
        exact ih (hpath.tail henters) (by omega)
      rw [mem_registerCalls_succ]
      constructor
      · rintro ⟨e, p, he, happend, hcall⟩
        split at hcall
        next hdir =>
          have henters : Enters w.fs path p :=
            ⟨e, he, hdir, happend, opens_of_mem_registerCalls hcall⟩
          obtain ⟨d, e', ⟨hd, he'⟩, hfile⟩ := (hbelow p henters).mp hcall
          exact ⟨d, e', ⟨hd.head henters, he'⟩, hfile⟩
        next hfile =>
          obtain rfl := ServiceCall.register.inj hcall
          exact ⟨path, e, ⟨.refl, he⟩, hfile, happend⟩
      · rintro ⟨d, e, ⟨hd, he⟩, hfile, happend⟩
        rcases hd.cases_head with rfl | ⟨sub, henters, hsub⟩
        · exact ⟨e, q, he, happend, by rw [if_neg hfile]⟩
        · have hcall := (hbelow sub henters).mpr ⟨d, e, ⟨hsub, he⟩, hfile, happend⟩
          obtain ⟨e', he', hdir, happend', -⟩ := henters
          exact ⟨e', sub, he', happend', by rw [if_pos hdir]; exact hcall⟩

theorem opens_of_mem_moveCalls {depth : Nat} {call : ServiceCall}
    (h : call ∈ moveCalls w depth org path) : w.fs.opens path := by
  cases depth with
  | zero => cases h
  | succ depth =>
      obtain ⟨e, -, -, he, -⟩ := mem_moveCalls_succ.mp h
      exact he.1

theorem EntersBoth.enters {x y : Text × Text} (h : EntersBoth fs x y) : Enters fs x.2 y.2 := by
  obtain ⟨e, he, hdir, -, happend, hopens⟩ := h
  exact ⟨e, he, hdir, happend, hopens⟩

theorem entered_of_both {x y : Text × Text} (h : Relation.ReflTransGen (EntersBoth fs) x y) :
    Relation.ReflTransGen (Enters fs) x.2 y.2 :=
  h.lift Prod.snd fun _ _ => EntersBoth.enters

/-- What the walk over a renamed directory moves. -/
theorem move_mem_iff {src dst : Text} (whole : WholePaths w.fs dir)
    (hpath : Relation.ReflTransGen (Enters w.fs) dir path) {depth : Nat}
    (hdepth : msFilePathLenMax < path.length + depth) :
    .move src dst ∈ moveCalls w depth org path ↔
      ∃ o d e, Relation.ReflTransGen (EntersBoth w.fs) (org, path) (o, d) ∧ Shows w.fs d e ∧
        e.dType = dtReg ∧ msStrappend o e.name = some src ∧ msStrappend d e.name = some dst ∧
        msGetStorageTypeByFull src ≠ .invalidFilePath ∧
        msGetStorageTypeByFull dst ≠ .invalidFilePath := by
  induction depth generalizing org path with
  | zero =>
      refine iff_of_false List.not_mem_nil ?_
      rintro ⟨o, d, e, hd, -, -, -, happend, -⟩
      rcases hd.cases_head with heq | ⟨sub, ⟨e', -, -, -, happend', -⟩, -⟩
      · obtain ⟨rfl, rfl⟩ := Prod.mk.inj heq
        exact not_msStrappend_of_long hdepth happend
      · exact not_msStrappend_of_long hdepth happend'
  | succ depth ih =>
      rw [mem_moveCalls_succ]
      constructor
      · rintro ⟨e, o', d', he, hfrom, hto, ⟨hdir, hcall⟩ | ⟨hreg, hsrc, hdst, hcall⟩⟩
        · have hboth : EntersBoth w.fs (org, path) (o', d') :=
            ⟨e, he, hdir, hfrom, hto, opens_of_mem_moveCalls hcall⟩
          have := whole.enters hpath hboth.enters
          obtain ⟨o, d, e', hd, hmove⟩ := (ih (hpath.tail hboth.enters) (by omega)).mp hcall
          exact ⟨o, d, e', hd.head hboth, hmove⟩
        · obtain ⟨rfl, rfl⟩ := ServiceCall.move.inj hcall
          exact ⟨org, path, e, .refl, he, hreg, hfrom, hto, hsrc, hdst⟩
      · rintro ⟨o, d, e, hd, he, hreg, hfrom, hto, hsrc, hdst⟩
        rcases hd.cases_head with heq | ⟨⟨o', d'⟩, hboth, hsub⟩
        · obtain ⟨rfl, rfl⟩ := Prod.mk.inj heq
          exact ⟨e, src, dst, he, hfrom, hto, .inr ⟨hreg, hsrc, hdst, rfl⟩⟩
        · have := whole.enters hpath hboth.enters
          have hcall := (ih (hpath.tail hboth.enters) (by omega)).mpr
            ⟨o, d, e, hsub, he, hreg, hfrom, hto, hsrc, hdst⟩
          obtain ⟨e', he', hdir, hfrom', hto', -⟩ := hboth
          exact ⟨e', o', d', he', hfrom', hto', .inl ⟨hdir, hcall⟩⟩

/-- With whole paths the scan takes up the directories that the recursions enter. -/
theorem takenUp_iff_entered (kernel : KernelEntries fs) (whole : WholePaths fs dir) :
    TakenUp fs dir path ↔ Relation.ReflTransGen (Enters fs) dir path := by
  constructor
  · intro h
    induction h with
    | root => exact .refl
    | @sub path d _ hd ih =>
        have hopens : fs.opens path := by
          rw [selected, FileSystem.opendir] at hd
          by_contra hclosed
          rw [if_neg hclosed] at hd
          cases hd
        obtain ⟨e, he, hhidden, hdir, ⟨sub, happend, hsub⟩, rfl⟩ := (mem_subdirectories hopens).mp hd
        have hpath := whole path e sub ⟨ih, hopens, he, hhidden⟩ happend fun _ => hsub
        have htype := kernel.opens path e he hdir (hpath ▸ hsub)
        have hjoined : joined (path, e.name) = sub := hpath.symm
        rw [hjoined]
        exact ih.tail ⟨e, ⟨hopens, he, hhidden⟩, htype, happend, hsub⟩
  · intro h
    induction h with
    | refl => exact .root
    | @tail path sub hpath henters ih =>
        obtain ⟨e, he, htype, happend, hsub⟩ := id henters
        have hdir : e.isDir := by
          rw [Dirent.isDir, htype]
          rfl
        rw [whole path e sub ⟨hpath, he⟩ happend fun _ => hsub]
        exact .sub ih ((mem_subdirectories he.1).mpr
          ⟨e, he.2.1, he.2.2, hdir, ⟨sub, happend, hsub⟩, rfl⟩)

theorem mem_selected_regularFile :
    q ∈ selected fs (regularFile path) path ↔
      ∃ e, Shows fs path e ∧ e.isReg ∧ msStrappend path e.name = some q := by
  have hfile : ∀ e, regularFile path e = some q ↔ e.isReg ∧ msStrappend path e.name = some q := by
    intro e
    rw [regularFile]
    split <;> simp [*]
  rw [selected, FileSystem.opendir]
  by_cases hopens : fs.opens path = true
  · rw [if_pos hopens]
    simp only [List.mem_filterMap, List.mem_filter, decide_eq_true_eq, hfile, Shows, hopens,
      true_and, and_assoc]
  · rw [if_neg hopens]
    simp [Shows, hopens]

/-- A full scan hands over the entries with the bit of `DT_REG`. -/
theorem scanFiles_ends (kernel : KernelEntries fs) (whole : WholePaths fs dir) :
    EndsWith (scanFiles fs dir) fun files => ∀ q, q ∈ files ↔
      ∃ d e, HasEntry fs dir d e ∧ e.isReg ∧ msStrappend d e.name = some q := by
  have hfiles : ∀ nodes, scanLoop (fun _ _ => false) fs (fun files path => files ++ [path]) 0 nodes
      [] = handedOver fs nodes := by
    intro nodes
    rw [scanLoop_eq, emitted_of_never, ← handedOver, List.foldl_append_eq_append, List.nil_append,
      ← List.flatMap_def, List.flatMap_singleton']
  by_cases hdir : dir.length ≤ msFilePathLenMax
  · refine (Walker.msDirCheck_ends fs hdir).bind ?_
    rintro fuel walker hwalker ⟨hlists, -⟩
    refine ⟨handedOver fs walker.recorded, ?_, fun q => ?_⟩
    · rw [scanFiles, hwalker, Option.map_some, hfiles]
    · rw [handedOver_eq, List.mem_flatMap]
      simp only [hlists.2, takenUp_iff_entered kernel whole, mem_selected_regularFile, HasEntry,
        and_assoc, exists_and_left]
  · refine ⟨0, fun fuel _ => ⟨[], ?_, fun q => iff_of_false List.not_mem_nil ?_⟩⟩
    · have hnone : msDirCheck (fun _ _ => false) fs dir fuel = some [] := by
        rw [msDirCheck, msGetFullPathFromNode_of_long hdir]
      obtain ⟨walker, hwalker, hnodes, -⟩ := Walker.msDirCheck_of_msDirCheck hnone
      rw [scanFiles, hwalker, Option.map_some, hnodes]
      rfl
    · rintro ⟨d, e, ⟨hd, -⟩, -, happend⟩
      rcases hd.cases_head with rfl | ⟨sub, ⟨e', -, -, happend', -⟩, -⟩
      · exact not_msStrappend_of_long (Nat.not_le.mp hdir) happend
      · exact not_msStrappend_of_long (Nat.not_le.mp hdir) happend'

/-- A directory that is entered lies under the one where the walk begins. -/
theorem WholePaths.below (whole : WholePaths fs dir)
    (h : Relation.ReflTransGen (Enters fs) dir path) : ∃ rel, path = dir ++ rel := by
  induction h with
  | refl => exact ⟨[], (List.append_nil dir).symm⟩
  | @tail path sub hpath henters ih =>
      obtain ⟨rel, rfl⟩ := ih
      obtain ⟨e, he, -, happend, hopens⟩ := henters
      refine ⟨rel ++ '/' :: e.name, ?_⟩
      rw [whole _ e sub ⟨hpath, he⟩ happend fun _ => hopens, List.append_assoc]

/-- What is built for an entry of the walk is the path of its directory and its name. -/
theorem WholePaths.split (whole : WholePaths fs dir) (he : HasEntry fs dir path e)
    (happend : msStrappend path e.name = some q) (hopens : e.dType = dtDir → fs.opens q) :
    ∃ above, path = dir ++ above ∧ q = dir ++ (above ++ '/' :: e.name) := by
  obtain ⟨above, habove⟩ := whole.below he.1
  refine ⟨above, habove, ?_⟩
  rw [whole path e q he happend hopens, habove, List.append_assoc]

theorem fits_of_below {above name : Text}
    (h : (org ++ (above ++ '/' :: name)).length ≤ msFilePathLenMax - 2) :
    (org ++ above).length ≤ msFilePathLenMax - 2 := by
  rw [← List.append_assoc, List.length_append] at h
  omega

theorem msStrappend_former {above name : Text}
    (h : (org ++ (above ++ '/' :: name)).length ≤ msFilePathLenMax - 2) :
    msStrappend (org ++ above) name = some (org ++ (above ++ '/' :: name)) := by
  rw [← List.append_assoc] at h ⊢
  exact msStrappend_whole h

/-- Where the former path fits, it is entered along with the present one. -/
theorem WholePaths.both (whole : WholePaths fs dir)
    (h : Relation.ReflTransGen (Enters fs) dir path) {rel : Text} (hrel : path = dir ++ rel)
    (hfits : (org ++ rel).length ≤ msFilePathLenMax - 2) :
    Relation.ReflTransGen (EntersBoth fs) (org, dir) (org ++ rel, path) := by
  induction h generalizing rel with
  | refl =>
      obtain rfl : rel = [] := by simpa using hrel
      rw [List.append_nil]
  | @tail path sub hpath henters ih =>
      obtain ⟨e, he, hdir, happend, hopens⟩ := henters
      obtain ⟨above, habove, hsub⟩ := whole.split ⟨hpath, he⟩ happend fun _ => hopens
      obtain rfl := List.append_cancel_left (hrel.symm.trans hsub)
      exact (ih habove (fits_of_below hfits)).tail
        ⟨e, he, hdir, msStrappend_former hfits, happend, hopens⟩

/-- A former path that fits is the one that `ms_strappend` has built. -/
theorem WholePaths.former (whole : WholePaths fs dir) {x : Text × Text}
    (h : Relation.ReflTransGen (EntersBoth fs) (org, dir) x) {rel : Text} (hrel : x.2 = dir ++ rel)
    (hfits : (org ++ rel).length ≤ msFilePathLenMax - 2) : x.1 = org ++ rel := by
  induction h generalizing rel with
  | refl =>
      obtain rfl : rel = [] := by simpa using hrel
      exact (List.append_nil org).symm
  | @tail x y hx hboth ih =>
      obtain ⟨e, he, hdir, hformer, happend, hopens⟩ := hboth
      obtain ⟨above, habove, hsub⟩ := whole.split ⟨entered_of_both hx, he⟩ happend fun _ => hopens
      obtain rfl := List.append_cancel_left (hrel.symm.trans hsub)
      rw [ih habove (fits_of_below hfits), msStrappend_former hfits] at hformer
      exact (Option.some.inj hformer).symm

theorem isReg_of_dtReg (h : e.dType = dtReg) : e.isReg := by
  rw [Dirent.isReg, h]
  rfl

theorem ne_dtDir_of_isReg (h : e.isReg) : e.dType ≠ dtDir := by
  intro hdir
  rw [Dirent.isReg, hdir] at h
  cases h

theorem ne_dtDir_of_dtReg (h : e.dType = dtReg) : e.dType ≠ dtDir :=
  ne_dtDir_of_isReg (isReg_of_dtReg h)

/-- A path is that of one file only. -/
theorem eq_of_same_path (kernel : KernelEntries fs) (whole : WholePaths fs dir) {path' : Text}
    {e' : Dirent} (he : HasEntry fs dir path e) (he' : HasEntry fs dir path' e')
    (hfile : e.dType ≠ dtDir) (hfile' : e'.dType ≠ dtDir)
    (happend : msStrappend path e.name = some q) (happend' : msStrappend path' e'.name = some q) :
    e = e' := by
  have hpath := whole path e q he happend fun hdir => absurd hdir hfile
  have hpath' := whole path' e' q he' happend' fun hdir => absurd hdir hfile'
  have hmem := he.2.2.1
  have hmem' := he'.2.2.1
  obtain ⟨rfl, hname⟩ := split_at_slash (kernel.noSlash path e hmem)
    (kernel.noSlash path' e' hmem') (hpath.symm.trans hpath')
  exact List.inj_on_of_nodup_map (kernel.distinct path) hmem hmem' hname

theorem lt_length_add_maxDepth (dir : Text) : msFilePathLenMax < dir.length + Inoti.maxDepth := by
  rw [Inoti.maxDepth]
  omega

/-- Directories and regular files are the same to all three walkers. -/
theorem walkersAgree_of_plain (whole : WholePaths w.fs dir) (plain : PlainEntries w.fs dir)
    (movable : MovablePaths w.fs org dir) {files : List Text}
    (hfiles : ∀ q, q ∈ files ↔
      ∃ d e, HasEntry w.fs dir d e ∧ e.isReg ∧ msStrappend d e.name = some q) :
    WalkersAgree w org dir files := by
  have hplain : ∀ d e q, HasEntry w.fs dir d e → msStrappend d e.name = some q →
      e.dType ≠ dtDir → e.dType = dtReg := by
    intro d e q he happend hfile
    exact (plain d e he (Option.isSome_of_eq_some happend)).resolve_left hfile
  constructor
  · intro path
    rw [hfiles, register_mem_iff whole .refl (lt_length_add_maxDepth dir)]
    refine exists_congr fun d => exists_congr fun e => and_congr_right fun he => ?_
    constructor
    · rintro ⟨hfile, happend⟩
      exact ⟨isReg_of_dtReg (hplain d e path he happend hfile), happend⟩
    · rintro ⟨hreg, happend⟩
      exact ⟨ne_dtDir_of_isReg hreg, happend⟩
  · intro src dst
    rw [hfiles, move_mem_iff whole .refl (lt_length_add_maxDepth dir)]
    constructor
    · rintro ⟨o, d, e, hd, he, hreg, hsrc, hdst, -⟩
      have hentry : HasEntry w.fs dir d e := ⟨entered_of_both hd, he⟩
      obtain ⟨above, hdir, rfl⟩ := whole.split hentry hdst (absurd · (ne_dtDir_of_dtReg hreg))
      obtain ⟨hfits, -⟩ := movable d e _ hentry hreg hdst
      have hformer : o = org ++ above := whole.former hd hdir (fits_of_below hfits)
      rw [hformer, msStrappend_former hfits] at hsrc
      exact ⟨⟨d, e, hentry, isReg_of_dtReg hreg, hdst⟩, above ++ '/' :: e.name,
        (Option.some.inj hsrc).symm, rfl⟩
    · rintro ⟨⟨d, e, hentry, hreg, hdst⟩, rel, rfl, rfl⟩
      have hreg := hplain d e _ hentry hdst (ne_dtDir_of_isReg hreg)
      obtain ⟨hfits, hstorages⟩ := movable d e rel hentry hreg hdst
      obtain ⟨above, hdir, hrel⟩ := whole.split hentry hdst (absurd · (ne_dtDir_of_dtReg hreg))
      obtain rfl := List.append_cancel_left hrel
      have hboth := whole.both hentry.1 hdir (fits_of_below hfits)
      exact ⟨org ++ above, d, e, hboth, hentry.2, hreg, msStrappend_former hfits, hdst, hstorages⟩

/-- What is registered is moved only if it is a regular file whose former path fits. -/
theorem plain_movable_of_agree (kernel : KernelEntries w.fs) (whole : WholePaths w.fs dir)
    {files : List Text} (h : WalkersAgree w org dir files) :
    PlainEntries w.fs dir ∧ MovablePaths w.fs org dir := by
  have hmoved : ∀ d e rel, HasEntry w.fs dir d e → e.dType ≠ dtDir →
      msStrappend d e.name = some (dir ++ rel) → e.dType = dtReg ∧
        (org ++ rel).length ≤ msFilePathLenMax - 2 ∧
          msGetStorageTypeByFull (org ++ rel) ≠ .invalidFilePath ∧
            msGetStorageTypeByFull (dir ++ rel) ≠ .invalidFilePath := by
    intro d e rel he hfile happend
    have hregister := (register_mem_iff whole .refl (lt_length_add_maxDepth dir)).mpr
      ⟨d, e, he, hfile, happend⟩
    have hmove := (h.moved (org ++ rel) (dir ++ rel)).mpr
      ⟨(h.registered _).mp hregister, rel, rfl, rfl⟩
    obtain ⟨o, d', e', hd', he', hreg, hsrc, hdst, hstorages⟩ :=
      (move_mem_iff whole .refl (lt_length_add_maxDepth dir)).mp hmove
    obtain rfl := eq_of_same_path kernel whole he ⟨entered_of_both hd', he'⟩ hfile
      (ne_dtDir_of_dtReg hreg) happend hdst
    exact ⟨hreg, fits_of_msStrappend hsrc, hstorages⟩
  constructor
  · intro d e he hsome
    by_cases hdir : e.dType = dtDir
    · exact .inl hdir
    · obtain ⟨q, happend⟩ := Option.isSome_iff_exists.mp hsome
      obtain ⟨above, -, rfl⟩ := whole.split he happend (absurd · hdir)
      exact .inr (hmoved d e _ he hdir happend).1
  · intro d e rel he hreg happend
    exact (hmoved d e rel he (ne_dtDir_of_dtReg hreg) happend).2

end Walks

/-- Where no path is cut off, the walkers agree on the trees of directories and regular files
whose former paths fit, and on no others. -/
theorem walkers_agree_iff (w : World) (org dir : Text) (kernel : KernelEntries w.fs) :
    (WholePaths w.fs dir ∧ PlainEntries w.fs dir ∧ MovablePaths w.fs org dir →
      EndsWith (scanFiles w.fs dir) (WalkersAgree w org dir)) ∧
    (WholePaths w.fs dir → EndsWith (scanFiles w.fs dir) (WalkersAgree w org dir) →
      PlainEntries w.fs dir ∧ MovablePaths w.fs org dir) := by
  constructor
  · rintro ⟨whole, plain, movable⟩
    exact (scanFiles_ends kernel whole).mono fun files hfiles =>
      walkersAgree_of_plain whole plain movable hfiles
  · rintro whole ⟨enough, henough⟩
    obtain ⟨files, -, hagree⟩ := henough enough le_rfl
    exact plain_movable_of_agree kernel whole hagree

theorem ProperTree.wholePaths {fs : FileSystem} (proper : ProperTree fs) (dir : Text) :
    WholePaths fs dir := by
  intro path e p he happend _
  rw [msStrappend_whole (proper.fits path e he.2.2.1 he.2.2.2)] at happend
  exact (Option.some.inj happend).symm

/-- The only file of the tree lies in its only directory that is not hidden. -/
theorem kind_smallTree {path : Text} {e : Dirent} (he : e ∈ smallTree.fs.entries path) :
    e.dType = dtDir ∨ e.dType = dtReg ∧ path = msRootPathInternal ++ "/a".toList ∧
      e.name = "c.mp3".toList := by
  rw [smallTree] at he
  simp only at he
  split at he
  next =>
    rcases List.mem_cons.mp he with rfl | he
    · exact .inl rfl
    · rw [List.mem_singleton.mp he]
      exact .inl rfl
  next =>
    split at he
    next hdir =>
      rw [List.mem_singleton.mp he]
      exact .inr ⟨rfl, hdir, rfl⟩
    next => cases he

/-- The directory of the tree has been renamed. -/
theorem walkers_agree_smallTree :
    let org := msRootPathInternal ++ "/b".toList
    let dir := msRootPathInternal ++ "/a".toList
    KernelEntries smallTree.fs ∧
      EndsWith (scanFiles smallTree.fs dir) (WalkersAgree smallTree org dir) := by
  intro org dir
  have kernel : KernelEntries smallTree.fs :=
    ⟨properTree_smallTree.noSlash, properTree_smallTree.distinct,
      fun _ _ he hdir _ => dType_smallTree he hdir⟩
  refine ⟨kernel, (walkers_agree_iff smallTree org dir kernel).1
    ⟨properTree_smallTree.wholePaths dir, ?_, ?_⟩⟩
  · intro path e he _
    exact (kind_smallTree he.2.2.1).imp_right And.left
  · intro path e rel he hreg happend
    obtain hdir | ⟨-, rfl, hname⟩ := kind_smallTree he.2.2.1
    · exact absurd hdir (ne_dtDir_of_dtReg hreg)
    · have hpath : msStrappend dir "c.mp3".toList = some (dir ++ "/c.mp3".toList) :=
        msStrappend_whole (by decide)
      rw [hname] at happend
      obtain rfl := List.append_cancel_left (Option.some.inj (happend.symm.trans hpath))
      decide

/-- A directory with a symbolic link, whose type is `DT_LNK`. -/
def linkTree : World where
  fs :=
    { entries := fun path =>
        if path = msRootPathInternal ++ "/b".toList then [⟨"l".toList, 10⟩] else []
      opens := fun path => path = msRootPathInternal ++ "/b".toList }
  inotifyAddWatch := fun _ => 1

theorem entries_linkTree {path : Text} {e : Dirent} (he : e ∈ linkTree.fs.entries path) :
    path = msRootPathInternal ++ "/b".toList ∧ e = ⟨"l".toList, 10⟩ := by
  rw [linkTree] at he
  simp only at he
  split at he
  next hdir => exact ⟨hdir, List.mem_singleton.mp he⟩
  next => cases he

theorem kernelEntries_linkTree : KernelEntries linkTree.fs where
  noSlash path e he := by
    obtain ⟨-, rfl⟩ := entries_linkTree he
    decide
  distinct path := by
    rw [linkTree]
    simp only
    split <;> decide
  opens path e he hdir _ := by
    obtain ⟨-, rfl⟩ := entries_linkTree he
    cases hdir

/-- The link is scanned and registered, and does not follow when its directory is renamed. -/
theorem link_left_behind :
    let org := msRootPathInternal ++ "/a".toList
    let dir := msRootPathInternal ++ "/b".toList
    KernelEntries linkTree.fs ∧
      EndsWith (scanFiles linkTree.fs dir) (fun files => dir ++ "/l".toList ∈ files) ∧
      .register (dir ++ "/l".toList) ∈ registerCalls linkTree Inoti.maxDepth dir ∧
      moveCalls linkTree Inoti.maxDepth org dir = [] ∧
      ¬ EndsWith (scanFiles linkTree.fs dir) (WalkersAgree linkTree org dir) := by
  intro org dir
  have whole : WholePaths linkTree.fs dir := by
    intro path e p he happend _
    obtain ⟨rfl, rfl⟩ := entries_linkTree he.2.2.1
    rw [msStrappend_whole (by decide)] at happend
    exact (Option.some.inj happend).symm
  have hshows : Shows linkTree.fs dir ⟨"l".toList, 10⟩ := ⟨by decide, by decide, by decide⟩
  have happend : msStrappend dir "l".toList = some (dir ++ "/l".toList) :=
    msStrappend_whole (by decide)
  refine ⟨kernelEntries_linkTree, ?_, ?_, ?_, ?_⟩
  · exact (scanFiles_ends kernelEntries_linkTree whole).mono fun files hfiles =>
      (hfiles _).mpr ⟨dir, _, ⟨.refl, hshows⟩, by decide, happend⟩
  · rw [Inoti.maxDepth, mem_registerCalls_succ]
    exact ⟨_, _, hshows, happend, rfl⟩
  · refine List.eq_nil_iff_forall_not_mem.mpr fun call hcall => ?_
    rw [Inoti.maxDepth, mem_moveCalls_succ] at hcall
    obtain ⟨e, src, dst, he, -, -, ⟨hdir, -⟩ | ⟨hreg, -⟩⟩ := hcall
    · obtain ⟨-, rfl⟩ := entries_linkTree he.2.1
      cases hdir
    · obtain ⟨-, rfl⟩ := entries_linkTree he.2.1
      cases hreg
  · rintro ⟨enough, henough⟩
    obtain ⟨files, -, hagree⟩ := henough enough le_rfl
    obtain ⟨plain, -⟩ := plain_movable_of_agree kernelEntries_linkTree whole hagree
    rcases plain dir _ ⟨.refl, hshows⟩ (by rw [happend]; rfl) with hdir | hreg
    · cases hdir
    · cases hreg

end MediaServer.Scan
