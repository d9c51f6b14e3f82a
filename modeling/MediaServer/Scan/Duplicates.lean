import MediaServer.Register.Threads
import MediaServer.Scan.Equivalence

/-!
# A full scan beside the registrations

For a request of type `MS_SCAN_ALL` the scan thread has every plug-in delete its items of
the storage, and then gives each file to each plug-in that accepts it, without asking
whether the plug-in has it. `ms_delete_all_items` stops at the first plug-in that fails,
and the thread goes on. Between any two of its calls the socket handler and the inotify
thread may be at any place in `ms_register_file`.

The tree may change during the scan. `_ms_dir_check` and `_ms_dir_scan` read each
directory once, so that two file systems, one for each of them, give what they read.
-/

namespace MediaServer.Scan

open Polling

/-- A request of type `MS_SCAN_ALL` with what the scan meets. -/
structure FullScan where
  storageType : StorageType
  root : Text
  stored : StorageRoot storageType root
  /-- What `_ms_dir_check` reads, and the tests that stop it. -/
  checked : FileSystem
  checkStops : Nat → Test → Bool
  /-- What `_ms_dir_scan` reads, and the tests that stop it. -/
  fs : FileSystem
  scanStops : Nat → Test → Bool
  libNum : Nat
  /-- The file has a mime type, and `CHECK_ITEM` of this plug-in takes it. -/
  accepts : Nat → Text → Bool

namespace FullScan

variable (scan : FullScan)

/-- The files that `_ms_dir_scan` hands over. -/
def files (fuel : Nat) : Option (List Text) :=
  (Walker.msDirCheck scan.checkStops scan.checked scan.root fuel).map fun walker =>
    (run scan.scanStops 0 (scanActions scan.fs walker.recorded)).emitted

/-- The plug-ins that `ms_insert_item_batch` calls, with the path. -/
def insertItemBatch (path : Text) : List (Nat × Text) :=
  ((List.range scan.libNum).filter fun libIndex => scan.accepts libIndex path).map (·, path)

end FullScan

/-- The scan thread in `ms_delete_all_items` or `_ms_dir_scan`, and the other threads. -/
structure FullScanState where
  shared : Register.Shared
  storageType : StorageType
  /-- `ms_delete_all_items` has not returned. -/
  deleting : Bool := true
  /-- The next plug-in there. -/
  libIndex : Nat := 0
  /-- The calls of `INSERT_BATCH` to come, and those that have been made. -/
  todo : List (Nat × Text)
  given : List (Nat × Text) := []

inductive FullScanLabel where
  | register (l : Register.Label)
  /-- One iteration of the loop of `ms_delete_all_items`. -/
  | deleteAll (fails : Bool)
  /-- The end of that loop. -/
  | deletedAll
  | insertBatch
deriving DecidableEq, Repr

/-- `DELETE_ALL_ITEMS_IN_STORAGE` of one plug-in. -/
def deleteAllHeld (storageType : StorageType) (libIndex : Nat) (held : List (Nat × Text)) :
    List (Nat × Text) :=
  held.filter fun x => ¬ (x.1 = libIndex ∧ msGetStorageTypeByFull x.2 = storageType)

def fullScanStep (s : FullScanState) : FullScanLabel → Option FullScanState
  | .register l => (Register.registerStep s.shared l).map fun shared => { s with shared }
  | .deleteAll fails =>
      if s.deleting ∧ s.libIndex < s.shared.libNum then
        if fails then some { s with deleting := false }
        else
          some { s with
            shared := { s.shared with
              held := deleteAllHeld s.storageType s.libIndex s.shared.held }
            libIndex := s.libIndex + 1 }
      else none
  | .deletedAll =>
      if s.deleting ∧ s.libIndex = s.shared.libNum then some { s with deleting := false } else none
  | .insertBatch =>
      match s.deleting, s.todo with
      | false, x :: todo =>
          some { s with
            shared := { s.shared with held := x :: s.shared.held }
            todo
            given := s.given ++ [x] }
      | _, _ => none

/-- No thread registers a file, and the scan thread is about to delete all items. -/
def FullScan.start (scan : FullScan) (files : List Text) (held : List (Nat × Text)) :
    FullScanState where
  shared := .start scan.libNum held
  storageType := scan.storageType
  todo := files.flatMap scan.insertItemBatch

/-- No call gives a plug-in the same path as another one: no two files that it accepts have
paths that `ms_strappend` cuts off to the same one. -/
def FullScan.Distinct (scan : FullScan) (files : List Text) : Prop :=
  (files.flatMap scan.insertItemBatch).Nodup

/-- The plug-in has every file once that the scan has given to it. -/
def GivenOnce (s : FullScanState) : Prop := ∀ x ∈ s.given, s.shared.held.count x = 1

instance : DecidablePred GivenOnce := fun s =>
  inferInstanceAs (Decidable (∀ x ∈ s.given, s.shared.held.count x = 1))

/-- Nobody else stores a file of the scan once the plug-in has deleted its items, and a
plug-in that keeps its items, because a deletion fails, has no file of the scan. -/
def Undisturbed (s : FullScanState) : FullScanLabel → Prop
  | .register l => ∀ x ∈ Register.stored s.shared l, x ∈ s.given ++ s.todo →
      s.deleting ∧ s.libIndex ≤ x.1
  | .deleteAll true => ∀ x ∈ s.todo, s.libIndex ≤ x.1 → x ∉ s.shared.held
  | .deleteAll false | .deletedAll | .insertBatch => True

instance : ∀ s a, Decidable (Undisturbed s a)
  | s, .register l => inferInstanceAs (Decidable (∀ x ∈ Register.stored s.shared l,
      x ∈ s.given ++ s.todo → s.deleting ∧ s.libIndex ≤ x.1))
  | s, .deleteAll true =>
      inferInstanceAs (Decidable (∀ x ∈ s.todo, s.libIndex ≤ x.1 → x ∉ s.shared.held))
  | _, .deleteAll false | _, .deletedAll | _, .insertBatch => isTrue trivial

/-- The scan has made its last call. -/
def FullScanState.Over (s : FullScanState) : Prop := s.deleting = false ∧ s.todo = []

section Files

variable {fs : FileSystem} {root path : Text} {stops : Nat → Test → Bool}

/-- The walk ends, whatever stops it, with directories below its root. -/
theorem msDirCheck_under (stops : Nat → Test → Bool) (fs : FileSystem)
    (hroot : root.length ≤ msFilePathLenMax) :
    EndsWith (Walker.msDirCheck stops fs root) fun walker =>
      walker.recorded.Nodup ∧ ∀ dir ∈ walker.recorded, Under root dir := by
  have hlist : EndsWith (msDirCheck stops fs root) List.Nodup := by
    obtain ⟨enough, henough⟩ := msDirCheck_eq stops fs hroot
    refine ⟨enough, fun fuel hfuel => ⟨_, henough fuel hfuel, ?_⟩⟩
    exact (foldl_msScanAddNode _ (List.nodup_singleton root)).1
  have hrecord : ∀ s l p, Under root p → (s = l ∧ ∀ dir ∈ s, Under root dir) →
      msScanAddNode s p = msScanAddNode l p ∧ ∀ dir ∈ msScanAddNode s p, Under root dir := by
    rintro s _ p hp ⟨rfl, hs⟩
    refine ⟨rfl, fun dir hdir => ?_⟩
    rcases mem_msScanAddNode.mp hdir with hdir | rfl
    · exact hs dir hdir
    · exact hp
  refine (hlist.walkTree hrecord ⟨rfl, nofun⟩).mono ?_
  rintro walker ⟨⟨l, ⟨rfl, hunder⟩, hnodup⟩, -⟩
  exact ⟨hnodup, hunder⟩

/-- A path that is cut off still lies below the root. -/
theorem under_of_msStrappend {dir name : Text} (hdir : Under root dir)
    (hroot : root.length < msFilePathLenMax - 2) (h : msStrappend dir name = some path) :
    Under root path :=
  .inr (below_of_msStrappend hdir hroot h)

theorem under_of_mem_emitted {nodes : List Text} (hroot : root.length < msFilePathLenMax - 2)
    (hnodes : ∀ dir ∈ nodes, Under root dir)
    (h : path ∈ (run stops 0 (scanActions fs nodes)).emitted) : Under root path := by
  have hmem : path ∈ handedOver fs nodes := (emitted_initial 0 _).subset h
  rw [handedOver_eq] at hmem
  obtain ⟨dir, hdir, hmem⟩ := List.mem_flatMap.mp hmem
  rw [selected] at hmem
  split at hmem
  next => cases hmem
  next =>
    obtain ⟨e, -, he⟩ := List.mem_filterMap.mp hmem
    rw [regularFile] at he
    split at he
    · exact under_of_msStrappend (hnodes dir hdir) hroot he
    · cases he

theorem nodup_insertItemBatch (scan : FullScan) {files : List Text} (h : files.Nodup) :
    scan.Distinct files := by
  rw [FullScan.Distinct, List.nodup_flatMap]
  constructor
  · intro path _
    exact (List.nodup_range.filter _).map fun _ _ heq => (Prod.mk.inj heq).1
  · refine h.imp fun {path path'} hne x hx hx' => hne ?_
    obtain ⟨_, -, rfl⟩ := List.mem_map.mp hx
    obtain ⟨_, -, heq⟩ := List.mem_map.mp hx'
    exact (Prod.mk.inj heq).2.symm

/-- `_ms_dir_scan` ends. Its files belong to the storage, and paths that the buffers hold
whole are distinct. -/
theorem FullScan.files_ends (scan : FullScan) :
    EndsWith scan.files fun files => (ProperTree scan.fs → scan.Distinct files) ∧
      ∀ path ∈ files, msGetStorageTypeByFull path = scan.storageType := by
  have hroot := scan.stored.length_lt
  have hlength : scan.root.length ≤ msFilePathLenMax := hroot.le.trans (Nat.sub_le _ _)
  refine (msDirCheck_under scan.checkStops scan.checked hlength).bind ?_
  rintro fuel walker hwalker ⟨hnodup, hunder⟩
  refine ⟨_, congrArg (Option.map _) hwalker, fun proper => ?_, fun path hpath => ?_⟩
  · exact nodup_insertItemBatch scan
      ((nodup_handedOver proper hnodup).sublist (emitted_initial 0 _).sublist)
  · exact msGetStorageTypeByFull_of_under scan.stored (under_of_mem_emitted hroot hunder hpath)

end Files

/-- All calls of `INSERT_BATCH` of the scan. -/
def FullScanState.calls (s : FullScanState) : List (Nat × Text) := s.given ++ s.todo

/-- The items of the plug-in will not be deleted any more. -/
def FullScanState.Kept (s : FullScanState) (x : Nat × Text) : Prop :=
  s.deleting = true → x.1 < s.libIndex

/-- How often the plug-in has the file, once the scan has made its calls. -/
def FullScanState.copies (s : FullScanState) (x : Nat × Text) : Nat :=
  s.shared.held.count x + s.todo.count x

/-- What holds in every run. -/
structure FullScanInv (s : FullScanState) : Prop where
  known : ∀ x ∈ s.calls, x.1 < s.shared.libNum ∧ msGetStorageTypeByFull x.2 = s.storageType
  begun : s.deleting = true → s.given = []
  held : ∀ x, s.given.count x ≤ s.shared.held.count x

/-- The item that another thread stores in a step. -/
def registered (s : FullScanState) : FullScanLabel → Option (Nat × Text)
  | .register l => Register.stored s.shared l
  | .deleteAll _ | .deletedAll | .insertBatch => none

/-- Every file of the scan will be there once. -/
def Single (s : FullScanState) : Prop := ∀ x ∈ s.calls, s.Kept x → s.copies x = 1

/-- Some file of the scan will be there twice. -/
def Doubled (s : FullScanState) : Prop := ∃ x ∈ s.calls, s.Kept x ∧ 2 ≤ s.copies x

section Steps

variable {s t : FullScanState} {a : FullScanLabel}

/-- Everything a step can do. -/
inductive FullScanStepped (s : FullScanState) : FullScanLabel → FullScanState → Prop where
  | register {l : Register.Label} {shared : Register.Shared} :
      shared.held = (Register.stored s.shared l).toList ++ s.shared.held →
      shared.libNum = s.shared.libNum → FullScanStepped s (.register l) { s with shared }
  | deleteFailed : s.deleting = true → s.libIndex < s.shared.libNum →
      FullScanStepped s (.deleteAll true) { s with deleting := false }
  | deleted : s.deleting = true → s.libIndex < s.shared.libNum →
      FullScanStepped s (.deleteAll false) { s with
        shared := { s.shared with
          held := deleteAllHeld s.storageType s.libIndex s.shared.held }
        libIndex := s.libIndex + 1 }
  | deletedAll : s.deleting = true → s.libIndex = s.shared.libNum →
      FullScanStepped s .deletedAll { s with deleting := false }
  | insertBatch {x : Nat × Text} {todo : List (Nat × Text)} : s.deleting = false →
      s.todo = x :: todo → FullScanStepped s .insertBatch { s with
        shared := { s.shared with held := x :: s.shared.held }
        todo
        given := s.given ++ [x] }

theorem fullScanStep_cases (h : fullScanStep s a = some t) : FullScanStepped s a t := by
  cases a with
  | register l =>
      obtain ⟨shared, hshared, rfl⟩ := Option.map_eq_some_iff.mp h
      obtain ⟨hheld, hlibNum⟩ := Register.registerStep_held hshared
      exact .register hheld hlibNum
  | deleteAll fails =>
      rw [fullScanStep] at h
      split at h
      next hgo =>
        cases fails with
        | true => exact Option.some.inj h ▸ .deleteFailed hgo.1 hgo.2
        | false => exact Option.some.inj h ▸ .deleted hgo.1 hgo.2
      next => cases h
  | deletedAll =>
      rw [fullScanStep] at h
      split at h
      next hgo => exact Option.some.inj h ▸ .deletedAll hgo.1 hgo.2
      next => cases h
  | insertBatch =>
      rw [fullScanStep] at h
      split at h
      next hdeleting htodo => exact Option.some.inj h ▸ .insertBatch hdeleting htodo
      next => cases h

/-- The calls of the scan are the same throughout. -/
theorem calls_fullScanStep (h : fullScanStep s a = some t) : t.calls = s.calls := by
  cases fullScanStep_cases h with
  | insertBatch _ htodo => simp [FullScanState.calls, htodo]
  | _ => rfl

theorem count_deleteAllHeld {st : StorageType} {k : Nat} {held : List (Nat × Text)}
    {x : Nat × Text} (hx : msGetStorageTypeByFull x.2 = st) :
    (deleteAllHeld st k held).count x = if x.1 = k then 0 else held.count x := by
  rw [deleteAllHeld]
  split
  next heq =>
    refine List.count_eq_zero.mpr fun hmem => ?_
    simpa [heq, hx] using (List.mem_filter.mp hmem).2
  next hne => exact List.count_filter (by simp [hne])

/-- A file that will be there for good is there as often after the step, or once more when
another thread stores it. -/
theorem copies_fullScanStep (inv : FullScanInv s) (h : fullScanStep s a = some t) {x : Nat × Text}
    (hx : x ∈ s.calls) (hkept : s.Kept x) :
    t.Kept x ∧ t.copies x = (registered s a).toList.count x + s.copies x := by
  cases fullScanStep_cases h with
  | register hheld =>
      refine ⟨hkept, ?_⟩
      rw [FullScanState.copies, hheld, List.count_append, Nat.add_assoc]
      rfl
  | deleteFailed | deletedAll => exact ⟨nofun, (Nat.zero_add _).symm⟩
  | deleted hdeleting =>
      have hlt := hkept hdeleting
      refine ⟨fun _ => Nat.lt_succ_of_lt hlt, ?_⟩
      rw [FullScanState.copies, count_deleteAllHeld (inv.known x hx).2, if_neg (Nat.ne_of_lt hlt)]
      exact (Nat.zero_add _).symm
  | insertBatch hdeleting htodo =>
      refine ⟨fun hd => absurd (hdeleting ▸ hd) Bool.false_ne_true, ?_⟩
      rw [FullScanState.copies, FullScanState.copies, htodo, List.count_cons, List.count_cons]
      simp only [registered, Option.toList_none, List.count_nil]
      omega

/-- A file comes to stay when the plug-in has deleted its items, or when a deletion fails. -/
theorem copies_of_stays (inv : FullScanInv s) (h : fullScanStep s a = some t) {x : Nat × Text}
    (hx : x ∈ s.calls) (hnot : ¬ s.Kept x) (hkept : t.Kept x) :
    t.copies x = s.todo.count x ∨ a = .deleteAll true ∧ t.copies x = s.copies x := by
  obtain ⟨hdeleting, hle⟩ := Classical.not_imp.mp hnot
  cases fullScanStep_cases h with
  | register => exact absurd hkept hnot
  | deleteFailed => exact .inr ⟨rfl, rfl⟩
  | deleted =>
      have heq : x.1 = s.libIndex :=
        Nat.le_antisymm (Nat.le_of_lt_succ (hkept hdeleting)) (Nat.le_of_not_lt hle)
      refine .inl ?_
      rw [FullScanState.copies, count_deleteAllHeld (inv.known x hx).2, if_pos heq]
      exact Nat.zero_add _
  | deletedAll _ hend => exact absurd (hend ▸ (inv.known x hx).1) hle
  | insertBatch hover => exact absurd (hover.symm.trans hdeleting) Bool.false_ne_true

theorem FullScanInv.step (inv : FullScanInv s) (h : fullScanStep s a = some t) :
    FullScanInv t := by
  have hcalls := calls_fullScanStep h
  cases fullScanStep_cases h with
  | register hheld hlibNum =>
      refine ⟨fun x hx => ?_, inv.begun, fun x => ?_⟩
      · rw [hlibNum]
        exact inv.known x hx
      · rw [hheld, List.count_append]
        exact Nat.le_add_left_of_le (inv.held x)
  | deleteFailed | deletedAll => exact ⟨inv.known, nofun, inv.held⟩
  | deleted hdeleting =>
      refine ⟨inv.known, inv.begun, fun x => ?_⟩
      rw [inv.begun hdeleting]
      exact Nat.zero_le _
  | @insertBatch x todo hover htodo =>
      refine ⟨fun y hy => inv.known y (hcalls ▸ hy),
        fun hdeleting => absurd (hover.symm.trans hdeleting) Bool.false_ne_true, fun y => ?_⟩
      rw [List.count_append, List.count_cons, List.count_cons, List.count_nil, Nat.zero_add]
      exact Nat.add_le_add_right (inv.held y) _

theorem Single.step (inv : FullScanInv s) (hnodup : s.calls.Nodup) (single : Single s)
    (undisturbed : Undisturbed s a) (h : fullScanStep s a = some t) : Single t := by
  intro x hx hkept
  rw [calls_fullScanStep h] at hx
  by_cases hbefore : s.Kept x
  · rw [(copies_fullScanStep inv h hx hbefore).2, single x hx hbefore]
    have hother : x ∉ (registered s a).toList := by
      intro hmem
      cases a with
      | register l =>
          obtain ⟨hdeleting, hle⟩ := undisturbed x (Option.mem_toList.mp hmem) hx
          exact absurd (hbefore hdeleting) (Nat.not_lt.mpr hle)
      | _ => cases hmem
    rw [List.count_eq_zero.mpr hother]
  · obtain ⟨hdeleting, hle⟩ := Classical.not_imp.mp hbefore
    rw [FullScanState.calls, inv.begun hdeleting, List.nil_append] at hx hnodup
    have hone := List.count_eq_one_of_mem hnodup hx
    have hcalls : x ∈ s.calls := List.mem_append_right _ hx
    rcases copies_of_stays inv h hcalls hbefore hkept with hcopies | ⟨rfl, hcopies⟩
    · rw [hcopies, hone]
    · have hfree := undisturbed x hx (Nat.le_of_not_lt hle)
      rw [hcopies, FullScanState.copies, List.count_eq_zero.mpr hfree, hone]

theorem Doubled.step (inv : FullScanInv s) (doubled : Doubled s)
    (h : fullScanStep s a = some t) : Doubled t := by
  obtain ⟨x, hx, hkept, hcopies⟩ := doubled
  obtain ⟨hkept', hcopies'⟩ := copies_fullScanStep inv h hx hkept
  refine ⟨x, calls_fullScanStep h ▸ hx, hkept', ?_⟩
  rw [hcopies']
  exact Nat.le_add_left_of_le hcopies

/-- A call of the scan is to come, or the file is there. -/
theorem copies_pos (inv : FullScanInv s) {x : Nat × Text} (hx : x ∈ s.calls) :
    0 < s.copies x := by
  cases List.mem_append.mp hx with
  | inl hgiven =>
      exact Nat.add_pos_left (Nat.lt_of_lt_of_le (List.count_pos_iff.mpr hgiven) (inv.held x)) _
  | inr htodo => exact Nat.add_pos_right _ (List.count_pos_iff.mpr htodo)

theorem doubled_of_disturbed (inv : FullScanInv s) (disturbed : ¬ Undisturbed s a)
    (h : fullScanStep s a = some t) : Doubled t := by
  have hcalls := calls_fullScanStep h
  cases a with
  | register l =>
      simp only [Undisturbed, not_forall] at disturbed
      obtain ⟨x, hstored, hx, hkept⟩ := disturbed
      have hkept : s.Kept x := fun hdeleting =>
        Nat.lt_of_not_le fun hle => hkept ⟨hdeleting, hle⟩
      obtain ⟨hkept', hcopies⟩ := copies_fullScanStep inv h hx hkept
      refine ⟨x, hcalls ▸ hx, hkept', ?_⟩
      have hone : 0 < (registered s (.register l)).toList.count x :=
        List.count_pos_iff.mpr (Option.mem_toList.mpr hstored)
      have := copies_pos inv hx
      omega
  | deleteAll fails =>
      cases fails with
      | false => exact absurd trivial disturbed
      | true =>
          simp only [Undisturbed, not_forall, not_not] at disturbed
          obtain ⟨x, htodo, hle, hheld⟩ := disturbed
          cases fullScanStep_cases h with
          | deleteFailed =>
              refine ⟨x, List.mem_append_right _ htodo, nofun, ?_⟩
              exact Nat.add_le_add (List.count_pos_iff.mpr hheld) (List.count_pos_iff.mpr htodo)
  | deletedAll | insertBatch => exact absurd trivial disturbed

theorem givenOnce_of_single (inv : FullScanInv s) (single : Single s) : GivenOnce s := by
  intro x hx
  have hover : s.Kept x := by
    intro hdeleting
    rw [inv.begun hdeleting] at hx
    cases hx
  have hone := single x (List.mem_append_left _ hx) hover
  have hheld := Nat.lt_of_lt_of_le (List.count_pos_iff.mpr hx) (inv.held x)
  rw [FullScanState.copies] at hone
  omega

/-- Behind the last call nothing is there twice. -/
theorem once_of_over (inv : FullScanInv s) (hover : s.Over) (once : GivenOnce s) :
    s.calls.Nodup ∧ ¬ Doubled s := by
  have hcalls : s.calls = s.given := by rw [FullScanState.calls, hover.2, List.append_nil]
  constructor
  · rw [hcalls, List.nodup_iff_count_le_one]
    intro x
    by_cases hx : x ∈ s.given
    · exact (inv.held x).trans (Nat.le_of_eq (once x hx))
    · rw [List.count_eq_zero.mpr hx]
      exact Nat.zero_le 1
  · rintro ⟨x, hx, -, hcopies⟩
    rw [FullScanState.copies, once x (hcalls ▸ hx), hover.2] at hcopies
    exact absurd hcopies (Nat.not_succ_le_self 1)

end Steps

section Run

variable (scan : FullScan) {files : List Text} (held : List (Nat × Text))

theorem fullScanInv_start (hfiles : ∀ path ∈ files, msGetStorageTypeByFull path = scan.storageType) :
    FullScanInv (scan.start files held) where
  known x hx := by
    obtain ⟨path, hpath, hx⟩ := List.mem_flatMap.mp hx
    obtain ⟨libIndex, hindex, rfl⟩ := List.mem_map.mp hx
    exact ⟨List.mem_range.mp (List.mem_of_mem_filter hindex), hfiles path hpath⟩
  begun _ := rfl
  held _ := Nat.zero_le _

theorem single_start : Single (scan.start files held) :=
  fun x _ hkept => absurd (hkept rfl) (Nat.not_lt_zero x.1)

/-- Without disturbance every file is given once. -/
theorem givenOnce_of_undisturbed
    (hfiles : ∀ path ∈ files, msGetStorageTypeByFull path = scan.storageType)
    (distinct : scan.Distinct files) {labels : List FullScanLabel}
    (undisturbed : Run.EachStep fullScanStep Undisturbed (scan.start files held) labels) :
    Run.Always fullScanStep GivenOnce (scan.start files held) labels :=
  (Run.always_of_eachStep (I := fun s => FullScanInv s ∧ s.calls.Nodup ∧ Single s)
    (fun _ _ _ ⟨inv, hnodup, single⟩ good h =>
      ⟨inv.step h, calls_fullScanStep h ▸ hnodup, single.step inv hnodup good h⟩)
    ⟨fullScanInv_start scan held hfiles, distinct, single_start scan held⟩ undisturbed).mono
      fun _ ⟨inv, _, single⟩ => givenOnce_of_single inv single

/-- A scan that goes through gives every file once only without disturbance. -/
theorem undisturbed_of_givenOnce
    (hfiles : ∀ path ∈ files, msGetStorageTypeByFull path = scan.storageType)
    {labels : List FullScanLabel} {t : FullScanState}
    (hexec : Run.exec fullScanStep (scan.start files held) labels = some t) (hover : t.Over)
    (once : GivenOnce t) :
    scan.Distinct files ∧
      Run.EachStep fullScanStep Undisturbed (scan.start files held) labels := by
  have start := fullScanInv_start scan held hfiles
  have hkeeps : Run.Always fullScanStep
      (fun s => FullScanInv s ∧ s.calls = files.flatMap scan.insertItemBatch)
      (scan.start files held) labels :=
    Run.always_of_step (fun _ _ _ ⟨inv, hcalls⟩ h =>
      ⟨inv.step h, (calls_fullScanStep h).trans hcalls⟩) ⟨start, rfl⟩
  obtain ⟨inv, hcalls⟩ := hkeeps.of_exec hexec
  obtain ⟨hnodup, hend⟩ := once_of_over inv hover once
  rw [hcalls] at hnodup
  refine ⟨hnodup, ?_⟩
  exact (Run.eachStep_of_exec (fun _ _ _ inv _ h => FullScanInv.step inv h)
    (fun _ _ _ inv _ doubled h => doubled.step inv h)
    (fun _ _ _ inv _ disturbed h => doubled_of_disturbed inv disturbed h) start
    (Run.eachStep_of_forall (G := fun _ => True) (fun _ _ => trivial) _) hexec hend).1

end Run

/-- The scan gives no file to a plug-in that has it, and nobody else gives it to the
plug-in again, when the paths are distinct and nothing disturbs the scan. For a scan that
goes through, this is also necessary. -/
theorem fullScan_givenOnce_iff (scan : FullScan) (held : List (Nat × Text)) :
    ∃ enough, ∀ fuel ≥ enough, ∃ files, scan.files fuel = some files ∧
      (ProperTree scan.fs → scan.Distinct files) ∧
      ∀ labels,
        (scan.Distinct files →
          Run.EachStep fullScanStep Undisturbed (scan.start files held) labels →
          Run.Always fullScanStep GivenOnce (scan.start files held) labels) ∧
        ∀ t, Run.exec fullScanStep (scan.start files held) labels = some t → t.Over →
          Run.Always fullScanStep GivenOnce (scan.start files held) labels →
          scan.Distinct files ∧
            Run.EachStep fullScanStep Undisturbed (scan.start files held) labels := by
  refine scan.files_ends.mono ?_
  rintro files ⟨hdistinct, hfiles⟩
  refine ⟨hdistinct, fun labels => ⟨?_, ?_⟩⟩
  · exact fun distinct undisturbed => givenOnce_of_undisturbed scan held hfiles distinct undisturbed
  · intro t hexec hover always
    exact undisturbed_of_givenOnce scan held hfiles hexec hover (always.of_exec hexec)

/-- One plug-in, which accepts every file, and a tree with one file. -/
def smallScan : FullScan where
  storageType := .internal
  root := msRootPathInternal
  stored := .inl ⟨rfl, rfl⟩
  checked := smallTree.fs
  checkStops _ _ := false
  fs := smallTree.fs
  scanStops _ _ := false
  libNum := 1
  accepts _ _ := true

def smallFile : Text := msRootPathInternal ++ "/a/c.mp3".toList

example : Run.EachStep fullScanStep Undisturbed (smallScan.start [smallFile] [(0, smallFile)])
    [.deleteAll false, .deletedAll, .insertBatch] := by
  decide

/-- The inotify thread registers the file after the plug-in has deleted its items. -/
def registersMeanwhile : List FullScanLabel :=
  [.deleteAll false, .deletedAll, .register (.inotify, .call smallFile),
    .register (.inotify, .check false), .register (.inotify, .enter),
    .register (.inotify, .insert .stored), .insertBatch]

/-- The plug-in keeps the file that it has, or it gets the file from another thread. -/
theorem fullScan_givesTwice :
    smallScan.files 10 = some [smallFile] ∧
      ¬ Run.Always fullScanStep GivenOnce (smallScan.start [smallFile] [(0, smallFile)])
        [.deleteAll true, .insertBatch] ∧
      ¬ Run.Always fullScanStep GivenOnce (smallScan.start [smallFile] []) registersMeanwhile := by
  decide

end MediaServer.Scan
