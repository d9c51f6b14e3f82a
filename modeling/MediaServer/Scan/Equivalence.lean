import MediaServer.Scan.Discovery
import MediaServer.Scan.Items

/-!
# Full and partial scans

For a request of type `MS_SCAN_ALL` the scan thread deletes the items of the storage
and inserts every file. For `MS_SCAN_PART` it validates every file, inserting those
that are new, and deletes the items that are still invalid. On one tree both leave the
same items.
-/

namespace MediaServer.Scan

open Polling

section Code

variable (fs : FileSystem) (fuel : Nat)

/-- What `_ms_dir_scan` calls for a file. -/
def scanFile (scanType : ScanType) (plugIns : List PlugIn) (path : Text) : List PlugIn :=
  plugIns.map fun p => if scanType = .part then p.validateItem path else p.insertItemBatch path

/-- `ms_scan_thread` from the deletion of all items to that of the invalid ones, when
nothing stops the scan. -/
def handleScan (scanType : ScanType) (storageType : StorageType) (root : Text)
    (plugIns : List PlugIn) : Option (List PlugIn) :=
  let plugIns :=
    if scanType = .all then plugIns.map fun p => p.deleteAllItems storageType else plugIns
  (Walker.msDirCheck (fun _ _ => false) fs root fuel).map fun walker =>
    let plugIns :=
      scanLoop (fun _ _ => false) fs (scanFile scanType) 0 walker.recorded plugIns
    if scanType = .part then plugIns.map fun p => p.deleteInvalidItems storageType else plugIns

end Code

/-- The path in a request for a storage. -/
def StorageRoot (storageType : StorageType) (root : Text) : Prop :=
  (storageType = .internal ∧ root = msRootPathInternal) ∨
    (storageType = .external ∧ root = msRootPathExternal)

/-- A tree of files with proper names, whose paths the buffers hold whole. -/
structure ProperTree (fs : FileSystem) : Prop where
  fits : ∀ dir, ∀ e ∈ fs.entries dir, ¬ e.hidden →
    (dir ++ '/' :: e.name).length ≤ msFilePathLenMax - 2
  noSlash : ∀ dir, ∀ e ∈ fs.entries dir, '/' ∉ e.name
  distinct : ∀ dir, ((fs.entries dir).map Dirent.name).Nodup

/-- The items of the storage before a scan: none is valid, and none is there twice. -/
structure Invalidated (storageType : StorageType) (p : PlugIn) : Prop where
  invalid : ∀ i ∈ p.itemsOf storageType, ¬ i.valid
  once : ((p.itemsOf storageType).map DbItem.path).Nodup

/-- The plug-in before, after a partial scan and after a full one. -/
structure ScansAgree (storageType : StorageType) (before part full : PlugIn) : Prop where
  paths : ∀ path, (∃ i ∈ part.itemsOf storageType, i.path = path) ↔
    ∃ i ∈ full.itemsOf storageType, i.path = path
  valid : (∀ i ∈ part.itemsOf storageType, i.valid) ∧ ∀ i ∈ full.itemsOf storageType, i.valid
  once : ((part.itemsOf storageType).map DbItem.path).Nodup ∧
    ((full.itemsOf storageType).map DbItem.path).Nodup
  others : ∀ other ≠ storageType, part.itemsOf other = before.itemsOf other ∧
    full.itemsOf other = before.itemsOf other

/-- The files that an undisturbed `_ms_dir_scan` hands over. -/
def handedOver (fs : FileSystem) (nodes : List Text) : List Text := outputs (scanActions fs nodes)

section Files

variable {fs : FileSystem} {root : Text} {nodes : List Text} {storageType : StorageType}

theorem handedOver_eq (fs : FileSystem) (nodes : List Text) :
    handedOver fs nodes = nodes.flatMap fun dir => selected fs (regularFile dir) dir := by
  induction nodes with
  | nil => rfl
  | cons dir nodes ih =>
      rw [handedOver, scanActions, List.flatMap_cons, outputs_append, outputs_dirActions,
        List.flatMap_cons, ← ih]
      rfl

/-- The files of a directory, when their names fit. -/
theorem selected_regularFile (proper : ProperTree fs) (dir : Text) :
    selected fs (regularFile dir) dir =
      if fs.opens dir then
        ((fs.entries dir).filter fun e => !e.hidden && e.isReg).map fun e => dir ++ '/' :: e.name
      else [] := by
  have hentries : ∀ entries : List Dirent, (∀ e ∈ entries, e ∈ fs.entries dir) →
      (entries.filter (¬ ·.hidden)).filterMap (regularFile dir) =
        (entries.filter fun e => !e.hidden && e.isReg).map fun e => dir ++ '/' :: e.name := by
    intro entries hsub
    induction entries with
    | nil => rfl
    | cons e entries ih =>
        have ih := ih fun e he => hsub e (List.mem_cons_of_mem _ he)
        cases hhidden : e.hidden with
        | true => simpa [hhidden] using ih
        | false =>
            have happend := msStrappend_whole
              (proper.fits dir e (hsub e List.mem_cons_self) (by rw [hhidden]; nofun))
            cases hreg : e.isReg with
            | true => simpa [hhidden, regularFile, hreg, happend] using ih
            | false => simpa [hhidden, regularFile, hreg] using ih
  rw [selected, FileSystem.opendir]
  cases fs.opens dir with
  | false => rfl
  | true => exact hentries _ fun _ he => he

/-- A file that is handed over lies in one of the directories. -/
theorem mem_selected {dir path : Text} (proper : ProperTree fs)
    (h : path ∈ selected fs (regularFile dir) dir) :
    ∃ e ∈ fs.entries dir, path = dir ++ '/' :: e.name := by
  rw [selected_regularFile proper] at h
  split at h
  next =>
    obtain ⟨e, he, rfl⟩ := List.mem_map.mp h
    exact ⟨e, List.mem_of_mem_filter he, rfl⟩
  next => cases h

/-- A path without a slash in its last name splits in one way only. -/
theorem split_at_slash {dir dir' name name' : Text} (hname : '/' ∉ name) (hname' : '/' ∉ name')
    (h : dir ++ '/' :: name = dir' ++ '/' :: name') : dir = dir' ∧ name = name' := by
  rcases List.append_eq_append_iff.mp h with ⟨as, hdir, hrest⟩ | ⟨as, hdir, hrest⟩
  · cases as with
    | nil => exact ⟨by simpa using hdir.symm, by simpa using hrest⟩
    | cons c as =>
        obtain ⟨-, rfl⟩ := List.cons.inj hrest
        exact absurd (List.mem_append_right as List.mem_cons_self) hname
  · cases as with
    | nil => exact ⟨by simpa using hdir, by simpa using hrest.symm⟩
    | cons c as =>
        obtain ⟨-, rfl⟩ := List.cons.inj hrest
        exact absurd (List.mem_append_right as List.mem_cons_self) hname'

/-- No file is handed over twice. -/
theorem nodup_handedOver (proper : ProperTree fs) (hnodes : nodes.Nodup) :
    (handedOver fs nodes).Nodup := by
  rw [handedOver_eq, List.nodup_flatMap]
  constructor
  · intro dir _
    rw [selected_regularFile proper]
    split
    · have hnames : (((fs.entries dir).filter fun e => !e.hidden && e.isReg).map
          Dirent.name).Nodup := (proper.distinct dir).sublist (List.filter_sublist.map _)
      have hinjective : Function.Injective fun name : Text => dir ++ '/' :: name :=
        fun _ _ heq => (List.cons.inj (List.append_cancel_left heq)).2
      have hpaths := hnames.map hinjective
      rwa [List.map_map] at hpaths
    · exact List.nodup_nil
  · refine hnodes.imp fun {dir dir'} hne path hpath hpath' => hne ?_
    obtain ⟨e, he, rfl⟩ := mem_selected proper hpath
    obtain ⟨e', he', heq⟩ := mem_selected proper hpath'
    exact (split_at_slash (proper.noSlash dir e he) (proper.noSlash dir' e' he') heq).1

theorem Under.sub {path : Text} (h : Under root path) (name : Text) :
    Under root (path ++ '/' :: name) := by
  refine .inr ?_
  rcases h with rfl | h
  · exact ⟨name, by simp⟩
  · exact h.trans (List.prefix_append _ _)

theorem TakenUp.under {path : Text} (h : TakenUp fs root path) : Under root path := by
  induction h with
  | root => exact .inl rfl
  | @sub path d _ hd ih =>
      rw [joined, (eq_of_mem_subdirectories hd).1]
      exact ih.sub d.2

theorem StorageRoot.length_lt (hroot : StorageRoot storageType root) :
    root.length < msFilePathLenMax - 2 := by
  rcases hroot with ⟨-, rfl⟩ | ⟨-, rfl⟩ <;> decide

/-- What lies below the path of a request belongs to its storage. -/
theorem msGetStorageTypeByFull_of_under (hroot : StorageRoot storageType root) {path : Text}
    (h : Under root path) : msGetStorageTypeByFull path = storageType := by
  have hbegins : root <+: path := by
    rcases h with rfl | h
    · exact List.prefix_refl path
    · exact (List.prefix_append _ _).trans h
  rcases hroot with ⟨rfl, rfl⟩ | ⟨rfl, rfl⟩
  · exact if_pos hbegins
  · exact msGetStorageTypeByFull_of_external hbegins

/-- The files of a scan belong to its storage. -/
theorem storageType_handedOver (proper : ProperTree fs) (hroot : StorageRoot storageType root)
    (hnodes : ∀ dir ∈ nodes, TakenUp fs root dir) :
    ∀ path ∈ handedOver fs nodes, msGetStorageTypeByFull path = storageType := by
  intro path hpath
  rw [handedOver_eq] at hpath
  obtain ⟨dir, hdir, hpath⟩ := List.mem_flatMap.mp hpath
  obtain ⟨e, -, rfl⟩ := mem_selected proper hpath
  exact msGetStorageTypeByFull_of_under hroot ((hnodes dir hdir).under.sub e.name)

end Files

section PlugIns

variable {p : PlugIn} {st : StorageType} {files : List Text}

theorem nodup_msValidateItem {accepts : Text → Bool} {db : List DbItem} (path : Text)
    (h : (db.map DbItem.path).Nodup) :
    ((msValidateItem accepts db path).map DbItem.path).Nodup := by
  rw [msValidateItem]
  split
  · split
    · have hpaths : (db.map fun i => if i.path = path then { i with valid := true } else i).map
          DbItem.path = db.map DbItem.path := by
        rw [List.map_map]
        exact List.map_congr_left fun i _ => validate_path path i
      rwa [hpaths]
    next hnone =>
      rw [List.map_append, List.nodup_append]
      refine ⟨h, List.nodup_cons.mpr ⟨List.not_mem_nil, List.nodup_nil⟩, ?_⟩
      rintro _ hmem _ hpath rfl
      obtain ⟨i, hi, hpath'⟩ := List.mem_map.mp hmem
      exact hnone ⟨i, hi, hpath'.trans (List.mem_singleton.mp hpath)⟩
  · exact h

theorem nodup_foldl_msValidateItem {accepts : Text → Bool} {db : List DbItem}
    (h : (db.map DbItem.path).Nodup) :
    ((files.foldl (msValidateItem accepts) db).map DbItem.path).Nodup := by
  induction files generalizing db with
  | nil => exact h
  | cons path files ih => exact ih (nodup_msValidateItem path h)

theorem itemsOf_foldl_validateItem
    (hfiles : ∀ path ∈ files, msGetStorageTypeByFull path = st) :
    (files.foldl PlugIn.validateItem p).itemsOf st =
      files.foldl (msValidateItem p.accepts) (p.itemsOf st) := by
  induction files generalizing p with
  | nil => rfl
  | cons path files ih =>
      rw [List.foldl_cons, List.foldl_cons, ih fun q hq => hfiles q (List.mem_cons_of_mem _ hq),
        PlugIn.itemsOf_validateItem (hfiles path List.mem_cons_self), PlugIn.validateItem_accepts]

theorem itemsOf_foldl_insertItemBatch
    (hfiles : ∀ path ∈ files, msGetStorageTypeByFull path = st) :
    (files.foldl PlugIn.insertItemBatch p).itemsOf st =
      p.itemsOf st ++ (files.filter p.accepts).map fun path => { path, valid := true } := by
  induction files generalizing p with
  | nil => exact (List.append_nil _).symm
  | cons path files ih =>
      rw [List.foldl_cons, ih fun q hq => hfiles q (List.mem_cons_of_mem _ hq),
        PlugIn.itemsOf_insertItemBatch (hfiles path List.mem_cons_self),
        PlugIn.insertItemBatch_accepts, List.append_assoc]
      cases haccepts : p.accepts path with
      | true => simp [haccepts]
      | false => simp [haccepts]

/-- A fold over files of one storage leaves the others alone. -/
theorem itemsOf_foldl_of_ne {op : PlugIn → Text → PlugIn} {other : StorageType}
    (hop : ∀ p path, msGetStorageTypeByFull path = st → (op p path).itemsOf other = p.itemsOf other)
    (hfiles : ∀ path ∈ files, msGetStorageTypeByFull path = st) :
    (files.foldl op p).itemsOf other = p.itemsOf other := by
  induction files generalizing p with
  | nil => rfl
  | cons path files ih =>
      rw [List.foldl_cons, ih fun q hq => hfiles q (List.mem_cons_of_mem _ hq),
        hop p path (hfiles path List.mem_cons_self)]

/-- Both scans of one plug-in. -/
theorem scansAgree_plugIn (hfiles : ∀ path ∈ files, msGetStorageTypeByFull path = st)
    (hnodup : files.Nodup) (hprior : Invalidated st p) :
    ScansAgree st p ((files.foldl PlugIn.validateItem p).deleteInvalidItems st)
      (files.foldl PlugIn.insertItemBatch (p.deleteAllItems st)) := by
  have hpart : ((files.foldl PlugIn.validateItem p).deleteInvalidItems st).itemsOf st =
      (files.foldl (msValidateItem p.accepts) (p.itemsOf st)).filter (·.valid) := by
    rw [PlugIn.itemsOf_deleteInvalidItems, itemsOf_foldl_validateItem hfiles]
  have hfull : (files.foldl PlugIn.insertItemBatch (p.deleteAllItems st)).itemsOf st =
      (files.filter p.accepts).map fun path => { path, valid := true } := by
    rw [itemsOf_foldl_insertItemBatch hfiles, PlugIn.itemsOf_deleteAllItems, List.nil_append]
    rfl
  constructor
  · intro path
    have hvalid : ¬ ∃ i ∈ p.itemsOf st, i.path = path ∧ i.valid = true := by
      rintro ⟨i, hi, -, hvalid⟩
      exact hprior.invalid i hi hvalid
    have hkept : ∀ db : List DbItem, (∃ i ∈ db.filter (·.valid), i.path = path) ↔
        ∃ i ∈ db, i.path = path ∧ i.valid = true := by
      intro db
      refine exists_congr fun i => ?_
      rw [List.mem_filter, and_assoc, and_comm (a := i.valid = true)]
    rw [hpart, hkept, exists_foldl_msValidateItem (q := fun v => v = true) rfl,
      or_iff_right hvalid, hfull]
    simp
  · rw [hpart, hfull]
    constructor
    · intro i hi
      exact (List.mem_filter.mp hi).2
    · intro i hi
      obtain ⟨path, -, rfl⟩ := List.mem_map.mp hi
      rfl
  · rw [hpart, hfull, List.map_map]
    constructor
    · exact (nodup_foldl_msValidateItem hprior.once).sublist (List.filter_sublist.map _)
    · exact (List.map_id _).symm ▸ hnodup.filter _
  · intro other hne
    rw [PlugIn.itemsOf_deleteInvalidItems_of_ne hne,
      itemsOf_foldl_of_ne (fun p path hpath => PlugIn.itemsOf_validateItem_of_ne hpath hne) hfiles,
      itemsOf_foldl_of_ne (fun p path hpath => PlugIn.itemsOf_insertItemBatch_of_ne hpath hne)
        hfiles, PlugIn.itemsOf_deleteAllItems_of_ne hne]
    exact ⟨rfl, rfl⟩

theorem foldl_map_plugIns (op : PlugIn → Text → PlugIn) (plugIns : List PlugIn) :
    files.foldl (fun plugIns path => plugIns.map fun p => op p path) plugIns =
      plugIns.map fun p => files.foldl op p := by
  induction files generalizing plugIns with
  | nil => exact (List.map_id plugIns).symm
  | cons path files ih => rw [List.foldl_cons, ih, List.map_map]; rfl

end PlugIns

/-- Both kinds of scan end, and each plug-in has the same items of the storage after
either of them. -/
theorem scans_agree (fs : FileSystem) (storageType : StorageType) (root : Text)
    (plugIns : List PlugIn) (hroot : StorageRoot storageType root) (proper : ProperTree fs)
    (invalidated : ∀ p ∈ plugIns, Invalidated storageType p) :
    ∃ enough, ∀ fuel ≥ enough, ∃ part full : PlugIn → PlugIn,
      handleScan fs fuel .part storageType root plugIns = some (plugIns.map part) ∧
        handleScan fs fuel .all storageType root plugIns = some (plugIns.map full) ∧
          ∀ p ∈ plugIns, ScansAgree storageType p (part p) (full p) := by
  have hlength : root.length ≤ msFilePathLenMax := hroot.length_lt.le.trans (Nat.sub_le _ _)
  obtain ⟨enough, henough⟩ := Walker.msDirCheck_ends fs hlength
  refine ⟨enough, fun fuel hfuel => ?_⟩
  obtain ⟨walker, hwalker, ⟨hnodup, htaken⟩, -⟩ := henough fuel hfuel
  set nodes := walker.recorded with hnodes
  have hfiles := storageType_handedOver proper hroot fun dir hdir => (htaken dir).mp hdir
  have hscan : ∀ scanType plugIns, scanLoop (fun _ _ => false) fs (scanFile scanType) 0
      nodes plugIns = plugIns.map fun p => (handedOver fs nodes).foldl (fun p path =>
        if scanType = .part then p.validateItem path else p.insertItemBatch path) p := by
    intro scanType plugIns
    rw [scanLoop_eq, emitted_of_never]
    exact foldl_map_plugIns _ plugIns
  refine ⟨fun p => ((handedOver fs nodes).foldl PlugIn.validateItem p).deleteInvalidItems
      storageType,
    fun p => (handedOver fs nodes).foldl PlugIn.insertItemBatch (p.deleteAllItems storageType),
    ?_, ?_, fun p hp => scansAgree_plugIn hfiles (nodup_handedOver proper hnodup)
      (invalidated p hp)⟩
  · rw [handleScan, hwalker, Option.map_some, ← hnodes, hscan]
    simp only [if_true, reduceCtorEq, if_false, List.map_map]
    rfl
  · rw [handleScan, hwalker, Option.map_some, ← hnodes, hscan]
    simp only [if_true, reduceCtorEq, if_false, List.map_map]
    rfl

theorem entries_smallTree {dir : Text} {e : Dirent} (he : e ∈ smallTree.fs.entries dir) :
    (dir = msRootPathInternal ∨ dir = msRootPathInternal ++ "/a".toList) ∧
      (e.name = "a".toList ∨ e.name = ".b".toList ∨ e.name = "c.mp3".toList) := by
  rw [smallTree] at he
  simp only at he
  split at he
  next hdir =>
    rcases List.mem_cons.mp he with rfl | he
    · exact ⟨.inl hdir, .inl rfl⟩
    · rw [List.mem_singleton.mp he]
      exact ⟨.inl hdir, .inr (.inl rfl)⟩
  next =>
    split at he
    next hdir =>
      rw [List.mem_singleton.mp he]
      exact ⟨.inr hdir, .inr (.inr rfl)⟩
    next => cases he

theorem properTree_smallTree : ProperTree smallTree.fs where
  fits dir e he _ := by
    obtain ⟨rfl | rfl, hname | hname | hname⟩ := entries_smallTree he <;> rw [hname] <;> decide
  noSlash dir e he := by
    obtain ⟨-, hname | hname | hname⟩ := entries_smallTree he <;> rw [hname] <;> decide
  distinct dir := by
    rw [smallTree]
    simp only
    split
    · decide
    · split <;> decide

/-- The file of the tree is new; an item is stale, and another one lies on the card. -/
theorem scans_agree_smallTree :
    let plugIn : PlugIn :=
      { accepts := fun _ => true
        db := [⟨msRootPathInternal ++ "/old.mp3".toList, false⟩,
          ⟨msRootPathExternal ++ "/b.mp3".toList, true⟩] }
    ∃ enough, ∀ fuel ≥ enough, ∃ part full : PlugIn → PlugIn,
      handleScan smallTree.fs fuel .part .internal msRootPathInternal [plugIn] =
          some ([plugIn].map part) ∧
        handleScan smallTree.fs fuel .all .internal msRootPathInternal [plugIn] =
          some ([plugIn].map full) ∧
        ∀ p ∈ [plugIn], ScansAgree .internal p (part p) (full p) := by
  intro plugIn
  refine scans_agree smallTree.fs .internal msRootPathInternal [plugIn] (.inl ⟨rfl, rfl⟩)
    properTree_smallTree ?_
  intro p hp
  rw [List.mem_singleton.mp hp]
  exact ⟨by decide, by decide⟩

end MediaServer.Scan
