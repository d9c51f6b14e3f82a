import MediaServer.Scan.Directory

/-!
# What an incremental scan prunes

For a request of type `MS_SCAN_PART` the scan thread validates every file that
`_ms_dir_scan` hands over and then deletes the items that are still invalid. When
the power goes off it returns instead; when the card is removed it does not,
although `_ms_dir_scan` has given up half-way.
-/

namespace MediaServer.Scan

open Polling

structure DbItem where
  path : Text
  valid : Bool
deriving DecidableEq, Repr

/-- What the tests of the three stages see: in `_ms_dir_check`, in the loops of
`_ms_dir_scan`, and behind it in `ms_scan_thread`. -/
structure Polls where
  check : Nat → Flags
  scan : Nat → Flags
  atEnd : Flags

section Code

variable (accepts : Text → Bool)

/-- `ms_validate_item`; `accepts` says whether the file has a mime type that the
plug-in takes. -/
def msValidateItem (db : List DbItem) (path : Text) : List DbItem :=
  if accepts path then
    if ∃ i ∈ db, i.path = path then
      db.map fun i => if i.path = path then { i with valid := true } else i
    else db ++ [{ path, valid := true }]
  else db

/-- `ms_delete_invalid_items`. -/
def msDeleteInvalidItems (db : List DbItem) : List DbItem := db.filter (·.valid)

/-- `ms_scan_thread` from `_ms_dir_scan` to the end of a partial scan of the
card. -/
def handlePart (fs : FileSystem) (polls : Polls) (fuel : Nat) (db : List DbItem) :
    Option (List DbItem) :=
  (msDirCheck (fails .external polls.check) fs msRootPathExternal fuel).map fun nodes =>
    let db := scanLoop (fails .external polls.scan) fs (msValidateItem accepts) 0 nodes db
    if polls.atEnd.powerOff then db else msDeleteInvalidItems db

end Code

/-- The directories of the card, opened or not, hidden or not. -/
inductive DirOn (fs : FileSystem) : Text → Prop where
  | root : DirOn fs msRootPathExternal
  | sub {dir : Text} {e : Dirent} : DirOn fs dir → e ∈ fs.entries dir → e.isDir →
      DirOn fs (dir ++ '/' :: e.name)

def FileOn (fs : FileSystem) (path : Text) : Prop :=
  ∃ dir e, DirOn fs dir ∧ e ∈ fs.entries dir ∧ e.isReg ∧ path = dir ++ '/' :: e.name

/-- Every file of the card that had an item has one afterwards. -/
def Retains (fs : FileSystem) (db db' : List DbItem) : Prop :=
  ∀ i ∈ db, FileOn fs i.path → ∃ j ∈ db', j.path = i.path

/-- The list of directories when `_ms_dir_check` is cut at its first failing test. -/
def foundDirs (fs : FileSystem) (polls : Polls) : List Text :=
  ((run (fails .external polls.check) 0
    (walkActions fs (msFilePathLenMax + 1) msRootPathExternal)).emitted.map joined).foldl
      msScanAddNode [msRootPathExternal]

/-- The file comes up in one of these directories before a test of `_ms_dir_scan`
fails. -/
def Reached (fs : FileSystem) (polls : Polls) (path : Text) : Prop :=
  Reaches (fails .external polls.scan) 0 (scanActions fs (foundDirs fs polls)) path

/-- The power goes off, or every file of the card whose item was invalid comes up
before the card is removed and is accepted. -/
def PruneCondition (accepts : Text → Bool) (fs : FileSystem) (polls : Polls)
    (db : List DbItem) : Prop :=
  polls.atEnd.powerOff = true ∨
    ∀ i ∈ db, FileOn fs i.path → (∃ j ∈ db, j.path = i.path ∧ j.valid) ∨
      (Reached fs polls i.path ∧ accepts i.path)

section Items

variable {accepts : Text → Bool}

/-- What validation leaves of a path, for a property `q` of the validity that
valid items have. -/
theorem exists_msValidateItem {db : List DbItem} {path p : Text} {q : Bool → Prop} (hq : q true) :
    (∃ j ∈ msValidateItem accepts db path, j.path = p ∧ q j.valid) ↔
      (∃ j ∈ db, j.path = p ∧ q j.valid) ∨ (p = path ∧ accepts p) := by
  rw [msValidateItem]
  by_cases haccepts : accepts path = true
  · rw [if_pos haccepts]
    split
    next hexists =>
      constructor
      · rintro ⟨j, hj, hjp, hvalid⟩
        obtain ⟨i, hi, rfl⟩ := List.mem_map.mp hj
        by_cases hpath : i.path = path
        · rw [if_pos hpath] at hjp
          obtain rfl : path = p := hpath.symm.trans hjp
          exact .inr ⟨rfl, haccepts⟩
        · rw [if_neg hpath] at hjp hvalid
          exact .inl ⟨i, hi, hjp, hvalid⟩
      · rintro (⟨i, hi, rfl, hvalid⟩ | ⟨rfl, -⟩)
        · refine ⟨_, List.mem_map_of_mem hi, ?_⟩
          split
          · exact ⟨rfl, hq⟩
          · exact ⟨rfl, hvalid⟩
        · obtain ⟨i, hi, hpath⟩ := hexists
          refine ⟨_, List.mem_map_of_mem hi, ?_⟩
          rw [if_pos hpath]
          exact ⟨hpath, hq⟩
    next =>
      simp only [List.mem_append, List.mem_singleton, or_and_right, exists_or]
      refine or_congr Iff.rfl ⟨?_, ?_⟩
      · rintro ⟨j, rfl, rfl, -⟩
        exact ⟨rfl, haccepts⟩
      · rintro ⟨rfl, -⟩
        exact ⟨_, rfl, rfl, hq⟩
  · rw [if_neg haccepts]
    refine ⟨.inl, ?_⟩
    rintro (h | ⟨rfl, h⟩)
    · exact h
    · exact absurd h haccepts

theorem exists_foldl_msValidateItem {db : List DbItem} {paths : List Text} {p : Text}
    {q : Bool → Prop} (hq : q true) :
    (∃ j ∈ paths.foldl (msValidateItem accepts) db, j.path = p ∧ q j.valid) ↔
      (∃ j ∈ db, j.path = p ∧ q j.valid) ∨ (p ∈ paths ∧ accepts p) := by
  induction paths generalizing db with
  | nil => simp
  | cons path paths ih =>
      rw [List.foldl_cons, ih, exists_msValidateItem hq, List.mem_cons, or_and_right, or_assoc]

theorem exists_foldl_of_mem {db : List DbItem} {paths : List Text} {i : DbItem} (hi : i ∈ db) :
    ∃ j ∈ paths.foldl (msValidateItem accepts) db, j.path = i.path :=
  ((exists_foldl_msValidateItem (q := fun _ => True) trivial).mpr
    (.inl ⟨i, hi, rfl, trivial⟩)).imp fun _ hj => ⟨hj.1, hj.2.1⟩

end Items

/-- A partial scan terminates, and it leaves every file of the card its item if
and only if `PruneCondition` holds. -/
theorem partScan_retains_iff (accepts : Text → Bool) (fs : FileSystem) (polls : Polls)
    (db : List DbItem) :
    ∃ enough, ∀ fuel ≥ enough, ∃ db', handlePart accepts fs polls fuel db = some db' ∧
      (Retains fs db db' ↔ PruneCondition accepts fs polls db) := by
  have hroot : msRootPathExternal.length ≤ msFilePathLenMax := by decide
  obtain ⟨enough, henough⟩ := msDirCheck_eq (fails .external polls.check) fs hroot
  refine ⟨enough, fun fuel hfuel => ?_⟩
  rw [handlePart, henough fuel hfuel, Option.map_some, scanLoop_eq]
  refine ⟨_, rfl, ?_⟩
  cases hoff : polls.atEnd.powerOff with
  | true => exact iff_of_true (fun i hi _ => exists_foldl_of_mem hi) (.inl hoff)
  | false =>
      simp only [PruneCondition, hoff, Bool.false_eq_true, if_false, false_or]
      refine forall₃_congr fun i hi hfile => ?_
      rw [Reached, ← mem_emitted_iff, ← exists_foldl_msValidateItem (q := fun v => v = true) rfl]
      refine exists_congr fun j => ?_
      rw [msDeleteInvalidItems, List.mem_filter, and_assoc, and_comm (a := j.valid = true)]
      rfl

/-- The card holds one file, and is removed before the first test. -/
def removedCard : FileSystem × Polls :=
  ({ entries := fun dir => if dir = msRootPathExternal then [⟨"a.mp3".toList, 8⟩] else []
     opens := fun _ => true },
    { check := fun _ => {}, scan := fun _ => {}, atEnd := {} })

theorem partScan_prunes :
    let (fs, polls) := removedCard
    let item : DbItem := { path := msRootPathExternal ++ "/a.mp3".toList, valid := false }
    (∀ fuel, handlePart (fun _ => true) fs polls (fuel + 1) [item] = some []) ∧
      ¬ Retains fs [item] [] := by
  refine ⟨fun fuel => rfl, fun h => ?_⟩
  obtain ⟨j, hj, -⟩ := h _ List.mem_cons_self
    ⟨msRootPathExternal, ⟨"a.mp3".toList, 8⟩, .root, by decide, by decide, rfl⟩
  cases hj

end MediaServer.Scan
