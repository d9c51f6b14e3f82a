import MediaServer.Scan.Prune

/-!
# The items of the plug-ins

What the calls of a scan do to the items of a plug-in when they succeed. An item
belongs to the storage of its path, which is what every call that names a path passes
to the plug-in.
-/

namespace MediaServer.Scan

/-- The storage of an item. -/
def DbItem.storageType (i : DbItem) : StorageType := msGetStorageTypeByFull i.path

structure PlugIn where
  /-- The file has a mime type, and `CHECK_ITEM` takes it. -/
  accepts : Text → Bool
  db : List DbItem := []

namespace PlugIn

variable (p : PlugIn) (st : StorageType)

def itemsOf : List DbItem := p.db.filter fun i => i.storageType = st

/-- The body of the loop of `ms_validate_item`. -/
def validateItem (path : Text) : PlugIn := { p with db := msValidateItem p.accepts p.db path }

/-- The body of the loop of `ms_insert_item_batch`. The plug-in does not look for an
item of the path. -/
def insertItemBatch (path : Text) : PlugIn :=
  if p.accepts path then { p with db := p.db ++ [{ path, valid := true }] } else p

/-- The body of the loop of `ms_invalidate_all_items`. -/
def invalidateAllItems : PlugIn :=
  { p with db := p.db.map fun i => if i.storageType = st then { i with valid := false } else i }

/-- The body of the loop of `ms_delete_all_items`. -/
def deleteAllItems : PlugIn := { p with db := p.db.filter fun i => i.storageType ≠ st }

/-- The body of the loop of `ms_delete_invalid_items`. -/
def deleteInvalidItems : PlugIn :=
  { p with db := p.db.filter fun i => i.storageType ≠ st ∨ i.valid }

end PlugIn

section Items

variable {p : PlugIn} {st other : StorageType} {path : Text}

@[simp] theorem PlugIn.validateItem_accepts : (p.validateItem path).accepts = p.accepts := rfl

@[simp] theorem PlugIn.insertItemBatch_accepts :
    (p.insertItemBatch path).accepts = p.accepts := by
  rw [insertItemBatch]
  split <;> rfl

/-- A change of the items that keeps their paths keeps their storages. -/
theorem filter_map_storage {f : DbItem → DbItem} (hf : ∀ i, (f i).path = i.path)
    (db : List DbItem) (st : StorageType) :
    (db.map f).filter (fun i => i.storageType = st) =
      (db.filter fun i => i.storageType = st).map f := by
  rw [List.filter_map]
  congr 1
  refine List.filter_congr fun i _ => ?_
  rw [Function.comp_apply, DbItem.storageType, hf]
  rfl

theorem validate_path (path : Text) (i : DbItem) :
    (if i.path = path then { i with valid := true } else i).path = i.path := by
  split <;> rfl

theorem invalidate_path (st : StorageType) (i : DbItem) :
    (if i.storageType = st then { i with valid := false } else i).path = i.path := by
  split <;> rfl

/-- The items of a storage are validated as if there were no others. -/
theorem filter_msValidateItem {accepts : Text → Bool} {db : List DbItem}
    (hpath : msGetStorageTypeByFull path = st) :
    (msValidateItem accepts db path).filter (fun i => i.storageType = st) =
      msValidateItem accepts (db.filter fun i => i.storageType = st) path := by
  have hmem : (∃ i ∈ db.filter (fun i => i.storageType = st), i.path = path) ↔
      ∃ i ∈ db, i.path = path := by
    refine exists_congr fun i => and_congr_left fun hi => ?_
    rw [List.mem_filter, and_iff_left_iff_imp, DbItem.storageType, hi, hpath]
    exact fun _ => decide_eq_true rfl
  rw [msValidateItem, msValidateItem]
  simp only [hmem]
  split
  · split
    · exact filter_map_storage (validate_path path) db st
    · rw [List.filter_append]
      congr 1
      simp [DbItem.storageType, hpath]
  · rfl

theorem filter_msValidateItem_of_ne {accepts : Text → Bool} {db : List DbItem}
    (hpath : msGetStorageTypeByFull path = st) (hne : other ≠ st) :
    (msValidateItem accepts db path).filter (fun i => i.storageType = other) =
      db.filter fun i => i.storageType = other := by
  rw [msValidateItem]
  split
  · split
    · rw [filter_map_storage (validate_path path)]
      refine (List.map_congr_left fun i hi => if_neg ?_).trans (List.map_id _)
      rintro rfl
      have hstorage : i.storageType = other := by simpa using (List.mem_filter.mp hi).2
      exact hne (hstorage.symm.trans hpath)
    · rw [List.filter_append, List.filter_singleton]
      simp [DbItem.storageType, hpath, hne.symm]
  · rfl

theorem PlugIn.itemsOf_validateItem (hpath : msGetStorageTypeByFull path = st) :
    (p.validateItem path).itemsOf st = msValidateItem p.accepts (p.itemsOf st) path :=
  filter_msValidateItem hpath

theorem PlugIn.itemsOf_validateItem_of_ne (hpath : msGetStorageTypeByFull path = st)
    (hne : other ≠ st) : (p.validateItem path).itemsOf other = p.itemsOf other :=
  filter_msValidateItem_of_ne hpath hne

theorem PlugIn.itemsOf_insertItemBatch (hpath : msGetStorageTypeByFull path = st) :
    (p.insertItemBatch path).itemsOf st =
      p.itemsOf st ++ if p.accepts path then [{ path, valid := true }] else [] := by
  rw [insertItemBatch]
  split
  · simp [itemsOf, DbItem.storageType, hpath]
  · exact (List.append_nil _).symm

theorem PlugIn.itemsOf_insertItemBatch_of_ne (hpath : msGetStorageTypeByFull path = st)
    (hne : other ≠ st) : (p.insertItemBatch path).itemsOf other = p.itemsOf other := by
  rw [insertItemBatch]
  split
  · simp [itemsOf, DbItem.storageType, hpath, hne.symm]
  · rfl

theorem PlugIn.itemsOf_invalidateAllItems :
    (p.invalidateAllItems st).itemsOf st =
      (p.itemsOf st).map fun i => { i with valid := false } := by
  rw [itemsOf, invalidateAllItems, filter_map_storage (invalidate_path st)]
  refine List.map_congr_left fun i hi => if_pos ?_
  simpa using (List.mem_filter.mp hi).2

theorem PlugIn.itemsOf_invalidateAllItems_of_ne (hne : other ≠ st) :
    (p.invalidateAllItems st).itemsOf other = p.itemsOf other := by
  rw [itemsOf, invalidateAllItems, filter_map_storage (invalidate_path st)]
  refine (List.map_congr_left fun i hi => if_neg ?_).trans (List.map_id _)
  have hstorage : i.storageType = other := by simpa using (List.mem_filter.mp hi).2
  exact hstorage ▸ hne

theorem PlugIn.itemsOf_deleteAllItems : (p.deleteAllItems st).itemsOf st = [] := by
  simp [itemsOf, deleteAllItems]

theorem PlugIn.itemsOf_deleteAllItems_of_ne (hne : other ≠ st) :
    (p.deleteAllItems st).itemsOf other = p.itemsOf other := by
  rw [itemsOf, deleteAllItems, itemsOf, List.filter_filter]
  refine List.filter_congr fun i _ => ?_
  by_cases hother : i.storageType = other
  · simp [hother, hne]
  · simp [hother]

theorem PlugIn.itemsOf_deleteInvalidItems :
    (p.deleteInvalidItems st).itemsOf st = (p.itemsOf st).filter (·.valid) := by
  rw [itemsOf, deleteInvalidItems, itemsOf, List.filter_filter, List.filter_filter]
  refine List.filter_congr fun i _ => ?_
  by_cases hst : i.storageType = st
  · simp [hst]
  · simp [hst]

theorem PlugIn.itemsOf_deleteInvalidItems_of_ne (hne : other ≠ st) :
    (p.deleteInvalidItems st).itemsOf other = p.itemsOf other := by
  rw [itemsOf, deleteInvalidItems, itemsOf, List.filter_filter]
  refine List.filter_congr fun i _ => ?_
  by_cases hother : i.storageType = other
  · simp [hother, hne]
  · simp [hother]

end Items

end MediaServer.Scan
