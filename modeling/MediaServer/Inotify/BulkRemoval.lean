import MediaServer.Inotify.IgnoreFile
import MediaServer.Inotify.Tree
import MediaServer.Inotify.WatchList

/-!
# The removal of a subtree

When the card goes, the watches and the ignored files of its paths go with it. Both
removals look for the root anywhere in a path. A path that has it is a path of the subtree
only if it has it in front, and there as whole components.
-/

namespace MediaServer.Inotify

theorem Under.isPrefix {root path : Text} (h : Under root path) : root <+: path := by
  cases h with
  | inl heq => exact heq ▸ List.prefix_rfl
  | inr hbelow => exact (List.prefix_append root ['/']).trans hbelow

theorem strstr_of_under {root path : Text} (h : Under root path) :
    strstr path root = true :=
  decide_eq_true h.isPrefix.isInfix

/-- The paths reachable from `latest_ignore_file`, the newest first. -/
def HoldsPaths (s : IgnoreList) (paths : List Text) : Prop :=
  ∃ nodes, s.Reaches nodes ∧ nodes.map DoublyLinked.Node.data = paths

theorem HoldsPaths.unique {s : IgnoreList} {paths paths' : List Text} (h : HoldsPaths s paths)
    (h' : HoldsPaths s paths') : paths = paths' := by
  obtain ⟨nodes, reaches, rfl⟩ := h
  obtain ⟨nodes', reaches', rfl⟩ := h'
  rw [DoublyLinked.Chain.unique reaches reaches']

theorem deleteMmc_holdsPaths {s : IgnoreList} {paths : List Text} (h : HoldsPaths s paths) :
    ∃ s', msInotiDeleteMmcIgnoreFile s = some s' ∧
      HoldsPaths s' (paths.filter fun path => !onCard path) := by
  obtain ⟨nodes, reaches, rfl⟩ := h
  obtain ⟨s', hdelete, reaches'⟩ := msInotiDeleteMmcIgnoreFile_spec reaches
  refine ⟨s', hdelete, _, reaches', ?_⟩
  rw [List.filter_map]
  rfl

/-- What `ms_mmc_removed_handler` does to the two lists. -/
def msMmcRemovedHandler (list : WatchList) (ignore : IgnoreList) :
    Option (WatchList × IgnoreList) := do
  let list ← msInotiRemoveWatchRecursive list msRootPathExternal
  let ignore ← msInotiDeleteMmcIgnoreFile ignore
  return (list, ignore)

/-- A removal of the subtree takes its paths and no others, and the removal of the card
nothing of the internal storage. -/
structure RemovesExactly (root : Text) (list : WatchList) (ignore : IgnoreList)
    (entries : List Watch) (paths : List Text) : Prop where
  watches : ∃ list', msInotiRemoveWatchRecursive list root = some list' ∧
    HoldsEntries list' (entries.filter fun node => ¬ Under root node.name)
  ignored : ∃ ignore', msInotiDeleteMmcIgnoreFile ignore = some ignore' ∧
    HoldsPaths ignore' (paths.filter fun path => ¬ Under msRootPathExternal path)
  internal : root = msRootPathExternal → ∃ list' ignore' entries' paths',
    msMmcRemovedHandler list ignore = some (list', ignore') ∧
      HoldsEntries list' entries' ∧ HoldsPaths ignore' paths' ∧
      (∀ node ∈ entries, msGetStorageTypeByFull node.name = .internal → node ∈ entries') ∧
      ∀ path ∈ paths, msGetStorageTypeByFull path = .internal → path ∈ paths'

/-- A path of the list has the root only in front and as whole components. -/
def OnlyBelow (root : Text) (paths : List Text) : Prop :=
  ∀ path ∈ paths, strstr path root → Under root path

instance (root : Text) (paths : List Text) : Decidable (OnlyBelow root paths) :=
  inferInstanceAs (Decidable (∀ path ∈ paths, strstr path root → Under root path))

theorem filter_eq_filter_iff {α : Type} {f g : α → Bool} {l : List α} :
    l.filter f = l.filter g ↔ ∀ a ∈ l, f a = g a := by
  constructor
  · intro h a ha
    have hf : f a = true ↔ a ∈ l.filter f := by simp [ha]
    have hg : g a = true ↔ a ∈ l.filter g := by simp [ha]
    rw [Bool.eq_iff_iff, hf, hg, h]
  · exact List.filter_congr

theorem filter_strstr_eq_iff {α : Type} (name : α → Text) (root : Text) (l : List α) :
    (l.filter fun a => !strstr (name a) root) = (l.filter fun a => ¬ Under root (name a)) ↔
      OnlyBelow root (l.map name) := by
  rw [filter_eq_filter_iff, OnlyBelow, List.forall_mem_map]
  refine forall₂_congr fun a _ => ?_
  cases hfound : strstr (name a) root with
  | true => simp
  | false =>
      have hnot : ¬ Under root (name a) := fun h => by
        rw [strstr_of_under h] at hfound
        cases hfound
      simp [hnot]

theorem not_under_of_internal {path : Text}
    (h : msGetStorageTypeByFull path = .internal) : ¬ Under msRootPathExternal path := by
  intro hbelow
  have hinternal : msRootPathInternal <+: path := by
    rw [msGetStorageTypeByFull] at h
    split at h
    next hprefix => exact hprefix
    next => split at h <;> cases h
  have hchain := List.prefix_of_prefix_length_le hinternal hbelow.isPrefix (by decide)
  exact absurd hchain (by decide)

section Exact

variable {list : WatchList} {ignore : IgnoreList} {entries : List Watch} {paths : List Text}

theorem removes_watches_iff (hlist : HoldsEntries list entries) (root : Text) :
    (∃ list', msInotiRemoveWatchRecursive list root = some list' ∧
      HoldsEntries list' (entries.filter fun node => ¬ Under root node.name)) ↔
      OnlyBelow root (entries.map Watch.name) := by
  obtain ⟨list', hremove, hholds⟩ := msInotiRemoveWatchRecursive_spec hlist root
  rw [← filter_strstr_eq_iff]
  constructor
  · rintro ⟨other, hother, hexact⟩
    obtain rfl := Option.some.inj (hremove.symm.trans hother)
    exact hholds.unique hexact
  · intro heq
    exact ⟨list', hremove, heq ▸ hholds⟩

theorem removes_ignored_iff (hignore : HoldsPaths ignore paths) :
    (∃ ignore', msInotiDeleteMmcIgnoreFile ignore = some ignore' ∧
      HoldsPaths ignore' (paths.filter fun path => ¬ Under msRootPathExternal path)) ↔
      OnlyBelow msRootPathExternal paths := by
  obtain ⟨ignore', hdelete, hholds⟩ := deleteMmc_holdsPaths hignore
  have hfilter := filter_strstr_eq_iff (fun path : Text => path) msRootPathExternal paths
  rw [List.map_id'] at hfilter
  rw [← hfilter]
  constructor
  · rintro ⟨other, hother, hexact⟩
    obtain rfl := Option.some.inj (hdelete.symm.trans hother)
    exact hholds.unique hexact
  · intro heq
    exact ⟨ignore', hdelete, heq ▸ hholds⟩

/-- A bulk removal is exact if and only if no path has the root inside or continues its last
component. -/
theorem bulkRemoval_exact_iff (hlist : HoldsEntries list entries)
    (hignore : HoldsPaths ignore paths) (root : Text) :
    RemovesExactly root list ignore entries paths ↔
      OnlyBelow root (entries.map Watch.name) ∧ OnlyBelow msRootPathExternal paths := by
  rw [← removes_watches_iff hlist, ← removes_ignored_iff hignore]
  constructor
  · exact fun h => ⟨h.watches, h.ignored⟩
  · rintro ⟨hwatches, hignored⟩
    refine ⟨hwatches, hignored, ?_⟩
    rintro rfl
    obtain ⟨list', hremove, hentries⟩ := hwatches
    obtain ⟨ignore', hdelete, hpaths⟩ := hignored
    refine ⟨list', ignore', _, _, ?_, hentries, hpaths, ?_, ?_⟩
    · simp [msMmcRemovedHandler, hremove, hdelete]
    · intro node hnode hinternal
      have hkept := not_under_of_internal hinternal
      exact List.mem_filter.mpr ⟨hnode, decide_eq_true hkept⟩
    · intro path hpath hinternal
      have hkept := not_under_of_internal hinternal
      exact List.mem_filter.mpr ⟨hpath, decide_eq_true hkept⟩

end Exact

/-- A list of one entry. -/
def watchAlone (name : Text) (wd : Int) : WatchList where
  heap := ⟨[some ⟨⟨name, wd⟩, none⟩]⟩
  first := some 0

theorem watchAlone_holds (name : Text) (wd : Int) :
    HoldsEntries (watchAlone name wd) [⟨name, wd⟩] :=
  ⟨[⟨0, ⟨name, wd⟩⟩], ⟨rfl, none, rfl, rfl⟩, rfl⟩

/-- Watches of both storages, two of the card next to each other and one at the end. -/
def mountedEntries : List Watch :=
  [⟨msDbUpdateNotiPath, 1⟩, ⟨msRootPathInternal, 2⟩, ⟨msRootPathExternal, 3⟩,
    ⟨"/opt/storage/sdcard/a".toList, 4⟩, ⟨"/opt/media/opt".toList, 5⟩,
    ⟨"/opt/storage/sdcard/a/b".toList, 6⟩]

def mountedWatches : WatchList where
  heap := ⟨[some ⟨⟨msDbUpdateNotiPath, 1⟩, some 1⟩, some ⟨⟨msRootPathInternal, 2⟩, some 2⟩,
    some ⟨⟨msRootPathExternal, 3⟩, some 3⟩, some ⟨⟨"/opt/storage/sdcard/a".toList, 4⟩, some 4⟩,
    some ⟨⟨"/opt/media/opt".toList, 5⟩, some 5⟩,
    some ⟨⟨"/opt/storage/sdcard/a/b".toList, 6⟩, none⟩]⟩
  first := some 0

theorem mountedWatches_holds : HoldsEntries mountedWatches mountedEntries :=
  ⟨[⟨0, ⟨msDbUpdateNotiPath, 1⟩⟩, ⟨1, ⟨msRootPathInternal, 2⟩⟩, ⟨2, ⟨msRootPathExternal, 3⟩⟩,
      ⟨3, ⟨"/opt/storage/sdcard/a".toList, 4⟩⟩, ⟨4, ⟨"/opt/media/opt".toList, 5⟩⟩,
      ⟨5, ⟨"/opt/storage/sdcard/a/b".toList, 6⟩⟩],
    ⟨rfl, some 1, rfl, rfl, some 2, rfl, rfl, some 3, rfl, rfl, some 4, rfl, rfl, some 5, rfl, rfl,
      none, rfl, rfl⟩, rfl⟩

/-- Ignored files, the newest first, as the list is walked. -/
def mountedPaths : List Text :=
  ["/opt/storage/sdcard/a/g".toList, "/opt/storage/sdcard/f".toList, "/opt/media/f".toList,
    "/opt/storage/sdcard/e".toList, "/opt/media/e".toList]

def mountedIgnored : IgnoreList where
  heap := ⟨[some ⟨"/opt/media/e".toList, none, some 1⟩,
    some ⟨"/opt/storage/sdcard/e".toList, some 0, some 2⟩,
    some ⟨"/opt/media/f".toList, some 1, some 3⟩,
    some ⟨"/opt/storage/sdcard/f".toList, some 2, some 4⟩,
    some ⟨"/opt/storage/sdcard/a/g".toList, some 3, none⟩]⟩
  latest := some 4

theorem mountedIgnored_holds : HoldsPaths mountedIgnored mountedPaths :=
  ⟨[⟨4, "/opt/storage/sdcard/a/g".toList, none⟩, ⟨3, "/opt/storage/sdcard/f".toList, some 4⟩,
      ⟨2, "/opt/media/f".toList, some 3⟩, ⟨1, "/opt/storage/sdcard/e".toList, some 2⟩,
      ⟨0, "/opt/media/e".toList, some 1⟩],
    ⟨rfl, some 3, rfl, rfl, some 2, rfl, rfl, some 1, rfl, rfl, some 0, rfl, rfl, none, rfl, rfl⟩,
    rfl⟩

/-- The card goes with its watches and its ignored files; those of the internal storage
stay in their order. -/
theorem bulkRemoval_exact_card :
    RemovesExactly msRootPathExternal mountedWatches mountedIgnored mountedEntries
        mountedPaths ∧
      (mountedEntries.filter fun node => ¬ Under msRootPathExternal node.name) =
        [⟨msDbUpdateNotiPath, 1⟩, ⟨msRootPathInternal, 2⟩, ⟨"/opt/media/opt".toList, 5⟩] ∧
      (mountedPaths.filter fun path => ¬ Under msRootPathExternal path) =
        ["/opt/media/f".toList, "/opt/media/e".toList] :=
  ⟨(bulkRemoval_exact_iff mountedWatches_holds mountedIgnored_holds _).mpr (by decide), by decide,
    by decide⟩

/-- A directory of the internal storage loses its watch with the card. -/
theorem bulkRemoval_inexact :
    ¬ RemovesExactly msRootPathExternal
      (watchAlone ("/opt/media/opt/storage/sdcard/x".toList) 1) {}
      [⟨"/opt/media/opt/storage/sdcard/x".toList, 1⟩] [] := by
  intro h
  have honly := (removes_watches_iff (watchAlone_holds _ _) _).mp h.watches
  have hbelow := honly _ (List.mem_singleton.mpr rfl) (by decide)
  exact absurd hbelow (by decide)

end MediaServer.Inotify
