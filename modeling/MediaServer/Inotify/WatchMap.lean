import MediaServer.Inotify.Walk
import MediaServer.Inotify.WatchList
import Mathlib.Logic.Function.Basic

/-!
# The watch list as a map

The entries should stand for a finite map from names to watch descriptors that keeps the
order in which it has been filled. The head of the list is where they do not.
-/

namespace MediaServer.Inotify

open SinglyLinked

/-- What the watch list is for: the descriptor of each watched name, and the names in their
order. -/
structure WatchMap where
  wd : Text → Option Int := fun _ => none
  names : List Text := []

namespace WatchMap

def add (m : WatchMap) (path : Text) (wd : Int) : WatchMap :=
  if m.wd path = none ∧ wd > 0 then
    { wd := Function.update m.wd path (some wd), names := m.names ++ [path] }
  else m

def remove (m : WatchMap) (path : Text) : WatchMap :=
  { wd := Function.update m.wd path none, names := m.names.filter (· ≠ path) }

/-- The entry keeps its descriptor and its place. -/
def rename (m : WatchMap) (pathFrom pathTo : Text) (wd : Int) : WatchMap where
  wd := Function.update (Function.update m.wd pathFrom none) pathTo (some wd)
  names := m.names.map fun name => if name = pathFrom then pathTo else name

def modify (m : WatchMap) (pathFrom pathTo : Text) (wd : Int) : WatchMap :=
  match m.wd pathFrom with
  | some old => m.rename pathFrom pathTo old
  | none => m.add pathTo wd

end WatchMap

/-- The calls, each with the result of `inotify_add_watch` that it gets if it asks for
one. -/
inductive WatchOp where
  | addWatch (path : Text) (wd : Int)
  | addWatchWithNode (node : List Text) (wd : Int)
  | removeWatch (path : Text)
  | modifyWatch (pathFrom pathTo : Text) (wd : Int)

def WatchOp.apply (s : WatchList) : WatchOp → Option WatchList
  | .addWatch path wd => msInotiAddWatch s path wd
  | .addWatchWithNode node wd => msInotiAddWatchWithNode s node wd
  | .removeWatch path => msInotiRemoveWatch s path
  | .modifyWatch pathFrom pathTo wd => msInotiModifyWatch s pathFrom pathTo wd

def WatchOp.onMap (m : WatchMap) : WatchOp → WatchMap
  | .addWatch path wd => m.add path wd
  | .addWatchWithNode node wd => ((msGetFullPathFromNode node).map (m.add · wd)).getD m
  | .removeWatch path => m.remove path
  | .modifyWatch pathFrom pathTo wd => m.modify pathFrom pathTo wd

/-- The list beside the map that it should be. The list is `none` after a fault. -/
structure Watching where
  list : Option WatchList := some {}
  map : WatchMap := {}

def watchingStep (s : Watching) (op : WatchOp) : Option Watching :=
  some { list := s.list.bind fun list => op.apply list, map := op.onMap s.map }

structure Represents (entries : List Watch) (m : WatchMap) : Prop where
  names : entries.map Watch.name = m.names
  nodup : m.names.Nodup
  wd : ∀ name wd, m.wd name = some wd ↔ ⟨name, wd⟩ ∈ entries

/-- No fault so far, and the names of the list are distinct and stand for the map. -/
def Refines (s : Watching) : Prop :=
  ∃ list entries, s.list = some list ∧ HoldsEntries list entries ∧ Represents entries s.map

/-- Before a removal or a renaming there is an entry, and the entry renamed is not the first
one and does not get the name of another. -/
def SparesHead (s : Watching) : WatchOp → Prop
  | .addWatch _ _ | .addWatchWithNode _ _ => True
  | .removeWatch _ => s.map.names ≠ []
  | .modifyWatch pathFrom pathTo _ =>
      s.map.names ≠ [] ∧
        (pathFrom ∈ s.map.names → pathTo ≠ pathFrom →
          s.map.names.head? ≠ some pathFrom ∧ pathTo ∉ s.map.names)

section Represents

variable {entries : List Watch} {m : WatchMap} {path pathFrom pathTo : Text} {wd : Int}

theorem Represents.wd_eq_none_iff (h : Represents entries m) :
    m.wd path = none ↔ path ∉ m.names := by
  rw [← h.names, Option.eq_none_iff_forall_ne_some]
  constructor
  · intro hnone hmem
    obtain ⟨node, hnode, rfl⟩ := List.mem_map.mp hmem
    exact hnone node.wd ((h.wd _ _).mpr hnode)
  · exact fun hnot wd hwd => hnot (List.mem_map_of_mem ((h.wd _ _).mp hwd))

theorem Represents.exists_iff (h : Represents entries m) :
    (∃ node ∈ entries, node.name = path) ↔ path ∈ m.names := by
  rw [← h.names, List.mem_map]

theorem Represents.add (h : Represents entries m) :
    Represents (addEntry path wd entries) (m.add path wd) := by
  rw [addEntry, WatchMap.add]
  by_cases hpath : ∃ node ∈ entries, node.name = path
  · have hsome : ¬ m.wd path = none :=
      h.wd_eq_none_iff.not.mpr (not_not.mpr (h.exists_iff.mp hpath))
    rw [if_pos hpath, if_neg fun hadd => hsome hadd.1]
    exact h
  · have hnot : path ∉ m.names := mt h.exists_iff.mpr hpath
    have hnone : m.wd path = none := h.wd_eq_none_iff.mpr hnot
    rw [if_neg hpath]
    by_cases hwd : wd > 0
    · rw [if_pos hwd, if_pos ⟨hnone, hwd⟩]
      refine ⟨by simp [h.names], ?_, fun name wd' => ?_⟩
      · exact List.nodup_append.mpr ⟨h.nodup, List.nodup_singleton _, by
          intro name hname other hother
          rw [List.mem_singleton.mp hother]
          exact fun heq => hnot (heq ▸ hname)⟩
      · show Function.update m.wd path (some wd) name = some wd' ↔ _
        rw [List.mem_append, List.mem_singleton, ← h.wd, Function.update_apply, Watch.mk.injEq]
        by_cases hname : name = path
        · subst hname
          simp [hnone, eq_comm]
        · simp [hname]
    · rw [if_neg hwd, if_neg fun hadd => hwd hadd.2]
      exact h

theorem Represents.remove (h : Represents entries m) :
    Represents (entries.eraseP fun node => node.name = path) (m.remove path) := by
  rw [eraseP_eq_filter (countP_name_le_one (h.names ▸ h.nodup))]
  refine ⟨?_, h.nodup.filter _, fun name wd => ?_⟩
  · rw [WatchMap.remove, ← h.names, List.filter_map]
    refine congrArg _ (List.filter_congr fun node _ => ?_)
    simp
  · show Function.update m.wd path none name = some wd ↔ _
    rw [List.mem_filter, ← h.wd, Function.update_apply]
    by_cases hname : name = path
    · simp [hname]
    · simp [hname]

theorem Represents.rename (h : Represents entries m) (hfrom : m.wd pathFrom = some wd)
    (hto : pathTo ∉ m.names) :
    Represents (entries.map (retitleOne pathFrom pathTo)) (m.rename pathFrom pathTo wd) := by
  have hother : ∀ node ∈ entries, node.name ≠ pathTo := fun node hnode heq =>
    hto (h.exists_iff.mp ⟨node, hnode, heq⟩)
  refine ⟨?_, ?_, fun name wd' => ?_⟩
  · rw [WatchMap.rename, ← h.names, List.map_map, List.map_map]
    refine List.map_congr_left fun node _ => ?_
    simp only [Function.comp, retitleOne]
    split <;> rfl
  · refine h.nodup.map_on fun name hname name' hname' heq => ?_
    split at heq <;> split at heq
    · next h₁ h₂ => rw [h₁, h₂]
    · exact absurd (heq ▸ hname') hto
    · exact absurd (heq ▸ hname) hto
    · exact heq
  · show Function.update (Function.update m.wd pathFrom none) pathTo (some wd) name = some wd' ↔ _
    rw [Function.update_apply, Function.update_apply, List.mem_map]
    constructor
    · intro hname
      split at hname
      next hnew =>
        obtain rfl := Option.some.inj hname
        exact ⟨⟨pathFrom, wd⟩, (h.wd _ _).mp hfrom, by rw [retitleOne, if_pos rfl, hnew]⟩
      next hnew =>
        split at hname
        next => cases hname
        next hold => exact ⟨⟨name, wd'⟩, (h.wd _ _).mp hname, if_neg hold⟩
    · rintro ⟨node, hnode, heq⟩
      rw [retitleOne] at heq
      split at heq
      next hold =>
        obtain ⟨rfl, rfl⟩ := Watch.mk.inj heq
        have hwd := (h.wd node.name node.wd).mpr hnode
        rw [hold, hfrom] at hwd
        rw [if_pos rfl, hwd]
      next hold =>
        obtain rfl := heq
        rw [if_neg (hother _ hnode), if_neg hold]
        exact (h.wd name wd').mpr hnode

/-- A name that the list does not have is added. -/
theorem modifyEntry_of_absent (h : ∀ node ∈ entries, node.name ≠ pathFrom) :
    modifyEntry pathFrom pathTo wd entries = addEntry pathTo wd entries := by
  cases entries with
  | nil => rfl
  | cons head rest =>
      have hrest : ¬ ∃ node ∈ rest, node.name = pathFrom := fun ⟨node, hnode, heq⟩ =>
        h node (List.mem_cons_of_mem _ hnode) heq
      rw [modifyEntry, if_neg (h head List.mem_cons_self), if_neg hrest]

theorem modifyEntry_self (h : ∃ node ∈ entries, node.name = path) :
    modifyEntry path path wd entries = entries := by
  cases entries with
  | nil =>
      obtain ⟨node, hnode, -⟩ := h
      cases hnode
  | cons head rest =>
      rw [modifyEntry, renameFirst_self, addEntry, if_pos h]
      split
      · rfl
      · split <;> rfl

theorem modifyEntry_of_present (hnodup : (entries.map Watch.name).Nodup)
    (hpresent : ∃ node ∈ entries, node.name = pathFrom)
    (hhead : ∀ node ∈ entries.head?, node.name ≠ pathFrom) :
    modifyEntry pathFrom pathTo wd entries = entries.map (retitleOne pathFrom pathTo) := by
  cases entries with
  | nil =>
      obtain ⟨node, hnode, -⟩ := hpresent
      cases hnode
  | cons head rest =>
      have hname : head.name ≠ pathFrom := hhead head rfl
      have hrest : ∃ node ∈ rest, node.name = pathFrom := by
        obtain ⟨node, hnode, heq⟩ := hpresent
        cases List.mem_cons.mp hnode with
        | inl hfirst => exact absurd (hfirst ▸ heq) hname
        | inr hnode => exact ⟨node, hnode, heq⟩
      have hcount : rest.countP (fun node => node.name = pathFrom) ≤ 1 :=
        countP_name_le_one (List.nodup_cons.mp hnodup).2
      rw [modifyEntry, if_neg hname, if_pos hrest, renameFirst_eq_map hcount, List.map_cons,
        retitleOne, if_neg hname]

theorem Represents.modify (h : Represents entries m)
    (good : pathFrom ∈ m.names → pathTo ≠ pathFrom →
      m.names.head? ≠ some pathFrom ∧ pathTo ∉ m.names) :
    Represents (modifyEntry pathFrom pathTo wd entries) (m.modify pathFrom pathTo wd) := by
  cases hold : m.wd pathFrom with
  | none =>
      have habsent : ∀ node ∈ entries, node.name ≠ pathFrom := fun node hnode heq =>
        h.wd_eq_none_iff.mp hold (h.exists_iff.mp ⟨node, hnode, heq⟩)
      simp only [WatchMap.modify, hold]
      rw [modifyEntry_of_absent habsent]
      exact h.add
  | some old =>
      have hpresent : ∃ node ∈ entries, node.name = pathFrom :=
        ⟨⟨pathFrom, old⟩, (h.wd _ _).mp hold, rfl⟩
      simp only [WatchMap.modify, hold]
      by_cases hself : pathTo = pathFrom
      · subst hself
        have hsame : m.rename pathTo pathTo old = m := by
          have hnames : (m.names.map fun name => if name = pathTo then pathTo else name) =
              m.names := by
            refine (List.map_congr_left fun name _ => ?_).trans (List.map_id _)
            split
            next heq => exact heq.symm
            next => rfl
          rw [WatchMap.rename, Function.update_idem, ← hold, Function.update_eq_self, hnames]
        rw [modifyEntry_self hpresent, hsame]
        exact h
      · obtain ⟨hhead, hto⟩ := good (h.exists_iff.mp hpresent) hself
        have hfirst : ∀ node ∈ entries.head?, node.name ≠ pathFrom := by
          intro node hnode heq
          rw [← h.names, List.head?_map, Option.mem_def.mp hnode] at hhead
          exact hhead (congrArg some heq)
        rw [modifyEntry_of_present (h.names ▸ h.nodup) hpresent hfirst]
        exact h.rename hold hto

end Represents

section Step

variable {list : WatchList} {entries : List Watch} {m : WatchMap}

/-- What a call does to a list that stands for a map. -/
theorem apply_represents (hlist : HoldsEntries list entries) (h : Represents entries m)
    (op : WatchOp) (good : SparesHead { list := some list, map := m } op) :
    ∃ list' entries', op.apply list = some list' ∧ HoldsEntries list' entries' ∧
      Represents entries' (op.onMap m) := by
  have hne : m.names ≠ [] → entries ≠ [] := by
    rintro hm rfl
    exact hm h.names.symm
  cases op with
  | addWatch path wd =>
      obtain ⟨list', hadd, hholds⟩ := msInotiAddWatch_spec hlist path wd
      exact ⟨list', _, hadd, hholds, h.add⟩
  | addWatchWithNode node wd =>
      simp only [WatchOp.apply, WatchOp.onMap, msInotiAddWatchWithNode]
      cases msGetFullPathFromNode node with
      | none => exact ⟨list, entries, rfl, hlist, h⟩
      | some fullPath =>
          obtain ⟨list', hadd, hholds⟩ := msInotiAddWatch_spec hlist fullPath wd
          exact ⟨list', _, hadd, hholds, h.add⟩
  | removeWatch path =>
      obtain ⟨list', hremove, hholds⟩ := msInotiRemoveWatch_spec hlist (hne good) path
      exact ⟨list', _, hremove, hholds, h.remove⟩
  | modifyWatch pathFrom pathTo wd =>
      obtain ⟨hfirst, hmodify⟩ := good
      obtain ⟨list', happly, hholds⟩ :=
        msInotiModifyWatch_spec hlist (hne hfirst) pathFrom pathTo wd
      exact ⟨list', _, happly, hholds, h.modify hmodify⟩

theorem watchingStep_refines {s t : Watching} {op : WatchOp} (h : Refines s)
    (good : SparesHead s op) (step : watchingStep s op = some t) : Refines t := by
  obtain ⟨list, m⟩ := s
  obtain ⟨list, entries, rfl, hlist, hmap⟩ := h
  obtain ⟨list', entries', happly, hlist', hmap'⟩ := apply_represents hlist hmap op good
  obtain rfl := Option.some.inj step
  exact ⟨list', entries', happly, hlist', hmap'⟩

/-- The head has nothing behind it to be read from. -/
theorem apply_of_nil (hlist : HoldsEntries list []) :
    (∀ path, msInotiRemoveWatch list path = none) ∧
      ∀ pathFrom pathTo wd, msInotiModifyWatch list pathFrom pathTo wd = none := by
  obtain ⟨nodes, reaches, hnodes⟩ := hlist
  obtain rfl := List.map_eq_nil_iff.mp hnodes
  have hfirst : list.first = none := reaches
  constructor
  · intro path
    simp [msInotiRemoveWatch, hfirst]
  · intro pathFrom pathTo wd
    simp [msInotiModifyWatch, hfirst]

/-- Neither the head nor the name of another entry can be given up. -/
theorem not_represents_of_modify {pathFrom pathTo : Text} {wd : Int}
    (h : Represents entries m) (hfrom : pathFrom ∈ m.names) (hne : pathTo ≠ pathFrom)
    (hbad : m.names.head? = some pathFrom ∨ pathTo ∈ m.names) :
    ¬ Represents (modifyEntry pathFrom pathTo wd entries) (m.modify pathFrom pathTo wd) := by
  intro h'
  obtain ⟨old, hold⟩ := Option.ne_none_iff_exists'.mp (h.wd_eq_none_iff.not.mpr (not_not.mpr hfrom))
  have hmap : m.modify pathFrom pathTo wd = m.rename pathFrom pathTo old := by
    simp only [WatchMap.modify, hold]
  rw [hmap] at h'
  cases hbad with
  | inl hhead =>
      rw [← h.names] at hhead
      cases entries with
      | nil => cases hhead
      | cons head rest =>
          have hname : head.name = pathFrom := Option.some.inj hhead
          have hnames := h'.names
          rw [modifyEntry, if_pos hname, WatchMap.rename, ← h.names] at hnames
          have hfirst := congrArg List.head? hnames
          simp only [List.map_cons, hname, if_pos, List.head?_cons] at hfirst
          have hkeep : ((addEntry pathTo wd (head :: rest)).map Watch.name).head? =
              some pathFrom := by
            rw [addEntry]
            split
            next => simp [hname]
            next => split <;> simp [hname]
          exact hne (Option.some.inj (hfirst.symm.trans hkeep))
  | inr hto =>
      have hinj := List.inj_on_of_nodup_map h'.nodup hfrom hto
      exact hne (hinj (by simp)).symm

theorem not_refines_of_not_sparesHead {s t : Watching} {op : WatchOp} (h : Refines s)
    (bad : ¬ SparesHead s op) (step : watchingStep s op = some t) : ¬ Refines t := by
  obtain ⟨list, m⟩ := s
  obtain ⟨list, entries, rfl, hlist, hmap⟩ := h
  obtain rfl := Option.some.inj step
  rintro ⟨list', entries', happly, hlist', hmap'⟩
  have hnil : m.names = [] → entries = [] := fun hm => List.map_eq_nil_iff.mp (hmap.names.trans hm)
  cases op with
  | addWatch path wd => exact bad trivial
  | addWatchWithNode node wd => exact bad trivial
  | removeWatch path =>
      obtain rfl := hnil (not_not.mp bad)
      exact nomatch ((apply_of_nil hlist).1 path).symm.trans happly
  | modifyWatch pathFrom pathTo wd =>
      by_cases hm : m.names = []
      · obtain rfl := hnil hm
        exact nomatch ((apply_of_nil hlist).2 pathFrom pathTo wd).symm.trans happly
      · have hne : entries ≠ [] := fun he => hm (by rw [← hmap.names, he]; rfl)
        obtain ⟨list'', happly', hlist''⟩ := msInotiModifyWatch_spec hlist hne pathFrom pathTo wd
        obtain rfl := Option.some.inj (happly'.symm.trans happly)
        obtain rfl := hlist'.unique hlist''
        have hbad : pathFrom ∈ m.names ∧ pathTo ≠ pathFrom ∧
            (m.names.head? = some pathFrom ∨ pathTo ∈ m.names) := by
          by_contra hgood
          refine bad ⟨hm, fun hfrom hother => ⟨fun hhead => ?_, fun hto => ?_⟩⟩
          · exact hgood ⟨hfrom, hother, .inl hhead⟩
          · exact hgood ⟨hfrom, hother, .inr hto⟩
        exact not_represents_of_modify hmap hbad.1 hbad.2.1 hbad.2.2 hmap'

theorem refines_init : Refines {} := by
  refine ⟨{}, [], rfl, ⟨[], rfl, rfl⟩, rfl, List.nodup_nil, fun name wd => ?_⟩
  constructor <;> intro h <;> cases h

end Step

/-- The list stands for the map throughout a run exactly as long as no step removes or
renames in an empty list, renames the head, or gives an entry the name of another. -/
theorem watchList_refines_iff (ops : List WatchOp) :
    Run.Always watchingStep Refines {} ops ↔ Run.EachStep watchingStep SparesHead {} ops :=
  Run.always_iff_eachStep (fun _ _ _ => watchingStep_refines) (fun _ h => h)
    (fun _ _ _ => not_refines_of_not_sparesHead) refines_init

/-- `ms_inoti_remove_watch` reads the name of a head that is not there, and
`ms_inoti_modify_watch` leaves the name of the head and adds a second entry. -/
theorem watchList_not_refined :
    ¬ Run.Always watchingStep Refines {} [.removeWatch ("/opt/media".toList)] ∧
    ¬ Run.Always watchingStep Refines {}
        [.addWatch ("/opt/media".toList) 1,
          .modifyWatch ("/opt/media".toList) ("/opt/photo".toList) 2] := by
  have hgood : ∀ ops, Run.Always watchingStep Refines {} ops →
      Run.EachStep watchingStep SparesHead {} ops := fun _ =>
    Run.eachStep_of_always (fun _ _ _ => watchingStep_refines)
      (fun _ _ _ => not_refines_of_not_sparesHead) refines_init
  constructor
  · intro h
    obtain ⟨hremove, -⟩ := hgood _ h _ rfl
    exact hremove rfl
  · intro h
    obtain ⟨-, hrest⟩ := hgood _ h _ rfl
    obtain ⟨⟨-, hmodify⟩, -⟩ := hrest _ rfl
    exact (hmodify (by decide) (by decide)).1 (by decide)

end MediaServer.Inotify
