import MediaServer.Foundation.Run
import MediaServer.Foundation.SinglyLinked
import MediaServer.Inotify.Thread

/-!
# The watch list in the heap

`first_inoti_node` heads a singly linked list of the watched directories. Its operations
treat the head apart: removing it leaves its node allocated, and renaming it only looks as
if the entry had been found.

The list is to represent a map from the name of a directory to its watch descriptor,
together with the order of its entries.
-/

namespace MediaServer.Inotify

open SinglyLinked

/-- The nodes of type `ms_inoti_dir_data`, held by `first_inoti_node`. The copy of the name
lives and dies with its node. -/
abbrev WatchList := SList Watch

/-- `ms_inoti_add_watch`; `wd` is the result of `inotify_add_watch`. -/
def msInotiAddWatch (s : WatchList) (path : Text) (wd : Int) : Option WatchList := do
  let (prvNode, lastNode) ← s.find fun node => node.name = path
  if lastNode.isSome then return s
  if wd > 0 then s.append prvNode ⟨path, wd⟩ else return s

/-- `ms_inoti_add_watch_with_node`; the node is given by the names of its ancestors and
itself. -/
def msInotiAddWatchWithNode (s : WatchList) (node : List Text) (wd : Int) : Option WatchList :=
  match msGetFullPathFromNode node with
  | none => some s
  | some fullPath => msInotiAddWatch s fullPath wd

/-- `ms_inoti_remove_watch_recursive`. -/
def msInotiRemoveWatchRecursive (s : WatchList) (path : Text) : Option WatchList :=
  s.removeAll fun node => strstr node.name path

/-- `ms_inoti_remove_watch`. -/
def msInotiRemoveWatch (s : WatchList) (path : Text) : Option WatchList := do
  let head ← s.heap.load (← s.first)
  if head.data.name = path then s.dropFirst
  else
    let (prvNode, delNode) ← s.find fun node => node.name = path
    match delNode with
    | none => return s
    | some delNode => s.unlink prvNode delNode

/-- `ms_inoti_modify_watch`. For the head `mod_node` is set, and `find` is not. -/
def msInotiModifyWatch (s : WatchList) (pathFrom pathTo : Text) (wd : Int) :
    Option WatchList := do
  let head ← s.heap.load (← s.first)
  if head.data.name = pathFrom then msInotiAddWatch s pathTo wd
  else
    match ← s.find fun node => node.name = pathFrom with
    | (_, some modNode) => do
        let c ← s.heap.load modNode
        s.setData modNode { c.data with name := pathTo }
    | (_, none) => msInotiAddWatch s pathTo wd

/-- A list that ends and has these entries. -/
def HoldsEntries (s : WatchList) (entries : List Watch) : Prop :=
  ∃ nodes, s.Reaches nodes ∧ nodes.map Node.data = entries

theorem HoldsEntries.unique {s : WatchList} {entries entries' : List Watch}
    (h : HoldsEntries s entries) (h' : HoldsEntries s entries') : entries = entries' := by
  obtain ⟨nodes, reaches, rfl⟩ := h
  obtain ⟨nodes', reaches', rfl⟩ := h'
  rw [Chain.unique reaches reaches']

/-! ### The operations on the entries -/

def addEntry (path : Text) (wd : Int) (entries : List Watch) : List Watch :=
  if ∃ node ∈ entries, node.name = path then entries
  else if wd > 0 then entries ++ [⟨path, wd⟩] else entries

def modifyEntry (pathFrom pathTo : Text) (wd : Int) : List Watch → List Watch
  | [] => addEntry pathTo wd []
  | head :: rest =>
      if head.name = pathFrom then addEntry pathTo wd (head :: rest)
      else if ∃ node ∈ rest, node.name = pathFrom then
        head :: Inoti.renameFirst pathFrom pathTo rest
      else addEntry pathTo wd (head :: rest)

/-- The loop of the thread works on the same entries. -/
theorem watches_addWatch (w : World) (s : Inoti) (path : Text) :
    (s.addWatch w path).watches = addEntry path (w.inotifyAddWatch path) s.watches := by
  rw [Inoti.addWatch, addEntry]
  split
  · rfl
  · simp only
    split <;> rfl

theorem watches_modifyWatch (w : World) (s : Inoti) (pathFrom pathTo : Text) :
    (s.modifyWatch w pathFrom pathTo).watches =
      modifyEntry pathFrom pathTo (w.inotifyAddWatch pathTo) s.watches := by
  rw [Inoti.modifyWatch]
  cases hwatches : s.watches with
  | nil =>
      simp only [modifyEntry]
      rw [watches_addWatch, hwatches]
  | cons head rest =>
      simp only [modifyEntry]
      split
      · rw [watches_addWatch, hwatches]
      · split
        · rfl
        · rw [watches_addWatch, hwatches]

section Specs

variable {s : WatchList} {entries : List Watch}

/-- The walk ends behind the last node, or splits the list at the first node with the
name. -/
theorem find_name {nodes : List (Node Watch)} (reaches : s.Reaches nodes) (path : Text) :
    ((∀ n ∈ nodes, n.data.name ≠ path) ∧
      s.find (fun node => node.name = path) = some (lastAddr none nodes, none)) ∨
    ∃ front n back, nodes = front ++ n :: back ∧ n.data.name = path ∧
      (∀ m ∈ front, m.data.name ≠ path) ∧
      s.find (fun node => node.name = path) = some (lastAddr none front, some n.addr) := by
  cases hfind : nodes.find? fun n => decide (n.data.name = path) with
  | none =>
      have hnone : ∀ n ∈ nodes, decide (n.data.name = path) = false := fun n hn => by
        simpa using List.find?_eq_none.mp hfind n hn
      refine .inl ⟨by simpa using hnone, ?_⟩
      exact SList.find_of_none (fun node : Watch => decide (node.name = path)) reaches hnone
  | some n =>
      obtain ⟨hname, front, back, rfl, hfront⟩ := List.find?_eq_some_iff_append.mp hfind
      have hnone : ∀ m ∈ front, decide (m.data.name = path) = false := by simpa using hfront
      refine .inr ⟨front, n, back, rfl, by simpa using hname, by simpa using hnone, ?_⟩
      exact SList.find_of_first (fun node : Watch => decide (node.name = path)) reaches hnone hname

theorem msInotiAddWatch_spec (h : HoldsEntries s entries) (path : Text) (wd : Int) :
    ∃ s', msInotiAddWatch s path wd = some s' ∧ HoldsEntries s' (addEntry path wd entries) := by
  obtain ⟨nodes, reaches, rfl⟩ := h
  cases find_name reaches path with
  | inl hnone =>
      obtain ⟨hother, hfind⟩ := hnone
      have habsent : ¬ ∃ node ∈ nodes.map Node.data, node.name = path := by
        simpa using hother
      by_cases hwd : wd > 0
      · obtain ⟨s', happend, reaches'⟩ := SList.append_spec reaches ⟨path, wd⟩
        refine ⟨s', ?_, _, reaches', ?_⟩
        · simp [msInotiAddWatch, hfind, hwd, happend]
        · rw [addEntry, if_neg habsent, if_pos hwd, List.map_append]
          rfl
      · refine ⟨s, ?_, nodes, reaches, ?_⟩
        · simp [msInotiAddWatch, hfind, hwd]
        · rw [addEntry, if_neg habsent, if_neg hwd]
  | inr hsome =>
      obtain ⟨front, n, back, rfl, hname, -, hfind⟩ := hsome
      refine ⟨s, ?_, _, reaches, ?_⟩
      · simp [msInotiAddWatch, hfind]
      · rw [addEntry, if_pos ⟨n.data, by simp, hname⟩]

/-- Every entry goes that has the path anywhere in its name. -/
theorem msInotiRemoveWatchRecursive_spec (h : HoldsEntries s entries) (path : Text) :
    ∃ s', msInotiRemoveWatchRecursive s path = some s' ∧
      HoldsEntries s' (entries.filter fun node => !strstr node.name path) := by
  obtain ⟨nodes, reaches, rfl⟩ := h
  obtain ⟨s', hremove, reaches'⟩ := SList.removeAll_spec reaches fun node => strstr node.name path
  refine ⟨s', hremove, _, reaches', ?_⟩
  rw [List.filter_map]
  rfl

theorem eraseP_of_split {front back : List Watch} {node : Watch} {path : Text}
    (hnode : node.name = path) (hfront : ∀ m ∈ front, m.name ≠ path) :
    (front ++ node :: back).eraseP (fun m => m.name = path) = front ++ back := by
  rw [List.eraseP_append_right _ (by simpa using hfront), List.eraseP_cons_of_pos (by simp [hnode])]

theorem renameFirst_of_split {front back : List Watch} {node : Watch} {path pathTo : Text}
    (hnode : node.name = path) (hfront : ∀ m ∈ front, m.name ≠ path) :
    Inoti.renameFirst path pathTo (front ++ node :: back) =
      front ++ { node with name := pathTo } :: back := by
  induction front with
  | nil => exact if_pos hnode
  | cons m front ih =>
      rw [List.cons_append, Inoti.renameFirst, if_neg (hfront m List.mem_cons_self),
        ih fun k hk => hfront k (List.mem_cons_of_mem m hk)]
      rfl

theorem msInotiRemoveWatch_spec (h : HoldsEntries s entries) (hne : entries ≠ []) (path : Text) :
    ∃ s', msInotiRemoveWatch s path = some s' ∧
      HoldsEntries s' (entries.eraseP fun node => node.name = path) := by
  obtain ⟨nodes, reaches, rfl⟩ := h
  cases nodes with
  | nil => exact absurd rfl hne
  | cons head nodes =>
      obtain ⟨hfirst, next, hload, -⟩ := id reaches
      by_cases hhead : head.data.name = path
      · obtain ⟨s', hdrop, reaches'⟩ := SList.dropFirst_spec reaches
        refine ⟨s', ?_, nodes, reaches', ?_⟩
        · simp [msInotiRemoveWatch, hfirst, hload, hhead, hdrop]
        · rw [List.map_cons, List.eraseP_cons_of_pos (by simp [hhead])]
      · cases find_name reaches path with
        | inl hnone =>
            obtain ⟨hother, hfind⟩ := hnone
            refine ⟨s, ?_, _, reaches, ?_⟩
            · simp [msInotiRemoveWatch, hfirst, hload, hhead, hfind]
            · rw [List.eraseP_of_forall_not]
              simpa using hother
        | inr hsome =>
            obtain ⟨front, n, back, hnodes, hname, hfront, hfind⟩ := hsome
            rw [hnodes] at reaches ⊢
            have hne' : front ≠ [] := by
              rintro rfl
              obtain ⟨rfl, -⟩ := List.cons.inj hnodes
              exact hhead hname
            obtain ⟨s', hunlink, reaches'⟩ := SList.unlink_spec reaches hne'
            refine ⟨s', ?_, _, reaches', ?_⟩
            · simp [msInotiRemoveWatch, hfirst, hload, hhead, hfind, hunlink]
            · rw [List.map_append, List.map_append, List.map_cons,
                eraseP_of_split hname (by simpa using hfront)]

theorem msInotiModifyWatch_spec (h : HoldsEntries s entries) (hne : entries ≠ [])
    (pathFrom pathTo : Text) (wd : Int) :
    ∃ s', msInotiModifyWatch s pathFrom pathTo wd = some s' ∧
      HoldsEntries s' (modifyEntry pathFrom pathTo wd entries) := by
  obtain ⟨s', hadd, hholds⟩ := msInotiAddWatch_spec h pathTo wd
  obtain ⟨nodes, reaches, rfl⟩ := h
  cases nodes with
  | nil => exact absurd rfl hne
  | cons head nodes =>
      obtain ⟨hfirst, next, hload, -⟩ := id reaches
      by_cases hhead : head.data.name = pathFrom
      · refine ⟨s', ?_, ?_⟩
        · simp [msInotiModifyWatch, hfirst, hload, hhead, hadd]
        · rw [List.map_cons, modifyEntry, if_pos hhead]
          exact hholds
      · cases find_name reaches pathFrom with
        | inl hnone =>
            obtain ⟨hother, hfind⟩ := hnone
            have habsent : ¬ ∃ node ∈ nodes.map Node.data, node.name = pathFrom := by
              rintro ⟨_, hnode, hname⟩
              obtain ⟨n, hn, rfl⟩ := List.mem_map.mp hnode
              exact hother n (List.mem_cons_of_mem _ hn) hname
            refine ⟨s', ?_, ?_⟩
            · simp [msInotiModifyWatch, hfirst, hload, hfind, hadd]
            · rw [List.map_cons, modifyEntry, if_neg hhead, if_neg habsent]
              exact hholds
        | inr hsome =>
            obtain ⟨front, n, back, hnodes, hname, hfront, hfind⟩ := hsome
            cases front with
            | nil =>
                obtain ⟨rfl, -⟩ := List.cons.inj hnodes
                exact absurd hname hhead
            | cons m front =>
                rw [List.cons_append] at hnodes
                obtain ⟨rfl, rfl⟩ := List.cons.inj hnodes
                obtain ⟨next', hload'⟩ := Chain.live reaches (n := n) (by simp)
                have hsplit : s.Reaches ((head :: front) ++ n :: back) := reaches
                obtain ⟨t, hset, reaches'⟩ :=
                  SList.setData_spec hsplit { n.data with name := pathTo }
                refine ⟨t, ?_, _, reaches', ?_⟩
                · simp [msInotiModifyWatch, hfirst, hload, hhead, hfind, hload', hset]
                · have hmap : (front ++ n :: back).map Node.data =
                      front.map Node.data ++ n.data :: back.map Node.data := by simp
                  have hpresent : ∃ node ∈ front.map Node.data ++ n.data :: back.map Node.data,
                      node.name = pathFrom := ⟨n.data, by simp, hname⟩
                  have hrest : ∀ k ∈ front.map Node.data, k.name ≠ pathFrom := by
                    intro k hk
                    obtain ⟨j, hj, rfl⟩ := List.mem_map.mp hk
                    exact hfront j (List.mem_cons_of_mem _ hj)
                  rw [List.map_cons, hmap, modifyEntry, if_neg hhead, if_pos hpresent,
                    renameFirst_of_split hname hrest]
                  simp

/-! ### The list of the thread

The thread's model keeps the entries. Each of its operations is the one in the heap. -/

variable {w : World} {t : Inoti}

theorem addWatch_refines (h : HoldsEntries s t.watches) (path : Text) :
    ∃ s', msInotiAddWatch s path (w.inotifyAddWatch path) = some s' ∧
      HoldsEntries s' (t.addWatch w path).watches := by
  rw [watches_addWatch]
  exact msInotiAddWatch_spec h path _

theorem removeWatch_refines (h : HoldsEntries s t.watches) (hne : t.watches ≠ []) (path : Text) :
    ∃ s', msInotiRemoveWatch s path = some s' ∧
      HoldsEntries s' (t.removeWatch path).watches :=
  msInotiRemoveWatch_spec h hne path

theorem modifyWatch_refines (h : HoldsEntries s t.watches) (hne : t.watches ≠ [])
    (pathFrom pathTo : Text) :
    ∃ s', msInotiModifyWatch s pathFrom pathTo (w.inotifyAddWatch pathTo) = some s' ∧
      HoldsEntries s' (t.modifyWatch w pathFrom pathTo).watches := by
  rw [watches_modifyWatch]
  exact msInotiModifyWatch_spec h hne pathFrom pathTo _

/-- The three removals behind the label `POWER_OFF`. -/
theorem leave_refines (h : HoldsEntries s t.watches) (hne : t.watches ≠ []) :
    ∃ s', (do
        let s ← msInotiRemoveWatch s msDbUpdateNotiPath
        let s ← msInotiRemoveWatchRecursive s msRootPathInternal
        msInotiRemoveWatchRecursive s msRootPathExternal) = some s' ∧
      HoldsEntries s' t.leave.watches := by
  obtain ⟨s₁, hfirst, h₁⟩ := removeWatch_refines h hne msDbUpdateNotiPath
  obtain ⟨s₂, hinternal, h₂⟩ := msInotiRemoveWatchRecursive_spec h₁ msRootPathInternal
  obtain ⟨s₃, hexternal, h₃⟩ := msInotiRemoveWatchRecursive_spec h₂ msRootPathExternal
  refine ⟨s₃, ?_, ?_⟩
  · simp [hfirst, hinternal, hexternal]
  · rw [List.filter_filter] at h₃
    have hleave : t.leave.watches = (t.removeWatch msDbUpdateNotiPath).watches.filter fun node =>
        !strstr node.name msRootPathExternal && !strstr node.name msRootPathInternal := by
      refine List.filter_congr fun node _ => ?_
      cases strstr node.name msRootPathInternal <;>
        cases strstr node.name msRootPathExternal <;> rfl
    rw [hleave]
    exact h₃

end Specs

end MediaServer.Inotify
