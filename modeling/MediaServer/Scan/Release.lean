import MediaServer.Foundation.SinglyLinked
import MediaServer.Scan.Discovery

/-!
# What a scan leaves allocated

`_ms_dir_check` frees the nodes of its tree along the links `next`, by which each node leads
to the one allocated after it. The list of directories outlives it. At its end `_ms_dir_scan`
goes over this list, but `MS_SAFE_FREE` sets the pointer that it is given to `NULL`, and the
loop goes by that pointer.

Both kinds of nodes are cells of a heap, on which an access to a freed cell is a fault
(`none`). The fields of a tree node but `next` are those of the walk in `Scan.NodeTree`,
where it has the same address. The answers of the flags are given for each of the two phases.
-/

namespace MediaServer.Scan

open Polling SinglyLinked

/-- `_ms_scan_add_node` behind the computation of the path. -/
def scanAddNode (list : SList Text) (fullPath : Text) : Option (SList Text) := do
  let (prv, found) ← list.find fun name => name = fullPath
  match found with
  | some _ => return list
  | none => list.append prv fullPath

/-- The list during the walk; a fault stays one. -/
def recordNode (list : Option (SList Text)) (fullPath : Text) : Option (SList Text) :=
  list.bind (scanAddNode · fullPath)

/-- The variables of `_ms_dir_check`, with the list. -/
structure TreeWalk where
  walker : Walker (Option (SList Text))
  /-- The root, and the chain of `next`. -/
  tree : SList Unit

/-- The variables before the path of the root is computed. -/
def startWalker (root : Text) : Walker (Option (SList Text)) :=
  { nodes := [⟨root, none, none⟩], tmpRoot := 0, prvNode := 0, recorded := some {} }

section Check

variable (stops : Nat → Test → Bool) (fs : FileSystem)

/-- A new node hangs behind the newest one. -/
def TreeWalk.newNode (s : TreeWalk) (name : Text) : Option TreeWalk :=
  (s.tree.append (some s.walker.prvNode) ()).map fun tree =>
    { walker := s.walker.newNode name, tree }

/-- The body of the inner loop. -/
def treeEntry (path : Text) (s : TreeWalk) (e : Dirent) : Option TreeWalk :=
  if e.isDir then
    match msStrappend path e.name with
    | none => some s
    | some getPath =>
        if fs.opens getPath then
          (s.newNode e.name).bind fun t =>
            (t.walker.addNode recordNode s.walker.nodes.length).map fun walker => { t with walker }
        else some s
  else some s

/-- The outer loop. -/
def treeLoop : Nat → Nat → Text → TreeWalk → Option TreeWalk
  | 0, _, _, _ => none
  | fuel + 1, n, path, s =>
      let (s, n', stopped) :=
        readDir stops fs (fun s e => s.bind fun s => treeEntry fs path s e) n path
          (some { s with walker := { s.walker with depth := s.walker.depth + 1 } })
      s.bind fun s =>
        if stopped then some s
        else
          s.walker.getNextPath.bind fun (next, walker) =>
            match next with
            | none => some { s with walker }
            | some path =>
                treeLoop fuel n' path { s with walker := { walker with findFolder := 0 } }

/-- `_ms_dir_check`: what is left of its tree, and the list. If the path of the root does not
fit, it returns at once. -/
def dirCheck (root : Text) (fuel : Nat) : Option (Heap Unit × SList Text) := do
  let tree ← ({} : SList Unit).append none ()
  let (path, walker) ← (startWalker root).getFullPath 0
  match path with
  | none =>
      let list ← walker.recorded
      return (tree.heap, list)
  | some path =>
      let walker ← walker.addNode recordNode 0
      let s ← treeLoop stops fs fuel 0 path { walker, tree }
      let heap ← freeFrom fuel s.tree.heap s.tree.first
      let list ← s.walker.recorded
      return (heap, list)

end Check

/-- The loop of `_ms_dir_scan` over the list, with the files that it hands over. -/
def scanNodes (stops : Nat → Test → Bool) (fs : FileSystem) :
    Nat → Nat → Heap Text → Option Nat → List Text → Option (List Text)
  | _, _, _, none, files => some files
  | 0, _, _, some _, _ => none
  | fuel + 1, n, heap, some node, files =>
      (heap.load node).bind fun c =>
        let (files, n', stopped) :=
          readDir stops fs (scanEntry (fun files path => files ++ [path]) c.data) n c.data files
        if stopped then some files else scanNodes stops fs fuel n' heap c.next files

/-- The loop at the label `STOP_SCAN`: `node` is `NULL` once its cell is freed. -/
def deleteNodes : Nat → Heap Text → Option Nat → Option (Heap Text)
  | _, heap, none => some heap
  | 0, _, some _ => none
  | fuel + 1, heap, some node => do
      let heap ← heap.free node
      deleteNodes fuel heap none

/-- What there is when `_ms_dir_scan` returns. -/
structure Scanned where
  tree : Heap Unit
  list : SList Text
  files : List Text

/-- `_ms_dir_scan`, with the answers of the flags in its two phases. -/
def msDirScan (checkStops scanStops : Nat → Test → Bool) (fs : FileSystem) (scanType : ScanType)
    (root : Text) (fuel : Nat) : Option Scanned := do
  let (tree, list) ←
    if scanType ≠ .invalid then dirCheck checkStops fs root fuel else some ({}, {})
  let files ←
    if scanType = .all ∨ scanType = .part then
      scanNodes scanStops fs fuel 0 list.heap list.first []
    else some []
  let heap ← deleteNodes fuel list.heap list.first
  return { tree, list := { heap, first := none }, files }

/-- Every node has been freed, and nothing points to one. -/
structure Released (r : Scanned) : Prop where
  tree : ∀ a, r.tree.load a = none
  nodes : ∀ a, r.list.heap.load a = none
  first : r.list.first = none

/-- The first phase comes to no subdirectory of the root before it ends. -/
def ComesToNone (stops : Nat → Test → Bool) (fs : FileSystem) (root : Text) : Prop :=
  (run stops 0 (dirActions fs (subdirectory fs root) root)).emitted = []

section List

variable {list : SList Text} {paths : List Text} {path : Text}

/-- The list holds these paths, and the heap nothing else. -/
def Holds (list : SList Text) (paths : List Text) : Prop :=
  ∃ nodes, list.Reaches nodes ∧ nodes.map Node.data = paths ∧ Covers list.heap nodes

theorem holds_nil : Holds {} [] := ⟨[], rfl, rfl, fun _ h => nomatch h⟩

theorem scanAddNode_spec (h : Holds list paths) (path : Text) :
    ∃ list', scanAddNode list path = some list' ∧ Holds list' (msScanAddNode paths path) := by
  obtain ⟨nodes, hreaches, rfl, hcovers⟩ := h
  rw [scanAddNode, msScanAddNode]
  cases hfind : nodes.find? fun n => decide (n.data = path) with
  | none =>
      have hnone : ∀ n ∈ nodes, decide (n.data = path) = false := fun n hn =>
        Bool.eq_false_iff.mpr (List.find?_eq_none.mp hfind n hn)
      have hnew : path ∉ nodes.map Node.data := by
        intro hmem
        obtain ⟨n, hn, hdata⟩ := List.mem_map.mp hmem
        exact of_decide_eq_false (hnone n hn) hdata
      obtain ⟨list', happend, hreaches'⟩ := SList.append_spec hreaches path
      rw [if_neg hnew, SList.find_of_none (fun name => decide (name = path)) hreaches hnone]
      exact ⟨list', happend, _, hreaches', List.map_append, SList.covers_append hcovers happend⟩
  | some n =>
      obtain ⟨hname, front, back, rfl, hfront⟩ := List.find?_eq_some_iff_append.mp hfind
      have hnone : ∀ m ∈ front, decide (m.data = path) = false := by simpa using hfront
      have hmem : path ∈ (front ++ n :: back).map Node.data :=
        List.mem_map.mpr ⟨n, List.mem_append_right _ List.mem_cons_self, of_decide_eq_true hname⟩
      rw [if_pos hmem,
        SList.find_of_first (fun name => decide (name = path)) hreaches hnone hname]
      exact ⟨list, rfl, _, hreaches, rfl, hcovers⟩

/-- The second phase reads the directories of the list. -/
theorem scanNodes_eq (stops : Nat → Test → Bool) (fs : FileSystem) {heap : Heap Text}
    {p : Option Nat} {nodes : List (Node Text)} (hc : Chain heap p nodes none) {fuel : Nat}
    (hfuel : nodes.length ≤ fuel) (n : Nat) (files : List Text) :
    scanNodes stops fs fuel n heap p files =
      some (scanLoop stops fs (fun files path => files ++ [path]) n (nodes.map Node.data) files) := by
  induction nodes generalizing p fuel n files with
  | nil =>
      obtain rfl : p = none := hc
      cases fuel <;> rfl
  | cons node nodes ih =>
      obtain ⟨rfl, next, hload, hrest⟩ := hc
      cases fuel with
      | zero => exact absurd hfuel (Nat.not_succ_le_zero _)
      | succ fuel =>
          rw [scanNodes, hload, Option.bind_some, List.map_cons, scanLoop]
          simp only
          split
          · rfl
          · exact ih hrest (Nat.le_of_succ_le_succ hfuel) _ _

/-- The last loop frees the first node of the list. -/
theorem deleteNodes_spec (h : Holds list paths) {fuel : Nat} (hfuel : 0 < fuel) :
    ∃ heap, deleteNodes fuel list.heap list.first = some heap ∧
      ((∀ a, heap.load a = none) ↔ paths.length ≤ 1) := by
  obtain ⟨nodes, hreaches, rfl, hcovers⟩ := h
  obtain ⟨fuel, rfl⟩ := Nat.exists_eq_add_one_of_ne_zero (Nat.ne_of_gt hfuel)
  have hnodup := Chain.nodup hreaches
  rw [List.length_map]
  cases nodes with
  | nil =>
      have hfirst : list.first = none := hreaches
      rw [hfirst]
      refine ⟨list.heap, rfl, iff_of_true (fun a => ?_) (Nat.zero_le 1)⟩
      exact Option.not_isSome_iff_eq_none.mp fun hsome => nomatch hcovers a hsome
  | cons n nodes =>
      obtain ⟨hfirst, next, hload, hrest⟩ := hreaches
      refine ⟨list.heap.put n.addr none, ?_, ?_⟩
      · rw [hfirst, deleteNodes, Heap.free, hload]
        cases fuel <;> rfl
      · cases nodes with
        | nil =>
            refine iff_of_true (fun a => ?_) (Nat.le_refl 1)
            rw [Heap.load_put hload]
            split
            next => rfl
            next hne =>
              refine Option.not_isSome_iff_eq_none.mp fun hsome => hne ?_
              exact List.mem_singleton.mp (hcovers a hsome)
        | cons m nodes =>
            refine iff_of_false (fun hall => ?_) (by simp)
            obtain ⟨-, next', hload', -⟩ := hrest
            have hne : m.addr ≠ n.addr := by
              intro heq
              rw [List.map_cons, List.nodup_cons] at hnodup
              exact hnodup.1 (heq ▸ List.mem_cons_self)
            have hgone := hall m.addr
            rw [Heap.load_put hload, if_neg hne, hload'] at hgone
            cases hgone

end List

section Tree

variable {stops : Nat → Test → Bool} {fs : FileSystem} {s : TreeWalk}

/-- The nodes hang together in the order of their allocation. -/
def Linked (s : TreeWalk) : Prop :=
  ∃ nodes, s.tree.Reaches nodes ∧ Covers s.tree.heap nodes ∧
    lastAddr none nodes = some s.walker.prvNode ∧ s.tree.heap.size = s.walker.nodes.length

theorem Linked.congr {walker : Walker (Option (SList Text))} (h : Linked s)
    (hprv : walker.prvNode = s.walker.prvNode) (hnodes : walker.nodes = s.walker.nodes) :
    Linked { s with walker } := by
  obtain ⟨nodes, hreaches, hcovers, hlast, hsize⟩ := h
  exact ⟨nodes, hreaches, hcovers, by rw [hlast, hprv], by rw [hsize, hnodes]⟩

theorem getFullPath_frame {σ : Type} {s t : Walker σ} {a : Nat} {path : Option Text}
    (h : s.getFullPath a = some (path, t)) : t.prvNode = s.prvNode ∧ t.nodes = s.nodes := by
  obtain ⟨names, -, h⟩ := Option.bind_eq_some_iff.mp h
  simp only at h
  split at h
  · obtain ⟨-, rfl⟩ := Prod.mk.inj (Option.some.inj h)
    exact ⟨rfl, rfl⟩
  · split at h
    · obtain ⟨-, rfl⟩ := Prod.mk.inj (Option.some.inj h)
      exact ⟨rfl, rfl⟩
    · cases h

theorem addNode_frame {σ : Type} {record : σ → Text → σ} {s t : Walker σ} {a : Nat}
    (h : s.addNode record a = some t) : t.prvNode = s.prvNode ∧ t.nodes = s.nodes := by
  obtain ⟨⟨path, s'⟩, hget, rfl⟩ := Option.map_eq_some_iff.mp h
  have hframe := getFullPath_frame hget
  exact hframe

theorem getNextPath_frame {σ : Type} {s t : Walker σ} {next : Option Text}
    (h : s.getNextPath = some (next, t)) : t.prvNode = s.prvNode ∧ t.nodes = s.nodes := by
  rw [Walker.getNextPath] at h
  split at h
  · obtain ⟨node, -, h⟩ := Option.bind_eq_some_iff.mp h
    split at h
    · have hframe := getFullPath_frame h
      exact hframe
    · obtain ⟨⟨b, depth⟩, -, h⟩ := Option.bind_eq_some_iff.mp h
      simp only at h
      split at h
      · obtain ⟨-, rfl⟩ := Prod.mk.inj (Option.some.inj h)
        exact ⟨rfl, rfl⟩
      · have hframe := getFullPath_frame h
        exact hframe
  · exact getFullPath_frame h

theorem Linked.newNode (h : Linked s) (name : Text) :
    ∃ t, s.newNode name = some t ∧ t.walker = s.walker.newNode name ∧ Linked t := by
  obtain ⟨nodes, hreaches, hcovers, hlast, hsize⟩ := h
  obtain ⟨tree, happend, hreaches'⟩ := SList.append_spec hreaches ()
  rw [hlast] at happend
  refine ⟨{ walker := s.walker.newNode name, tree }, ?_, rfl, _, hreaches',
    SList.covers_append hcovers happend, ?_, ?_⟩
  · rw [TreeWalk.newNode, happend]
    rfl
  · rw [lastAddr_concat, hsize, Walker.newNode]
    split <;> rfl
  · rw [SList.size_append happend, hsize, Walker.newNode]
    split <;> simp

/-- The walk with the links beside it does what the walk does. -/
def Follows (s : Option TreeWalk) (w : Option (Walker (Option (SList Text)))) : Prop :=
  s.map TreeWalk.walker = w ∧ ∀ t ∈ s, Linked t

theorem follows_none : Follows none none := ⟨rfl, nofun⟩

theorem Linked.follows (h : Linked s) : Follows (some s) (some s.walker) :=
  ⟨rfl, fun _ ht => Option.some.inj ht ▸ h⟩

theorem treeEntry_follows (fs : FileSystem) (path : Text) (s : Option TreeWalk)
    (w : Option (Walker (Option (SList Text)))) (e : Dirent) (h : Follows s w) :
    Follows (s.bind fun s => treeEntry fs path s e)
      (w.bind fun w => walkEntry fs recordNode path w e) := by
  obtain ⟨rfl, hlinked⟩ := h
  cases s with
  | none => exact follows_none
  | some s =>
      have h := hlinked s rfl
      rw [Option.map_some, Option.bind_some, Option.bind_some, treeEntry, walkEntry]
      split
      · cases msStrappend path e.name with
        | none => exact h.follows
        | some getPath =>
            simp only
            split
            · obtain ⟨t, hnew, hwalker, ht⟩ := h.newNode e.name
              rw [hnew, Option.bind_some, ← hwalker]
              cases hadd : t.walker.addNode recordNode s.walker.nodes.length with
              | none => exact follows_none
              | some walker =>
                  obtain ⟨hprv, hnodes⟩ := addNode_frame hadd
                  exact (ht.congr hprv hnodes).follows
            · exact h.follows
      · exact h.follows

theorem treeLoop_follows (fuel n : Nat) (path : Text) (h : Linked s) :
    Follows (treeLoop stops fs fuel n path s)
      (walkLoop stops fs recordNode fuel n path s.walker) := by
  induction fuel generalizing n path s with
  | zero => exact follows_none
  | succ fuel ih =>
      have hstart : Linked { s with walker := { s.walker with depth := s.walker.depth + 1 } } :=
        h.congr rfl rfl
      obtain ⟨⟨hwalker, hlinked⟩, hpolls⟩ :=
        readDir_rel stops fs (treeEntry_follows fs path) n path hstart.follows
      rw [treeLoop, walkLoop]
      simp only [← hwalker, ← hpolls]
      generalize readDir stops fs _ n path _ = r at hlinked ⊢
      obtain ⟨s', n', stopped⟩ := r
      cases s' with
      | none => exact follows_none
      | some t =>
          have ht := hlinked t rfl
          simp only [Option.map_some, Option.bind_some]
          split
          · exact ht.follows
          · cases hnext : t.walker.getNextPath with
            | none => exact follows_none
            | some x =>
                obtain ⟨next, walker⟩ := x
                obtain ⟨hprv, hnodes⟩ := getNextPath_frame hnext
                cases next with
                | none => exact (ht.congr hprv hnodes).follows
                | some path => exact ih _ _ (ht.congr hprv hnodes)

/-- More fuel leads to the same end. -/
theorem treeLoop_mono {fuel fuel' n : Nat} {path : Text} {t : TreeWalk} (hle : fuel ≤ fuel')
    (h : treeLoop stops fs fuel n path s = some t) :
    treeLoop stops fs fuel' n path s = some t := by
  induction fuel generalizing fuel' n path s with
  | zero => cases h
  | succ fuel ih =>
      obtain ⟨fuel', rfl⟩ := Nat.exists_eq_add_one_of_ne_zero (Nat.ne_zero_of_lt hle)
      rw [treeLoop] at h ⊢
      simp only at h ⊢
      obtain ⟨s', hs', h⟩ := Option.bind_eq_some_iff.mp h
      rw [hs', Option.bind_some]
      split at h
      next hstopped => rw [if_pos hstopped, h]
      next hstopped =>
        rw [if_neg hstopped]
        obtain ⟨⟨next, walker⟩, hnext, h⟩ := Option.bind_eq_some_iff.mp h
        rw [hnext, Option.bind_some]
        cases next with
        | none => exact h
        | some path => exact ih (Nat.le_of_succ_le_succ hle) h

/-- The node of the root. -/
def rootTree : SList Unit := ⟨⟨[some ⟨(), none⟩]⟩, some 0⟩

theorem rootTree_reaches : rootTree.Reaches [⟨0, ()⟩] := ⟨rfl, none, rfl, rfl⟩

theorem rootTree_covers : Covers rootTree.heap [⟨0, ()⟩] := by
  intro a ha
  cases a with
  | zero => exact List.mem_singleton_self 0
  | succ a => cases ha

theorem getFullPath_startWalker (root : Text) :
    (startWalker root).getFullPath 0 = some (msGetFullPathFromNode [root],
      { startWalker root with calls := [(0, 0)] }) :=
  getFullPath_spec rfl (show Located _ 0 [] from rfl) rfl

/-- A root that does not fit leaves its node behind. -/
theorem dirCheck_of_long {root : Text} (hroot : ¬ root.length ≤ msFilePathLenMax) (fuel : Nat) :
    dirCheck stops fs root fuel = some (rootTree.heap, {}) := by
  rw [dirCheck, getFullPath_startWalker, msGetFullPathFromNode_of_long hroot]
  rfl

/-- The directories that the first phase lists. -/
def found (stops : Nat → Test → Bool) (fs : FileSystem) (root : Text) : List Text :=
  ((run stops 0 (walkActions fs (msFilePathLenMax + 1) root)).emitted.map joined).foldl
    msScanAddNode [root]

theorem dirCheck_of_fits {root : Text} (hroot : root.length ≤ msFilePathLenMax) :
    ∃ enough, ∀ fuel ≥ enough, ∃ tree list, dirCheck stops fs root fuel = some (tree, list) ∧
      (∀ a, tree.load a = none) ∧ Holds list (found stops fs root) := by
  have hpath : msGetFullPathFromNode [root] = some root :=
    fullPathLoop_singleton (by simpa using hroot)
  obtain ⟨enough, henough⟩ := msDirCheck_eq stops fs hroot
  have hrecord : ∀ (l : Option (SList Text)) paths p, Under root p →
      (∃ list, l = some list ∧ Holds list paths) →
        ∃ list, recordNode l p = some list ∧ Holds list (msScanAddNode paths p) := by
    rintro _ paths p - ⟨list, rfl, hlist⟩
    exact scanAddNode_spec hlist p
  obtain ⟨r, hwalk, ⟨list, hrecorded, hlist⟩, -⟩ := walkTree_of_msDirCheck hrecord
    ⟨{}, rfl, holds_nil⟩ (henough enough (Nat.le_refl enough))
  rw [walkTree, ← startWalker, getFullPath_startWalker, hpath, Option.bind_some] at hwalk
  obtain ⟨walker, hadd, hloop⟩ := Option.bind_eq_some_iff.mp hwalk
  obtain ⟨hprv, hnodes⟩ := addNode_frame hadd
  have hstart : Linked { walker, tree := rootTree } :=
    ⟨_, rootTree_reaches, rootTree_covers, congrArg some hprv.symm, by rw [hnodes]; rfl⟩
  obtain ⟨hsame, hlinked⟩ := treeLoop_follows enough 0 root hstart
  rw [hloop] at hsame
  obtain ⟨t, ht, rfl⟩ := Option.map_eq_some_iff.mp hsame
  obtain ⟨nodes, hreaches, hcovers, -, -⟩ := hlinked t ht
  refine ⟨max enough nodes.length, fun fuel hfuel => ?_⟩
  obtain ⟨tree, hfree, hgone⟩ :=
    freeFrom_covers hreaches hcovers (Nat.le_trans (Nat.le_max_right _ _) hfuel)
  refine ⟨tree, list, ?_, hgone, hlist⟩
  have htree : ({} : SList Unit).append none () = some rootTree := rfl
  have hlast := treeLoop_mono (Nat.le_trans (Nat.le_max_left _ _) hfuel) ht
  rw [dirCheck, htree, getFullPath_startWalker, hpath]
  simp only [Option.bind_eq_bind, Option.bind_some, hadd, hlast, hfree, hrecorded]
  rfl

theorem eq_of_length_le_one {α : Type} {l : List α} {a b : α} (h : l.length ≤ 1) (ha : a ∈ l)
    (hb : b ∈ l) : a = b := by
  cases l with
  | nil => cases ha
  | cons x xs =>
      obtain rfl : xs = [] := List.length_eq_zero_iff.mp (Nat.le_zero.mp (Nat.le_of_succ_le_succ h))
      exact (List.mem_singleton.mp ha).trans (List.mem_singleton.mp hb).symm

/-- The list has a second node as soon as the walk comes to a subdirectory of the root. -/
theorem length_found_le_one_iff (root : Text) :
    (found stops fs root).length ≤ 1 ↔ ComesToNone stops fs root := by
  rw [ComesToNone, found, walkActions]
  set kids := selected fs (subdirectory fs root) root with hkids
  have houtputs : outputs (dirActions fs (subdirectory fs root) root) = kids :=
    outputs_dirActions (subdirectory fs root) root
  constructor
  · intro hlength
    by_contra hne
    obtain ⟨d, ds, hds⟩ := List.exists_cons_of_ne_nil hne
    have hmem : d ∈ selected fs (subdirectory fs root) root := by
      rw [← hkids, ← houtputs]
      exact (emitted_initial 0 _).subset (hds ▸ List.mem_cons_self)
    obtain ⟨hd, -⟩ := eq_of_mem_subdirectories hmem
    have hemitted : ∃ rest, (run stops 0 (dirActions fs (subdirectory fs root) root ++
        kids.flatMap fun d => walkActions fs msFilePathLenMax (joined d))).emitted = d :: rest := by
      cases hstopped : (run stops 0 (dirActions fs (subdirectory fs root) root)).stopped with
      | true => exact ⟨ds, by rw [run_append_of_stopped _ hstopped, hds]⟩
      | false => exact ⟨_, by rw [run_append_of_not_stopped _ hstopped, hds]; rfl⟩
    obtain ⟨rest, hrest⟩ := hemitted
    obtain ⟨hnodup, hmem⟩ := foldl_msScanAddNode ((d :: rest).map joined) (List.nodup_singleton root)
    rw [hrest] at hlength
    have hroot : root ∈ ((d :: rest).map joined).foldl msScanAddNode [root] :=
      (hmem root).mpr (.inl (List.mem_singleton_self root))
    have hkid : joined d ∈ ((d :: rest).map joined).foldl msScanAddNode [root] :=
      (hmem _).mpr (.inr List.mem_cons_self)
    have heq : joined d = root := eq_of_length_le_one hlength hkid hroot
    rw [joined, hd] at heq
    exact absurd (congrArg List.length heq) (by simp)
  · intro hnone
    cases hstopped : (run stops 0 (dirActions fs (subdirectory fs root) root)).stopped with
    | true =>
        rw [run_append_of_stopped _ hstopped, hnone]
        exact Nat.le_refl 1
    | false =>
        have hkids : kids = [] := by
          rw [← houtputs, ← emitted_of_not_stopped hstopped, hnone]
        rw [hkids, List.flatMap_nil, List.append_nil, hnone]
        exact Nat.le_refl 1

end Tree

section Scan

variable {checkStops scanStops : Nat → Test → Bool} {fs : FileSystem} {scanType : ScanType}
  {root : Text}

/-- What the second phase hands over, and how much of the list is left behind. -/
structure ScanLeaves (scanStops : Nat → Test → Bool) (fs : FileSystem) (scanType : ScanType)
    (tree : Heap Unit) (paths : List Text) (r : Scanned) : Prop where
  tree : r.tree = tree
  first : r.list.first = none
  freed : (∀ a, r.list.heap.load a = none) ↔ paths.length ≤ 1
  files : r.files =
    if scanType = .all ∨ scanType = .part then
      scanLoop scanStops fs (fun files path => files ++ [path]) 0 paths []
    else []

theorem msDirScan_of_dirCheck {tree : Heap Unit} {list : SList Text} {paths : List Text}
    {fuel : Nat} (hinvalid : scanType ≠ .invalid)
    (hcheck : dirCheck checkStops fs root fuel = some (tree, list)) (hlist : Holds list paths)
    (hfuel : paths.length < fuel) :
    ∃ r, msDirScan checkStops scanStops fs scanType root fuel = some r ∧
      ScanLeaves scanStops fs scanType tree paths r := by
  obtain ⟨heap, hdelete, hfreed⟩ := deleteNodes_spec hlist (Nat.zero_lt_of_lt hfuel)
  obtain ⟨nodes, hreaches, rfl, hcovers⟩ := hlist
  rw [List.length_map] at hfuel
  have hscan := scanNodes_eq scanStops fs hreaches (Nat.le_of_lt hfuel) 0 []
  rw [msDirScan, if_pos hinvalid, hcheck]
  simp only [Option.bind_eq_bind, Option.bind_some, hscan, hdelete]
  split
  next hphase => exact ⟨_, rfl, rfl, rfl, hfreed, (if_pos hphase).symm⟩
  next hphase => exact ⟨_, rfl, rfl, rfl, hfreed, (if_neg hphase).symm⟩

variable (scanStops) in
theorem released_iff_of_fits (hinvalid : scanType ≠ .invalid)
    (hroot : root.length ≤ msFilePathLenMax) :
    EndsWith (msDirScan checkStops scanStops fs scanType root) Released ↔
      ComesToNone checkStops fs root := by
  obtain ⟨enough, henough⟩ := dirCheck_of_fits hroot
  have hends : EndsWith (msDirScan checkStops scanStops fs scanType root) fun r =>
      ∃ tree, (∀ a, tree.load a = none) ∧
        ScanLeaves scanStops fs scanType tree (found checkStops fs root) r := by
    refine ⟨max enough ((found checkStops fs root).length + 1), fun fuel hfuel => ?_⟩
    obtain ⟨tree, list, hcheck, hgone, hlist⟩ :=
      henough fuel (Nat.le_trans (Nat.le_max_left _ _) hfuel)
    obtain ⟨r, hr, hended⟩ := msDirScan_of_dirCheck hinvalid hcheck hlist
      (Nat.le_trans (Nat.le_max_right _ _) hfuel)
    exact ⟨r, hr, tree, hgone, hended⟩
  refine hends.iff fun r ⟨tree, hgone, hended⟩ => ?_
  rw [← length_found_le_one_iff, ← hended.freed]
  exact ⟨fun h => h.nodes, fun h => ⟨fun a => hended.tree ▸ hgone a, h, hended.first⟩⟩

variable (checkStops scanStops fs) in
/-- The node of a root that does not fit stays. -/
theorem not_released_of_long (hinvalid : scanType ≠ .invalid)
    (hroot : ¬ root.length ≤ msFilePathLenMax) :
    ¬ EndsWith (msDirScan checkStops scanStops fs scanType root) Released := by
  have hends : EndsWith (msDirScan checkStops scanStops fs scanType root) fun r =>
      ScanLeaves scanStops fs scanType rootTree.heap [] r :=
    ⟨1, fun fuel hfuel =>
      msDirScan_of_dirCheck hinvalid (dirCheck_of_long hroot fuel) holds_nil hfuel⟩
  refine (hends.iff (C := False) fun r hended => iff_of_false (fun h => ?_) id).mp
  have hlive := h.tree 0
  rw [hended.tree] at hlive
  cases hlive

/-- A scan that only invalidates the items builds nothing. -/
theorem released_of_invalid (h : scanType = .invalid) :
    EndsWith (msDirScan checkStops scanStops fs scanType root) Released := by
  refine ⟨0, fun fuel _ => ⟨{ tree := {}, list := {}, files := [] }, ?_, ?_⟩⟩
  · rw [msDirScan, h]
    cases fuel <;> rfl
  · exact ⟨fun _ => rfl, fun _ => rfl, rfl⟩

end Scan

/-- A scan frees every node that it has built exactly if it builds no list, or a list of one
node: its first phase comes to no subdirectory. -/
theorem released_iff (checkStops scanStops : Nat → Test → Bool) (fs : FileSystem)
    (scanType : ScanType) (root : Text) :
    EndsWith (msDirScan checkStops scanStops fs scanType root) Released ↔
      scanType = .invalid ∨
        root.length ≤ msFilePathLenMax ∧ ComesToNone checkStops fs root := by
  by_cases hinvalid : scanType = .invalid
  · exact iff_of_true (released_of_invalid hinvalid) (.inl hinvalid)
  · rw [or_iff_right hinvalid]
    by_cases hroot : root.length ≤ msFilePathLenMax
    · rw [and_iff_right hroot]
      exact released_iff_of_fits scanStops hinvalid hroot
    · exact iff_of_false (not_released_of_long checkStops scanStops fs hinvalid hroot)
        fun h => hroot h.1

/-- One subdirectory, and nothing disturbs the scan. -/
theorem second_node_leaked :
    ¬ EndsWith
      (msDirScan (fun _ _ => false) (fun _ _ => false)
        { entries := fun path => if path = msRootPathInternal then [⟨"a".toList, dtDir⟩] else []
          opens := fun _ => true } .all msRootPathInternal) Released := by
  rw [released_iff_of_fits _ (by decide) (by decide), ComesToNone]
  decide

end MediaServer.Scan
