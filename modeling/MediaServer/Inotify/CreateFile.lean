import MediaServer.Foundation.DoublyLinked
import MediaServer.Foundation.Run
import MediaServer.Inotify.Updates

/-!
# The list of created files

`latest_create_file` holds the newest node of a doubly linked list of the files that are
being created, each by the watch descriptor and the name of its event. The same pair may be
in the list more than once; a search returns the node of the latest, and only a node that
a search has returned is deleted.
-/

namespace MediaServer.Inotify

open DoublyLinked

/-- The nodes of type `ms_create_file_info`, held by `latest_create_file`. The copy of the
name lives and dies with its node. -/
abbrev CreateFileList := DList (Int × Text)

/-- `_ms_inoti_add_create_file_list`. -/
def msInotiAddCreateFileList (s : CreateFileList) (wd : Int) (name : Text) :
    Option CreateFileList :=
  -- for the first file a node is allocated into the tail pointer and dropped at once
  let s := if s.latest = none then { s with heap := s.heap.alloc ⟨(0, []), none, none⟩ } else s
  s.addLatest (wd, name)

/-- `_ms_inoti_delete_create_file_list`. -/
def msInotiDeleteCreateFileList (s : CreateFileList) (node : Nat) : Option CreateFileList :=
  s.unlink node

/-- `_ms_inoti_find_create_file_list`. -/
def msInotiFindCreateFileList (s : CreateFileList) (wd : Int) (name : Text) :
    Option (Option Nat) :=
  s.find fun file => file.1 == wd && file.2 == name

/-- A pair in the list, with its node. -/
abbrev Created := Nat × Int × Text

/-- The walk back from `latest_create_file` meets live nodes, whose `next` links are the
inverse of the `previous` ones, and these are the nodes. -/
def HoldsCreated (s : CreateFileList) (created : List Created) : Prop :=
  ∃ nodes, s.Reaches nodes ∧ NextLinked none nodes ∧
    nodes.map (fun n => (n.addr, n.data)) = created

/-- The latest pair with this descriptor and name. -/
def latestCreated (created : List Created) (wd : Int) (name : Text) : Option Nat :=
  (created.find? fun c => c.2 = (wd, name)).map Prod.fst

section Operations

variable {s : CreateFileList} {created : List Created}

theorem holdsCreated_nil : HoldsCreated {} [] := ⟨[], rfl, trivial, rfl⟩

theorem retarget_created (next : Option Nat) (nodes : List (Node (Int × Text))) :
    (retarget next nodes).map (fun n => (n.addr, n.data)) =
      nodes.map fun n => (n.addr, n.data) := by
  cases nodes <;> rfl

/-- No node bears two of the pairs. -/
theorem HoldsCreated.nodup (h : HoldsCreated s created) : (created.map Prod.fst).Nodup := by
  obtain ⟨nodes, reaches, -, rfl⟩ := h
  rw [List.map_map]
  exact Chain.nodup reaches

/-- To delete a node is to take its entry out. -/
theorem filter_node {front back : List Created} {c : Created}
    (h : ((front ++ c :: back).map Prod.fst).Nodup) :
    (front ++ c :: back).filter (fun d => d.1 ≠ c.1) = front ++ back := by
  rw [List.map_append, List.map_cons] at h
  obtain ⟨-, hback, hfront⟩ := List.nodup_append.mp h
  have hkept : ∀ d ∈ front ++ back, d.1 ≠ c.1 := by
    intro d hd
    cases List.mem_append.mp hd with
    | inl hd => exact hfront _ (List.mem_map_of_mem hd) _ List.mem_cons_self
    | inr hd => exact fun heq => (List.nodup_cons.mp hback).1 (heq ▸ List.mem_map_of_mem hd)
  rw [List.filter_append, List.filter_cons_of_neg (by simp), ← List.filter_append,
    List.filter_eq_self.mpr]
  simpa using hkept

theorem msInotiAddCreateFileList_spec (h : HoldsCreated s created) (wd : Int) (name : Text) :
    ∃ s' node, msInotiAddCreateFileList s wd name = some s' ∧ s'.latest = some node ∧
      HoldsCreated s' ((node, wd, name) :: created) := by
  obtain ⟨nodes, reaches, linked, rfl⟩ := h
  set s₁ : CreateFileList :=
    if s.latest = none then { s with heap := s.heap.alloc ⟨(0, []), none, none⟩ } else s
    with s₁_def
  have reaches₁ : s₁.Reaches nodes := by
    rw [s₁_def]
    split
    · exact reaches.frame fun n hn => by
        obtain ⟨prev, hload⟩ := reaches.live hn
        rw [Heap.load_alloc_of_load _ hload, hload]
    · exact reaches
  obtain ⟨s', hadd, reaches', linked'⟩ := DList.addLatest_spec reaches₁ linked (wd, name)
  refine ⟨s', s₁.heap.size, hadd, reaches'.1, _, reaches', linked', ?_⟩
  rw [List.map_cons, retarget_created]

/-- The test of the search. -/
theorem createdTest_eq (wd : Int) (name : Text) (file : Int × Text) :
    (file.1 == wd && file.2 == name) = decide (file = (wd, name)) := by
  rw [Bool.eq_iff_iff]
  simp [Prod.ext_iff]

theorem msInotiFindCreateFileList_spec (h : HoldsCreated s created) (wd : Int) (name : Text) :
    msInotiFindCreateFileList s wd name = some (latestCreated created wd name) := by
  obtain ⟨nodes, reaches, -, rfl⟩ := h
  simp only [msInotiFindCreateFileList, createdTest_eq]
  rw [DList.find_eq reaches, latestCreated, List.find?_map, Option.map_map]
  rfl

theorem msInotiDeleteCreateFileList_spec (h : HoldsCreated s created) {node : Nat}
    (hnode : node ∈ created.map Prod.fst) :
    ∃ s', msInotiDeleteCreateFileList s node = some s' ∧
      HoldsCreated s' (created.filter fun c => c.1 ≠ node) := by
  have hnodup := h.nodup
  obtain ⟨nodes, reaches, linked, rfl⟩ := h
  obtain ⟨c, hc, rfl⟩ := List.mem_map.mp hnode
  obtain ⟨n, hn, rfl⟩ := List.mem_map.mp hc
  obtain ⟨front, back, rfl⟩ := List.append_of_mem hn
  obtain ⟨s', hunlink, reaches', linked'⟩ := DList.unlink_spec reaches linked
  refine ⟨s', hunlink, _, reaches', linked', ?_⟩
  rw [List.map_append, List.map_cons] at hnodup
  rw [List.map_append, retarget_created, List.map_append, List.map_cons]
  exact (filter_node hnodup).symm

end Operations

/-! ### Runs of calls -/

/-- The calls of `ms_inoti_thread`. A node is deleted that a search has returned. -/
inductive CreateOp where
  | add (wd : Int) (name : Text)
  | find (wd : Int) (name : Text)
  | delete (node : Nat)
deriving DecidableEq, Repr

/-- The list, with a record of the calls. -/
structure CreateFiles where
  /-- `none` after an access to a freed node, or a walk that never ends. -/
  list : Option CreateFileList := some {}
  /-- The pairs added and not deleted since, the latest first. -/
  created : List Created := []
  /-- The nodes that a search has returned and that have not been deleted since. -/
  found : List Nat := []
deriving DecidableEq, Repr

def createStep (s : CreateFiles) : CreateOp → Option CreateFiles
  | .add wd name =>
      let list := s.list.bind fun l => msInotiAddCreateFileList l wd name
      let node := list.bind DList.latest
      some { s with
        list
        created := node.toList.map (fun node => (node, wd, name)) ++ s.created }
  | .find wd name =>
      let answer := s.list.bind fun l => msInotiFindCreateFileList l wd name
      some { s with
        list := answer.bind fun _ => s.list
        found := answer.join.toList ++ s.found }
  | .delete node =>
      if node ∈ s.found then
        some {
          list := s.list.bind fun l => msInotiDeleteCreateFileList l node
          created := s.created.filter fun c => c.1 ≠ node
          found := s.found.filter fun a => a ≠ node }
      else none

/-- No fault so far, and the list holds what has been added and not deleted. -/
def HoldsRemaining (s : CreateFiles) : Prop := ∃ l, s.list = some l ∧ HoldsCreated l s.created

/-- A search returns the latest entry with the pair, if there is one. -/
def FindsLatest (s : CreateFiles) : CreateOp → Prop
  | .find wd name => s.list.bind (fun l => msInotiFindCreateFileList l wd name) =
      some (latestCreated s.created wd name)
  | _ => True

/-- The nodes that may be deleted are those of entries. -/
structure CreateInv (s : CreateFiles) : Prop where
  holds : HoldsRemaining s
  found : ∀ node ∈ s.found, node ∈ s.created.map Prod.fst

theorem mem_of_latestCreated {created : List Created} {wd : Int} {name : Text} {node : Nat}
    (h : latestCreated created wd name = some node) : node ∈ created.map Prod.fst := by
  obtain ⟨c, hc, rfl⟩ := Option.map_eq_some_iff.mp h
  exact List.mem_map_of_mem (List.mem_of_find?_eq_some hc)

theorem createStep_inv {s t : CreateFiles} {op : CreateOp} (h : CreateInv s)
    (hstep : createStep s op = some t) : CreateInv t := by
  obtain ⟨⟨l, hlist, holds⟩, hfound⟩ := h
  cases op with
  | add wd name =>
      obtain ⟨l', node, hadd, hlatest, holds'⟩ := msInotiAddCreateFileList_spec holds wd name
      obtain rfl := Option.some.inj hstep
      simp only [hlist, Option.bind_some, hadd, hlatest]
      exact ⟨⟨l', rfl, holds'⟩, fun a ha => List.mem_cons_of_mem _ (hfound a ha)⟩
  | find wd name =>
      obtain rfl := Option.some.inj hstep
      simp only [hlist, Option.bind_some, msInotiFindCreateFileList_spec holds, Option.join_some]
      refine ⟨⟨l, rfl, holds⟩, fun a ha => ?_⟩
      cases List.mem_append.mp ha with
      | inl ha => exact mem_of_latestCreated (Option.mem_toList.mp ha)
      | inr ha => exact hfound a ha
  | delete node =>
      simp only [createStep] at hstep
      split at hstep
      next hnode =>
        obtain ⟨l', hdelete, holds'⟩ :=
          msInotiDeleteCreateFileList_spec holds (hfound node hnode)
        obtain rfl := Option.some.inj hstep
        simp only [hlist, Option.bind_some, hdelete]
        refine ⟨⟨l', rfl, holds'⟩, fun a ha => ?_⟩
        obtain ⟨ha, hne⟩ := List.mem_filter.mp ha
        obtain ⟨c, hc, rfl⟩ := List.mem_map.mp (hfound a ha)
        exact List.mem_map_of_mem (List.mem_filter.mpr ⟨hc, hne⟩)
      next => cases hstep

theorem findsLatest_of_inv {s : CreateFiles} (h : CreateInv s) (op : CreateOp) :
    FindsLatest s op := by
  cases op with
  | find wd name =>
      obtain ⟨l, hlist, holds⟩ := h.holds
      rw [FindsLatest, hlist]
      exact msInotiFindCreateFileList_spec holds wd name
  | _ => trivial

theorem createInv_start : CreateInv {} := ⟨⟨{}, rfl, holdsCreated_nil⟩, nofun⟩

/-- The pairs in the list, the latest first. -/
def HoldsFiles (l : CreateFileList) (files : List (Int × Text)) : Prop :=
  ∃ created, HoldsCreated l created ∧ created.map Prod.snd = files

/-- The calls of the branches for `IN_CREATE` and `IN_CLOSE_WRITE`. -/
def eventCreateFile (w : World) (s : Inoti) (e : Event) (l : CreateFileList) :
    Option CreateFileList :=
  if s.reaches w e then
    match branch e.mask with
    | .fileCreate => msInotiAddCreateFileList l e.wd e.name
    | .fileCloseWrite => do
        match ← msInotiFindCreateFileList l e.wd e.name with
        | none => return l
        | some node => msInotiDeleteCreateFileList l node
    | _ => some l
  else some l

section Thread

variable {w : World} {s : Inoti} {e : Event} {l : CreateFileList}

/-- Without the node found, the pairs are those without the first that matches. -/
theorem erase_latestCreated {created : List Created} (hnodup : (created.map Prod.fst).Nodup)
    {wd : Int} {name : Text} {node : Nat} (h : latestCreated created wd name = some node) :
    (created.filter fun c => c.1 ≠ node).map Prod.snd =
      (created.map Prod.snd).erase (wd, name) := by
  obtain ⟨c, hc, rfl⟩ := Option.map_eq_some_iff.mp h
  obtain ⟨hpair, front, back, rfl, hfront⟩ := List.find?_eq_some_iff_append.mp hc
  have hpair : c.2 = (wd, name) := of_decide_eq_true hpair
  have hother : (wd, name) ∉ front.map Prod.snd := by
    intro hmem
    obtain ⟨d, hd, heq⟩ := List.mem_map.mp hmem
    exact absurd heq (by simpa using hfront d hd)
  rw [filter_node hnodup, List.map_append, List.map_append, List.map_cons,
    List.erase_append_right _ hother, hpair, List.erase_cons_head]

theorem eventCreateFile_refines (h : HoldsFiles l s.createFiles) :
    ∃ l', eventCreateFile w s e l = some l' ∧ HoldsFiles l' (s.event w e).createFiles := by
  obtain ⟨created, holds, hfiles⟩ := id h
  rw [event_createFiles, eventCreateFile]
  split
  next =>
    cases branch e.mask with
    | fileCreate =>
        obtain ⟨l', node, hadd, -, holds'⟩ := msInotiAddCreateFileList_spec holds e.wd e.name
        exact ⟨l', hadd, _, holds', by rw [List.map_cons, hfiles]⟩
    | fileCloseWrite =>
        simp only [msInotiFindCreateFileList_spec holds, Option.bind_eq_bind, Option.bind_some]
        cases hfind : latestCreated created e.wd e.name with
        | none =>
            have habsent : (e.wd, e.name) ∉ s.createFiles := by
              rw [← hfiles]
              intro hmem
              obtain ⟨c, hc, heq⟩ := List.mem_map.mp hmem
              have hnone := List.find?_eq_none.mp (Option.map_eq_none_iff.mp hfind) c hc
              exact hnone (decide_eq_true heq)
            exact ⟨l, rfl, by rwa [List.erase_of_not_mem habsent]⟩
        | some node =>
            obtain ⟨l', hdelete, holds'⟩ :=
              msInotiDeleteCreateFileList_spec holds (mem_of_latestCreated hfind)
            refine ⟨l', hdelete, _, holds', ?_⟩
            rw [erase_latestCreated holds.nodup hfind, hfiles]
    | _ => exact ⟨l, rfl, h⟩
  next => exact ⟨l, rfl, h⟩

end Thread

end MediaServer.Inotify
