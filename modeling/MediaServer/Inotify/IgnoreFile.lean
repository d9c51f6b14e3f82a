import MediaServer.Foundation.DoublyLinked
import MediaServer.Foundation.Run
import MediaServer.Types

/-!
# The list of ignored files

`latest_ignore_file` holds the newest node of a doubly linked list of the paths
whose `IN_CLOSE_WRITE` events are skipped. Adding, searching and deleting a
single node follow the library's operations; removing every entry of the card
is one backward pass of its own, which repairs the `previous` links only.
-/

namespace MediaServer

open DoublyLinked

/-- The nodes of type `ms_ignore_file_info`, held by `latest_ignore_file`. The
copy of the path lives and dies with its node. -/
abbrev IgnoreList := DList Text

def msInotiFindIgnoreFile (s : IgnoreList) (path : Text) : Option (Option Nat) :=
  s.find fun p => p == path

def msInotiAddIgnoreFile (s : IgnoreList) (path : Text) : Option IgnoreList := do
  let node ← msInotiFindIgnoreFile s path
  if node.isSome then return s
  -- for the first file a node is allocated into the tail pointer and dropped at once
  let s := if s.latest = none then { s with heap := s.heap.alloc ⟨[], none, none⟩ } else s
  s.addLatest path

def msInotiDeleteIgnoreFile (s : IgnoreList) (deleteNode : Nat) : Option IgnoreList :=
  s.unlink deleteNode

/-- The list part of `ms_drm_unregister`: delete the node just found, if any. -/
def msDrmUnregister (s : IgnoreList) (path : Text) : Option IgnoreList := do
  match ← msInotiFindIgnoreFile s path with
  | none => return s
  | some ignoreFile => msInotiDeleteIgnoreFile s ignoreFile

/-- The test of the bulk removal. -/
def onCard (path : Text) : Bool := strstr path msRootPathExternal

/-- The loop of `ms_inoti_delete_mmc_ignore_file`, one iteration for each node. -/
def deleteMmcLoop : Nat → IgnoreList → Option Nat → Option Nat → Option IgnoreList
  | _, s, _, none => some s
  | 0, _, _, some _ => none
  | fuel + 1, s, prvNode, some curNode => do
      let c ← s.heap.load curNode
      if onCard c.data then
        let heap ← s.heap.guardedSetPrevious prvNode c.previous
        let c ← heap.load curNode
        let latest := if s.latest = some curNode then c.previous else s.latest
        let heap ← heap.free curNode
        deleteMmcLoop fuel ⟨heap, latest⟩ prvNode c.previous
      else
        deleteMmcLoop fuel s (some curNode) c.previous

def msInotiDeleteMmcIgnoreFile (s : IgnoreList) : Option IgnoreList :=
  deleteMmcLoop s.heap.size s none s.latest

/-- A list that is linked both ways and holds these paths, the latest first. -/
def Holds (s : IgnoreList) (paths : List Text) : Prop :=
  ∃ nodes, s.Reaches nodes ∧ NextLinked none nodes ∧ nodes.map Node.data = paths

theorem holds_of_wellLinked {s : IgnoreList} (h : s.WellLinked) : ∃ paths, Holds s paths := by
  obtain ⟨nodes, reaches, linked⟩ := h
  exact ⟨_, nodes, reaches, linked, rfl⟩

theorem Holds.wellLinked {s : IgnoreList} {paths : List Text} (h : Holds s paths) :
    s.WellLinked := by
  obtain ⟨nodes, reaches, linked, -⟩ := h
  exact ⟨nodes, reaches, linked⟩

theorem find?_data_eq_none {nodes : List (Node Text)} {path : Text} :
    (nodes.find? fun n => n.data == path) = none ↔ path ∉ nodes.map Node.data := by
  simp

theorem msInotiAddIgnoreFile_spec {s : IgnoreList} {paths : List Text} (h : Holds s paths)
    (path : Text) :
    ∃ s', msInotiAddIgnoreFile s path = some s' ∧
      Holds s' (if path ∈ paths then paths else path :: paths) := by
  obtain ⟨nodes, reaches, linked, rfl⟩ := h
  have hfind := DList.find_eq reaches fun p => p == path
  cases hnode : nodes.find? fun n => n.data == path with
  | some n =>
      have hmem : path ∈ nodes.map Node.data := by
        by_contra hnot
        rw [find?_data_eq_none.mpr hnot] at hnode
        cases hnode
      refine ⟨s, ?_, nodes, reaches, linked, (if_pos hmem).symm⟩
      simp [msInotiAddIgnoreFile, msInotiFindIgnoreFile, hfind, hnode]
  | none =>
      set s₁ : IgnoreList :=
        if s.latest = none then { s with heap := s.heap.alloc ⟨[], none, none⟩ } else s with s₁_def
      have reaches₁ : s₁.Reaches nodes := by
        rw [s₁_def]
        split
        · exact Chain.frame reaches fun n hn => by
            obtain ⟨prev, hload⟩ := Chain.live reaches hn
            rw [Heap.load_alloc_of_load _ hload, hload]
        · exact reaches
      obtain ⟨s', hadd, reaches', linked'⟩ := DList.addLatest_spec reaches₁ linked path
      refine ⟨s', ?_, _, reaches', linked', ?_⟩
      · simp only [msInotiAddIgnoreFile, msInotiFindIgnoreFile, hfind, hnode, ← s₁_def, hadd,
          Option.bind_eq_bind, Option.bind_some, Option.isSome_none, Bool.false_eq_true, if_false,
          Option.map_none]
      · rw [if_neg (find?_data_eq_none.mp hnode), List.map_cons, retarget_data]

theorem msDrmUnregister_spec {s : IgnoreList} {paths : List Text} (h : Holds s paths)
    (path : Text) :
    ∃ s', msDrmUnregister s path = some s' ∧ Holds s' (paths.erase path) := by
  obtain ⟨nodes, reaches, linked, rfl⟩ := h
  have hfind := DList.find_eq reaches fun p => p == path
  cases hnode : nodes.find? fun n => n.data == path with
  | none =>
      refine ⟨s, ?_, nodes, reaches, linked,
        (List.erase_of_not_mem (find?_data_eq_none.mp hnode)).symm⟩
      simp [msDrmUnregister, msInotiFindIgnoreFile, hfind, hnode]
  | some n =>
      obtain ⟨hdata, front, back, rfl, hfront⟩ := List.find?_eq_some_iff_append.mp hnode
      obtain ⟨s', hunlink, reaches', linked'⟩ := DList.unlink_spec reaches linked
      refine ⟨s', ?_, _, reaches', linked', ?_⟩
      · simp [msDrmUnregister, msInotiFindIgnoreFile, hfind, hnode, msInotiDeleteIgnoreFile,
          hunlink]
      · have hnot : path ∉ front.map Node.data := by simpa using hfront
        rw [List.map_append, List.map_append, List.map_cons, retarget_data, eq_of_beq hdata,
          List.erase_append_right _ hnot, List.erase_cons_head]

/-- The backward pass never faults and leaves, in order, the nodes that are not
on the card, each with the `next` field it had before. -/
theorem deleteMmcLoop_spec {s : IgnoreList} {kept rest : List (Node Text)} {curNode : Option Nat}
    (hkept : Chain s.heap s.latest kept curNode) (hrest : Chain s.heap curNode rest none)
    (hnodup : ((kept ++ rest).map Node.addr).Nodup) {fuel : Nat} (hfuel : rest.length ≤ fuel) :
    ∃ s', deleteMmcLoop fuel s (lastAddr none kept) curNode = some s' ∧
      s'.Reaches (kept ++ rest.filter fun n => !onCard n.data) := by
  induction rest generalizing s kept curNode fuel with
  | nil =>
      obtain rfl : curNode = none := hrest
      refine ⟨s, by cases fuel <;> rfl, ?_⟩
      simpa [DList.Reaches] using hkept
  | cons n rest ih =>
      obtain ⟨rfl, prev, hload, htail⟩ := hrest
      cases fuel with
      | zero => exact absurd hfuel (Nat.not_succ_le_zero _)
      | succ fuel =>
          have hfuel := Nat.le_of_succ_le_succ hfuel
          cases hcard : onCard n.data with
          | false =>
              have hkept' : Chain s.heap s.latest (kept ++ [n]) prev :=
                Chain.append_iff.mpr ⟨_, hkept, rfl, prev, hload, rfl⟩
              obtain ⟨s', hloop, reaches⟩ := ih hkept' htail (by simpa using hnodup) hfuel
              refine ⟨s', ?_, ?_⟩
              · simpa [deleteMmcLoop, hload, hcard] using hloop
              · simpa [hcard] using reaches
          | true =>
              simp only [List.map_append, List.map_cons, List.nodup_append, List.nodup_cons,
                List.mem_cons] at hnodup
              obtain ⟨nodupKept, ⟨notInRest, nodupRest⟩, apart⟩ := hnodup
              have notInKept : n.addr ∉ kept.map Node.addr :=
                fun hmem => apart _ hmem _ (.inl rfl) rfl
              obtain ⟨h₁, hset, hkept₁, frame₁⟩ := hkept.guardedSetPrevious nodupKept prev
              have load₁ : h₁.load n.addr = some ⟨n.data, prev, n.next⟩ :=
                (frame₁ _ notInKept).trans hload
              have freed : ∀ m ∈ kept ++ rest, (h₁.put n.addr none).load m.addr =
                  h₁.load m.addr := by
                intro m hm
                rw [Heap.load_put load₁, if_neg]
                intro heq
                cases List.mem_append.mp hm with
                | inl hm => exact notInKept (heq ▸ List.mem_map_of_mem hm)
                | inr hm => exact notInRest (heq ▸ List.mem_map_of_mem hm)
              have hkept' : Chain (h₁.put n.addr none)
                  (if kept = [] then prev else s.latest) kept prev :=
                hkept₁.frame fun m hm => freed m (List.mem_append_left _ hm)
              have hrest' : Chain (h₁.put n.addr none) prev rest none := by
                refine htail.frame fun m hm => ?_
                rw [freed m (List.mem_append_right _ hm)]
                exact frame₁ _ fun hmem => apart _ hmem _ (.inr (List.mem_map_of_mem hm)) rfl
              have hnodup' : ((kept ++ rest).map Node.addr).Nodup := by
                rw [List.map_append, List.nodup_append]
                exact ⟨nodupKept, nodupRest, fun a ha b hb => apart a ha b (.inr hb)⟩
              obtain ⟨s', hloop, reaches⟩ := ih
                (s := ⟨h₁.put n.addr none, if kept = [] then prev else s.latest⟩)
                hkept' hrest' hnodup' hfuel
              refine ⟨s', ?_, ?_⟩
              · simpa [deleteMmcLoop, hload, hcard, hset, load₁, Heap.free,
                  hkept.start_eq notInKept prev] using hloop
              · simpa [hcard] using reaches

theorem msInotiDeleteMmcIgnoreFile_spec {s : IgnoreList} {nodes : List (Node Text)}
    (reaches : s.Reaches nodes) :
    ∃ s', msInotiDeleteMmcIgnoreFile s = some s' ∧
      s'.Reaches (nodes.filter fun n => !onCard n.data) :=
  deleteMmcLoop_spec (show Chain s.heap s.latest [] s.latest from rfl) reaches
    (Chain.nodup reaches) (Chain.length_le_size reaches)

/-- The operations that the other parts of the server call. -/
inductive IgnoreOp where
  | add (path : Text)
  | find (path : Text)
  | delete (path : Text)
  | deleteMmc
deriving DecidableEq, Repr

def IgnoreOp.apply (s : IgnoreList) : IgnoreOp → Option IgnoreList
  | .add path => msInotiAddIgnoreFile s path
  | .find path => (msInotiFindIgnoreFile s path).map fun _ => s
  | .delete path => msDrmUnregister s path
  | .deleteMmc => msInotiDeleteMmcIgnoreFile s

/-- The operation on the paths of the list. -/
def IgnoreOp.onPaths (paths : List Text) : IgnoreOp → List Text
  | .add path => if path ∈ paths then paths else path :: paths
  | .find _ => paths
  | .delete path => paths.erase path
  | .deleteMmc => paths.filter fun path => !onCard path

/-- A run of operations. The state `none` is reached by an access to a freed
node or by a walk that never ends, and is never left. -/
def ignoreStep (s : Option IgnoreList) (op : IgnoreOp) : Option (Option IgnoreList) :=
  some (s.bind fun s => op.apply s)

/-- No fault so far, and a list that is finite, live and linked both ways. -/
def Intact : Option IgnoreList → Prop
  | none => False
  | some s => s.WellLinked

/-- The condition on a bulk removal: every entry that is older than an entry of
the card belongs to the card too. -/
def CardEntriesOldest (s : IgnoreList) : Prop :=
  ∀ nodes, s.Reaches nodes →
    nodes.Pairwise fun newer older => onCard newer.data → onCard older.data

def RemovesOldest : Option IgnoreList → IgnoreOp → Prop
  | some s, .deleteMmc => CardEntriesOldest s
  | _, _ => True

theorem wellLinked_deleteMmc_iff {s : IgnoreList} (h : s.WellLinked) :
    Intact (msInotiDeleteMmcIgnoreFile s) ↔ CardEntriesOldest s := by
  obtain ⟨nodes, reaches, linked⟩ := h
  obtain ⟨s', hdelete, reaches'⟩ := msInotiDeleteMmcIgnoreFile_spec reaches
  have hfilter := nextLinked_filter_iff (fun path => !onCard path) linked (Chain.nodup reaches)
    (fun _ _ => nofun)
  have hpair : (nodes.Pairwise fun newer older => onCard newer.data → onCard older.data) ↔
      nodes.Pairwise fun newer older => !onCard older.data → !onCard newer.data := by
    refine List.Pairwise.iff_of_mem fun _ _ => ?_
    simp only [Bool.not_eq_true', Bool.eq_false_iff]
    exact not_imp_not.symm
  rw [hdelete]
  constructor
  · rintro ⟨left, reachesLeft, linkedLeft⟩ others reachesOthers
    obtain rfl := Chain.unique reaches reachesOthers
    obtain rfl := Chain.unique reaches' reachesLeft
    exact hpair.mpr (hfilter.mp linkedLeft)
  · intro oldest
    exact ⟨_, reaches', hfilter.mpr (hpair.mp (oldest nodes reaches))⟩

/-- A bulk removal apart, an operation on the list is the operation on its paths. -/
theorem IgnoreOp.apply_spec {s : IgnoreList} {paths : List Text} {op : IgnoreOp}
    (h : Holds s paths) (good : RemovesOldest (some s) op) :
    ∃ s', op.apply s = some s' ∧ Holds s' (op.onPaths paths) := by
  cases op with
  | add path => exact msInotiAddIgnoreFile_spec h path
  | find path =>
      obtain ⟨nodes, reaches, -, -⟩ := id h
      refine ⟨s, ?_, h⟩
      rw [IgnoreOp.apply, msInotiFindIgnoreFile, DList.find_eq reaches]
      rfl
  | delete path => exact msDrmUnregister_spec h path
  | deleteMmc =>
      have intact := (wellLinked_deleteMmc_iff h.wellLinked).mpr good
      obtain ⟨nodes, reaches, -, rfl⟩ := h
      obtain ⟨s', hdelete, reaches'⟩ := msInotiDeleteMmcIgnoreFile_spec reaches
      rw [hdelete] at intact
      obtain ⟨left, reachesLeft, linkedLeft⟩ := intact
      obtain rfl := Chain.unique reaches' reachesLeft
      refine ⟨s', hdelete, _, reaches', linkedLeft, ?_⟩
      rw [IgnoreOp.onPaths, List.filter_map]
      rfl

/-- Every operation but the bulk removal keeps the list intact. -/
theorem ignoreStep_intact {s t : Option IgnoreList} {op : IgnoreOp} (h : Intact s)
    (good : RemovesOldest s op) (hstep : ignoreStep s op = some t) : Intact t := by
  obtain rfl := Option.some.inj hstep
  cases s with
  | none => exact h.elim
  | some s =>
      obtain ⟨paths, holds⟩ := holds_of_wellLinked h
      obtain ⟨s', happly, holds'⟩ := IgnoreOp.apply_spec holds good
      change Intact (op.apply s)
      rw [happly]
      exact holds'.wellLinked

/-- The ignore list stays intact through a sequence of operations exactly when
each bulk removal finds the entries of the card to be the oldest ones. -/
theorem ignoreList_intact_iff (ops : List IgnoreOp) :
    Run.Always ignoreStep Intact (some {}) ops ↔
      Run.EachStep ignoreStep RemovesOldest (some {}) ops := by
  refine Run.always_iff_eachStep (I := Intact)
    (fun s op t h good hstep => ignoreStep_intact h good hstep) (fun s h => h) ?_ ?_
  · intro s op t h bad hstep hintact
    obtain rfl := Option.some.inj hstep
    cases s with
    | none => exact h
    | some s =>
        cases op with
        | deleteMmc => exact bad ((wellLinked_deleteMmc_iff h).mp hintact)
        | _ => exact bad trivial
  · exact ⟨[], rfl, trivial⟩

/-- An entry of the card above an internal one: after the bulk removal the
internal entry still points to the freed node, and deleting it writes there. -/
theorem ignoreList_dangles :
    ¬ Run.Always ignoreStep Intact (some {})
      [.add "/opt/media/song.dcf".toList, .add "/opt/storage/sdcard/clip.dcf".toList,
        .deleteMmc, .delete "/opt/media/song.dcf".toList] := by
  intro h
  exact h.of_exec (t := none) (by decide)

end MediaServer
