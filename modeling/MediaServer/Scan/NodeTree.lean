import MediaServer.Scan.Directory

/-!
# The tree of nodes behind a walk

`_ms_dir_check` and `ms_inoti_add_watch_all_directory` walk a storage in the same
way: along a tree of `ms_dir_scan_info` nodes that they build on the way, with a
pointer to the current node, a pointer to the newest one and a counter for the depth.
They differ in what they do with the path of a new directory.

The nodes are kept in the order of their allocation and are freed at the end only. A
read of a node that does not exist, and a depth that does not fit the chain of
parents, is a fault (`none`). The walk never faults, and it goes through the places
that the walk of `Scan.Directory` goes through.
-/

namespace MediaServer.Scan

/-- One `ms_dir_scan_info`. Its field `next` leads to the node allocated after it. -/
structure DirInfo where
  name : Text
  parent : Option Nat
  rbrother : Option Nat
deriving DecidableEq, Repr

/-- The variables of a walk. -/
structure Walker (σ : Type) where
  nodes : List DirInfo
  tmpRoot : Nat
  prvNode : Nat
  findFolder : Nat := 0
  depth : Int := 0
  /-- Where the paths go: the scan list, or the watch list. -/
  recorded : σ
  /-- For each call of `ms_get_full_path_from_node` its depth and the number of
  ancestors of its node. No step reads them. -/
  calls : List (Int × Nat) := []

/-- The names along the chain of parents, the root first. A chain without a cycle is
not longer than the list of nodes. -/
def lineage (nodes : List DirInfo) : Nat → Nat → Option (List Text)
  | 0, _ => none
  | fuel + 1, a =>
      (nodes[a]?).bind fun node =>
        match node.parent with
        | none => some [node.name]
        | some p => (lineage nodes fuel p).map (· ++ [node.name])

/-- The loop that climbs to the next right brother of an ancestor. -/
def climbLoop (nodes : List DirInfo) : Nat → Nat → Int → Option (Option Nat × Int)
  | 0, _, _ => none
  | fuel + 1, a, depth =>
      (nodes[a]?).bind fun node =>
        match node.parent with
        | none => some (none, 0)
        | some p =>
            if p = 0 then some (none, 0)
            else
              (nodes[p]?).bind fun parent =>
                match parent.rbrother with
                | none => climbLoop nodes fuel p (depth - 1)
                | some b => some (some b, depth - 1)

namespace Walker

variable {σ : Type}

/-- `ms_get_full_path_from_node` for the node. The array has `depth + 1` slots: a
longer chain overruns it, and a shorter one leaves slots unset. -/
def getFullPath (s : Walker σ) (a : Nat) : Option (Option Text × Walker σ) :=
  (lineage s.nodes s.nodes.length a).bind fun names =>
    let s := { s with calls := s.calls ++ [(s.depth, names.length - 1)] }
    if s.depth < 0 then some (none, s)
    else if s.depth + 1 = names.length then some (msGetFullPathFromNode names, s)
    else none

/-- `_ms_scan_add_node` and `ms_inoti_add_watch_with_node`, with what is done for the
path. -/
def addNode (record : σ → Text → σ) (s : Walker σ) (a : Nat) : Option (Walker σ) :=
  (s.getFullPath a).map fun (fullPath, s) =>
    { s with recorded := fullPath.elim s.recorded (record s.recorded) }

/-- A new node becomes the first child of the current node, or the right brother of
the newest one. -/
def newNode (s : Walker σ) (name : Text) : Walker σ :=
  if s.findFolder = 0 then
    { s with
      nodes := s.nodes ++ [⟨name, some s.tmpRoot, none⟩]
      tmpRoot := s.nodes.length
      prvNode := s.nodes.length
      findFolder := s.findFolder + 1 }
  else
    { s with
      nodes :=
        (s.nodes.modify s.prvNode fun node => { node with rbrother := some s.nodes.length }) ++
          [⟨name, (s.nodes[s.tmpRoot]?).bind DirInfo.parent, none⟩]
      prvNode := s.nodes.length
      findFolder := s.findFolder + 1 }

/-- `_ms_scan_get_next_path_from_current_node`. There is no path when the walk is
over, and when the path is invalid. -/
def getNextPath (s : Walker σ) : Option (Option Text × Walker σ) :=
  if s.findFolder = 0 then
    (s.nodes[s.tmpRoot]?).bind fun node =>
      match node.rbrother with
      | some b => { s with tmpRoot := b, depth := s.depth - 1 }.getFullPath b
      | none =>
          (climbLoop s.nodes s.nodes.length s.tmpRoot s.depth).bind fun (next, depth) =>
            match next with
            | none => some (none, { s with depth })
            | some b => { s with tmpRoot := b, depth := depth - 1 }.getFullPath b
  else s.getFullPath s.tmpRoot

end Walker

section Walk

variable {σ : Type} (stops : Nat → Test → Bool) (fs : FileSystem) (record : σ → Text → σ)

/-- The body of the inner loop. -/
def walkEntry (path : Text) (s : Walker σ) (e : Dirent) : Option (Walker σ) :=
  if e.isDir then
    match msStrappend path e.name with
    | none => some s
    | some getPath =>
        if fs.opens getPath then (s.newNode e.name).addNode record s.nodes.length else some s
  else some s

/-- The outer loop. -/
def walkLoop : Nat → Nat → Text → Walker σ → Option (Walker σ)
  | 0, _, _, _ => none
  | fuel + 1, n, path, s =>
      let (s, n', stopped) :=
        readDir stops fs (fun s e => s.bind fun s => walkEntry fs record path s e) n path
          (some { s with depth := s.depth + 1 })
      s.bind fun s =>
        if stopped then some s
        else
          s.getNextPath.bind fun (next, s) =>
            match next with
            | none => some s
            | some path => walkLoop fuel n' path { s with findFolder := 0 }

/-- Either walk from its start. -/
def walkTree (root : Text) (recorded : σ) (fuel : Nat) : Option (Walker σ) :=
  let s : Walker σ := { nodes := [⟨root, none, none⟩], tmpRoot := 0, prvNode := 0, recorded }
  (s.getFullPath 0).bind fun (path, s) =>
    match path with
    | none => some s
    | some path => (s.addNode record 0).bind fun s => walkLoop stops fs record fuel 0 path s

end Walk

/-! ### Places in the tree -/

/-- The chain of right brothers from a pointer, all of them children of one node. -/
def Brothers (nodes : List DirInfo) (p : Nat) : Option Nat → List Text → Prop
  | b, [] => b = none
  | b, name :: names =>
      ∃ a rbrother, b = some a ∧ nodes[a]? = some ⟨name, some p, rbrother⟩ ∧ p < a ∧
        Brothers nodes p rbrother names

/-- The node and its ancestors are these frames. Parents are older than their
children. -/
def Located (nodes : List DirInfo) : Nat → List Frame → Prop
  | a, [] => a = 0
  | a, ⟨name, rbrothers⟩ :: up =>
      ∃ p rbrother, nodes[a]? = some ⟨name, some p, rbrother⟩ ∧ p < a ∧
        Brothers nodes p rbrother rbrothers ∧ Located nodes p up

/-- The children of `p` with these names, the first one at address `a`. -/
def brood (p : Nat) : Nat → List Text → List DirInfo
  | _, [] => []
  | _, [name] => [⟨name, some p, none⟩]
  | a, name :: name' :: names => ⟨name, some p, some (a + 1)⟩ :: brood p (a + 1) (name' :: names)

section Places

variable {nodes more : List DirInfo} {root : Text} {a p : Nat} {frames : List Frame}

theorem getElem?_append_of_some {x : DirInfo} (h : nodes[a]? = some x) :
    (nodes ++ more)[a]? = some x := by
  obtain ⟨hlt, -⟩ := List.getElem?_eq_some_iff.mp h
  rwa [List.getElem?_append_left hlt]

theorem Brothers.append {b : Option Nat} {names : List Text} (h : Brothers nodes p b names) :
    Brothers (nodes ++ more) p b names := by
  induction names generalizing b with
  | nil => exact h
  | cons name names ih =>
      obtain ⟨a, rbrother, rfl, hnode, hlt, hrest⟩ := h
      exact ⟨a, rbrother, rfl, getElem?_append_of_some hnode, hlt, ih hrest⟩

theorem Located.append (h : Located nodes a frames) : Located (nodes ++ more) a frames := by
  induction frames generalizing a with
  | nil => exact h
  | cons frame up ih =>
      obtain ⟨p, rbrother, hnode, hlt, hbrothers, hup⟩ := h
      exact ⟨p, rbrother, getElem?_append_of_some hnode, hlt, hbrothers.append, ih hup⟩

theorem Located.length_le (h : Located nodes a frames) : frames.length ≤ a := by
  induction frames generalizing a with
  | nil => exact Nat.zero_le a
  | cons frame up ih =>
      obtain ⟨p, rbrother, -, hlt, -, hup⟩ := h
      exact Nat.lt_of_le_of_lt (ih hup) hlt

theorem Located.lt_length (hroot : nodes[0]? = some ⟨root, none, none⟩)
    (h : Located nodes a frames) : a < nodes.length := by
  cases frames with
  | nil =>
      obtain rfl : a = 0 := h
      exact (List.getElem?_eq_some_iff.mp hroot).1
  | cons frame up =>
      obtain ⟨p, rbrother, hnode, -, -, -⟩ := h
      exact (List.getElem?_eq_some_iff.mp hnode).1

/-- The chain of parents bears the names of the frames. -/
theorem lineage_of_located (hroot : nodes[0]? = some ⟨root, none, none⟩)
    (h : Located nodes a frames) {fuel : Nat} (hfuel : frames.length < fuel) :
    lineage nodes fuel a = some (names root frames) := by
  induction frames generalizing a fuel with
  | nil =>
      obtain rfl : a = 0 := h
      obtain ⟨fuel, rfl⟩ := Nat.exists_eq_add_one_of_ne_zero (Nat.ne_of_gt hfuel)
      rw [lineage, hroot]
      rfl
  | cons frame up ih =>
      obtain ⟨p, rbrother, hnode, -, -, hup⟩ := h
      obtain ⟨fuel, rfl⟩ := Nat.exists_eq_add_one_of_ne_zero (Nat.ne_zero_of_lt hfuel)
      rw [lineage, hnode, names_cons]
      simp only [Option.bind_some, ih hup (Nat.lt_of_succ_lt_succ hfuel), Option.map_some]

theorem length_names (root : Text) (frames : List Frame) :
    (names root frames).length = frames.length + 1 := by
  simp [names]

/-- The climb follows the frames; its depth stays one above that of its node. -/
theorem climbLoop_spec {frame : Frame} {up : List Frame}
    (h : Located nodes a (frame :: up)) {fuel : Nat} (hfuel : up.length < fuel) :
    match climb up with
    | none => climbLoop nodes fuel a (up.length + 2) = some (none, 0)
    | some frames => ∃ b, climbLoop nodes fuel a (up.length + 2) =
        some (some b, (frames.length : Int) + 1) ∧ Located nodes b frames := by
  induction up generalizing a frame fuel with
  | nil =>
      obtain ⟨p, rbrother, hnode, -, -, rfl⟩ := h
      obtain ⟨fuel, rfl⟩ := Nat.exists_eq_add_one_of_ne_zero (Nat.ne_of_gt hfuel)
      rw [climb, climbLoop, hnode]
      rfl
  | cons parent up ih =>
      obtain ⟨p, rbrother, hnode, -, -, hparent⟩ := h
      obtain ⟨fuel, rfl⟩ := Nat.exists_eq_add_one_of_ne_zero (Nat.ne_zero_of_lt hfuel)
      obtain ⟨pp, prbrother, hpnode, hlt, hpbrothers, hup⟩ := id hparent
      have hp : p ≠ 0 := Nat.ne_zero_of_lt hlt
      have hdepth : (↑(parent :: up).length + 2 - 1 : Int) = up.length + 2 := by
        rw [List.length_cons]
        omega
      obtain ⟨name, rbrothers⟩ := parent
      cases rbrothers with
      | nil =>
          obtain rfl : prbrother = none := hpbrothers
          rw [climb]
          simp only [climbLoop, hnode, Option.bind_some, hp, if_false, hpnode, hdepth]
          exact ih hparent (Nat.lt_of_succ_lt_succ hfuel)
      | cons r rs =>
          obtain ⟨b, brother, rfl, hb, hpb, hrest⟩ := hpbrothers
          have hlength : (↑(⟨r, rs⟩ :: up : List Frame).length + 1 : Int) = up.length + 2 := by
            rw [List.length_cons]
            omega
          refine ⟨b, ?_, pp, brother, hb, hpb, hrest, hup⟩
          simp only [climbLoop, hnode, Option.bind_some, hp, if_false, hpnode, hdepth, hlength]

theorem length_brood (p a : Nat) (ks : List Text) : (brood p a ks).length = ks.length := by
  induction ks generalizing a with
  | nil => rfl
  | cons k ks ih =>
      cases ks with
      | nil => rfl
      | cons k' ks =>
          rw [brood, List.length_cons, ih]
          rfl

theorem modify_append_right {α : Type} (f : α → α) (xs ys : List α) (i : Nat) :
    (xs ++ ys).modify (xs.length + i) f = xs ++ ys.modify i f := by
  induction xs with
  | nil => rw [List.nil_append, List.nil_append, List.length_nil, Nat.zero_add]
  | cons x xs ih =>
      rw [List.cons_append, List.length_cons, Nat.succ_add, List.modify_succ_cons, ih,
        List.cons_append]

/-- One more child becomes the right brother of the last one. -/
theorem brood_concat (p a : Nat) (k' : Text) (ks : List Text) (k : Text) :
    brood p a (k' :: ks ++ [k]) =
      ((brood p a (k' :: ks)).modify ks.length fun node =>
        { node with rbrother := some (a + ks.length + 1) }) ++ [⟨k, some p, none⟩] := by
  induction ks generalizing a k' with
  | nil => rfl
  | cons k'' ks ih =>
      rw [List.cons_append, List.cons_append, brood, ← List.cons_append, ih, brood,
        List.length_cons, List.modify_succ_cons, List.cons_append, Nat.add_right_comm a 1]
      rfl

theorem getElem?_brood_last (p a : Nat) (ks : List Text) (k : Text) :
    (brood p a (ks ++ [k]))[ks.length]? = some ⟨k, some p, none⟩ := by
  cases ks with
  | nil => rfl
  | cons k' ks =>
      rw [brood_concat, List.getElem?_append_right (by simp [length_brood])]
      simp [length_brood]

theorem brothers_brood (hp : p < nodes.length) (ks : List Text) (k : Text) :
    Brothers (nodes ++ brood p nodes.length (k :: ks)) p (some nodes.length) (k :: ks) := by
  induction ks generalizing nodes k with
  | nil =>
      refine ⟨_, none, rfl, ?_, hp, rfl⟩
      rw [List.getElem?_append_right (Nat.le_refl _), Nat.sub_self]
      rfl
  | cons k' ks ih =>
      refine ⟨_, some (nodes.length + 1), rfl, ?_, hp, ?_⟩
      · rw [List.getElem?_append_right (Nat.le_refl _), Nat.sub_self]
        rfl
      · have hrest := @ih (nodes ++ [⟨k, some p, some (nodes.length + 1)⟩])
          (by rw [List.length_append]; exact Nat.lt_add_right _ hp) k'
        rw [List.length_append, List.length_singleton, List.append_assoc] at hrest
        exact hrest

/-- The first of the new children is the place where the walk goes on. -/
theorem located_brood (hroot : nodes[0]? = some ⟨root, none, none⟩)
    (h : Located nodes p frames) (k : Text) (ks : List Text) :
    Located (nodes ++ brood p nodes.length (k :: ks)) nodes.length (⟨k, ks⟩ :: frames) := by
  obtain ⟨a, rbrother, heq, hnode, hlt, hrest⟩ := brothers_brood (h.lt_length hroot) ks k
  obtain rfl := Option.some.inj heq
  exact ⟨p, rbrother, hnode, hlt, hrest, h.append⟩

end Places

/-! ### The walk along the places -/

/-- The walk stands at the frames, before or after it has read the directory there. -/
structure Stands {σ : Type} (root : Text) (frames : List Frame) (s : Walker σ) : Prop where
  rootNode : s.nodes[0]? = some ⟨root, none, none⟩
  located : Located s.nodes s.tmpRoot frames
  findFolder : s.findFolder = 0
  depth : s.depth = frames.length
  calls : ∀ c ∈ s.calls, c.1 = c.2

/-- The walk reads the directory at the frames, and has met these children. -/
structure Reading {σ : Type} (root : Text) (nodes : List DirInfo) (a : Nat)
    (frames : List Frame) (kids : List Text) (s : Walker σ) : Prop where
  rootNode : nodes[0]? = some ⟨root, none, none⟩
  located : Located nodes a frames
  grown : s.nodes = nodes ++ brood a nodes.length kids
  tmpRoot : s.tmpRoot = if kids = [] then a else nodes.length
  prvNode : kids ≠ [] → s.prvNode + 1 = nodes.length + kids.length
  findFolder : s.findFolder = kids.length
  depth : s.depth = frames.length + 1
  calls : ∀ c ∈ s.calls, c.1 = c.2

section Steps

variable {σ : Type} {root : Text} {nodes : List DirInfo} {a : Nat} {frames : List Frame}
  {kids : List Text} {k : Text} {s : Walker σ}

/-- Where the depth is the number of ancestors, the path is that of the names. -/
theorem getFullPath_spec (hroot : s.nodes[0]? = some ⟨root, none, none⟩)
    (h : Located s.nodes a frames) (hdepth : s.depth = frames.length) :
    s.getFullPath a = some (msGetFullPathFromNode (names root frames),
      { s with calls := s.calls ++ [(s.depth, frames.length)] }) := by
  have hfuel : frames.length < s.nodes.length :=
    Nat.lt_of_le_of_lt h.length_le (h.lt_length hroot)
  have hneg : ¬ s.depth < 0 := by omega
  have hlen : s.depth + 1 = ((names root frames).length : Int) := by
    rw [length_names, hdepth]
    rfl
  rw [Walker.getFullPath, lineage_of_located hroot h hfuel, Option.bind_some]
  simp only [if_neg hneg, if_pos hlen]
  rw [length_names, Nat.add_sub_cancel]

theorem calls_concat {calls : List (Int × Nat)} {depth : Int} {n : Nat}
    (h : ∀ c ∈ calls, c.1 = c.2) (hdepth : depth = n) :
    ∀ c ∈ calls ++ [(depth, n)], c.1 = (c.2 : Int) := by
  intro c hc
  cases List.mem_append.mp hc with
  | inl hc => exact h c hc
  | inr hc =>
      rw [List.mem_singleton.mp hc]
      exact hdepth

theorem Stands.reading (h : Stands root frames s) :
    Reading root s.nodes s.tmpRoot frames [] { s with depth := s.depth + 1 } where
  rootNode := h.rootNode
  located := h.located
  grown := (List.append_nil s.nodes).symm
  tmpRoot := rfl
  prvNode hkids := absurd rfl hkids
  findFolder := h.findFolder
  depth := by rw [h.depth]
  calls := h.calls

theorem Reading.newNode (h : Reading root nodes a frames kids s) (k : Text) :
    Reading root nodes a frames (kids ++ [k]) (s.newNode k) := by
  have hfind : s.findFolder = 0 ↔ kids = [] := by rw [h.findFolder, List.length_eq_zero_iff]
  cases kids with
  | nil =>
      have hnodes : s.nodes = nodes := by rw [h.grown]; exact List.append_nil nodes
      have htmp : s.tmpRoot = a := h.tmpRoot
      rw [Walker.newNode, if_pos (hfind.mpr rfl)]
      exact
        { rootNode := h.rootNode
          located := h.located
          grown := by rw [hnodes, htmp]; rfl
          tmpRoot := by rw [hnodes]; rfl
          prvNode := fun _ => by rw [hnodes]; rfl
          findFolder := by rw [h.findFolder]; rfl
          depth := h.depth
          calls := h.calls }
  | cons k' ks =>
      have hlength : s.nodes.length = nodes.length + ks.length + 1 := by
        rw [h.grown, List.length_append, length_brood]
        rfl
      have hprv : s.prvNode = nodes.length + ks.length :=
        Nat.succ.inj (h.prvNode (List.cons_ne_nil k' ks))
      have hparent : (s.nodes[s.tmpRoot]?).bind DirInfo.parent = some a := by
        rw [h.tmpRoot, if_neg (List.cons_ne_nil k' ks), h.grown,
          List.getElem?_append_right (Nat.le_refl _), Nat.sub_self]
        cases ks <;> rfl
      have hne : k' :: ks ++ [k] ≠ [] := List.cons_ne_nil k' _
      rw [Walker.newNode, if_neg fun hzero => List.cons_ne_nil k' ks (hfind.mp hzero)]
      exact
        { rootNode := h.rootNode
          located := h.located
          grown := by
            rw [brood_concat, hparent, hlength, hprv, h.grown,
              modify_append_right, List.append_assoc]
          tmpRoot := by rw [if_neg hne, h.tmpRoot, if_neg (List.cons_ne_nil k' ks)]
          prvNode := fun _ => by
            rw [hlength, List.length_append]
            rfl
          findFolder := by rw [h.findFolder, List.length_append]; rfl
          depth := h.depth
          calls := h.calls }

/-- The call for a new node: its path is that of the current node with its name. -/
theorem Reading.getFullPath_kid (h : Reading root nodes a frames (kids ++ [k]) s) :
    s.getFullPath (nodes.length + kids.length) =
      some (msGetFullPathFromNode (names root frames ++ [k]),
        { s with calls := s.calls ++ [(s.depth, frames.length + 1)] }) := by
  have hlocated : Located s.nodes (nodes.length + kids.length) (⟨k, []⟩ :: frames) := by
    refine ⟨a, none, ?_, ?_, rfl, ?_⟩
    · rw [h.grown, List.getElem?_append_right (Nat.le_add_right _ _), Nat.add_sub_cancel_left,
        getElem?_brood_last]
    · exact Nat.lt_of_lt_of_le (h.located.lt_length h.rootNode) (Nat.le_add_right _ _)
    · rw [h.grown]
      exact h.located.append
  have hroot : s.nodes[0]? = some ⟨root, none, none⟩ := by
    rw [h.grown]
    exact getElem?_append_of_some h.rootNode
  rw [getFullPath_spec hroot hlocated (by rw [h.depth]; rfl), names_cons]
  rfl

/-- The next path is that of the frames, and the walk stands there. -/
def GoesOn (root : Text) (s : Walker σ) (frames : List Frame)
    (next : Option (Option Text × Walker σ)) : Prop :=
  ∃ t, next = some (msGetFullPathFromNode (names root frames), t) ∧ t.recorded = s.recorded ∧
    Stands root frames { t with findFolder := 0 }

/-- The walk is over. -/
def Ends (s : Walker σ) (next : Option (Option Text × Walker σ)) : Prop :=
  ∃ t, next = some (none, t) ∧ t.recorded = s.recorded ∧ ∀ c ∈ t.calls, c.1 = c.2

theorem goesOn_getFullPath {b : Nat} (hroot : s.nodes[0]? = some ⟨root, none, none⟩)
    (hb : Located s.nodes b frames) (hcalls : ∀ c ∈ s.calls, c.1 = c.2) :
    GoesOn root s frames
      ({ s with tmpRoot := b, depth := (frames.length : Int) }.getFullPath b) :=
  ⟨_, getFullPath_spec hroot hb rfl, rfl, hroot, hb, rfl, rfl, calls_concat hcalls rfl⟩

/-- Without a new child the walk climbs. -/
theorem Reading.climbs (h : Reading root nodes a frames [] s) :
    match climb frames with
    | none => Ends s s.getNextPath
    | some frames' => GoesOn root s frames' s.getNextPath := by
  obtain rfl : s.nodes = nodes := by
    rw [h.grown]
    exact List.append_nil nodes
  obtain rfl : s.tmpRoot = a := h.tmpRoot
  have hfuel : frames.length < s.nodes.length :=
    Nat.lt_of_le_of_lt h.located.length_le (h.located.lt_length h.rootNode)
  have hfind : s.findFolder = 0 := h.findFolder
  rw [Walker.getNextPath, if_pos hfind, h.depth]
  cases frames with
  | nil =>
      have hzero : s.tmpRoot = 0 := h.located
      obtain ⟨fuel, hfuel⟩ := Nat.exists_eq_add_one_of_ne_zero (Nat.ne_of_gt hfuel)
      rw [climb, hzero, h.rootNode]
      simp only [hfuel, climbLoop, h.rootNode, Option.bind_some]
      exact ⟨_, rfl, rfl, h.calls⟩
  | cons frame up =>
      obtain ⟨p, rbrother, hnode, hlt, hbrothers, hup⟩ := id h.located
      obtain ⟨name, rbrothers⟩ := frame
      rw [hnode, Option.bind_some]
      cases rbrothers with
      | nil =>
          obtain rfl : rbrother = none := hbrothers
          have hclimb := climbLoop_spec h.located (Nat.lt_of_succ_lt hfuel)
          have hdepth : ((⟨name, []⟩ :: up : List Frame).length : Int) + 1 = up.length + 2 := by
            rw [List.length_cons]
            omega
          rw [climb, hdepth]
          cases hup : climb up with
          | none =>
              rw [hup] at hclimb
              simp only [hclimb, Option.bind_some]
              exact ⟨_, rfl, rfl, h.calls⟩
          | some frames' =>
              rw [hup] at hclimb
              obtain ⟨b, hclimb, hb⟩ := hclimb
              simp only [hclimb, Option.bind_some, Int.add_sub_cancel]
              exact goesOn_getFullPath h.rootNode hb h.calls
      | cons r rs =>
          obtain ⟨b, brother, rfl, hb, hpb, hrest⟩ := hbrothers
          have hnext : Located s.nodes b (⟨r, rs⟩ :: up) := ⟨p, brother, hb, hpb, hrest, hup⟩
          rw [climb]
          simp only [Int.add_sub_cancel]
          exact goesOn_getFullPath h.rootNode hnext h.calls

/-- With new children the walk descends to the first one. -/
theorem Reading.descends {ks : List Text} (h : Reading root nodes a frames (k :: ks) s) :
    GoesOn root s (⟨k, ks⟩ :: frames) s.getNextPath := by
  have hroot : s.nodes[0]? = some ⟨root, none, none⟩ := by
    rw [h.grown]
    exact getElem?_append_of_some h.rootNode
  have hlocated : Located s.nodes s.tmpRoot (⟨k, ks⟩ :: frames) := by
    rw [h.grown, h.tmpRoot, if_neg (List.cons_ne_nil k ks)]
    exact located_brood h.rootNode h.located k ks
  have hfind : s.findFolder ≠ 0 := by
    rw [h.findFolder]
    exact Nat.succ_ne_zero _
  have hdepth : s.depth = (⟨k, ks⟩ :: frames : List Frame).length := by
    rw [h.depth]
    rfl
  rw [Walker.getNextPath, if_neg hfind, getFullPath_spec hroot hlocated hdepth]
  exact ⟨_, rfl, rfl, hroot, hlocated, rfl, hdepth, calls_concat h.calls hdepth⟩

/-- The walk goes on at the place that the frames say, unless it is over. -/
theorem Reading.getNextPath_spec (h : Reading root nodes a frames kids s) :
    match nextNode kids frames with
    | none => Ends s s.getNextPath
    | some frames' => GoesOn root s frames' s.getNextPath := by
  cases kids with
  | nil => exact h.climbs
  | cons k ks => exact h.descends

end Steps

section Rounds

variable {σ τ : Type} {stops : Nat → Test → Bool} {fs : FileSystem} {f : σ → Dirent → σ}
  {g : τ → Dirent → τ} {R : σ → τ → Prop}

/-- Two bodies that keep a relation read the same entries. -/
theorem readEntries_rel (hbody : ∀ s t e, R s t → R (f s e) (g t e)) (entries : List Dirent)
    (n : Nat) {s : σ} {t : τ} (hst : R s t) :
    R (readEntries stops f n entries s).1 (readEntries stops g n entries t).1 ∧
      (readEntries stops f n entries s).2 = (readEntries stops g n entries t).2 := by
  induction entries generalizing n s t with
  | nil => exact ⟨hst, rfl⟩
  | cons e entries ih =>
      simp only [readEntries]
      split
      · exact ⟨hst, rfl⟩
      · split
        · exact ih (n + 1) hst
        · split
          · exact ⟨hst, rfl⟩
          · exact ih (n + 2) (hbody s t e hst)

variable (stops fs) in
theorem readDir_rel (hbody : ∀ s t e, R s t → R (f s e) (g t e)) (n : Nat) (path : Text)
    {s : σ} {t : τ} (hst : R s t) :
    R (readDir stops fs f n path s).1 (readDir stops fs g n path t).1 ∧
      (readDir stops fs f n path s).2 = (readDir stops fs g n path t).2 := by
  simp only [readDir]
  split
  · exact ⟨hst, rfl⟩
  · split
    · exact ⟨hst, rfl⟩
    · cases fs.opendir path with
      | none => exact ⟨hst, rfl⟩
      | some entries => exact readEntries_rel hbody entries (n + 2) hst

end Rounds

/-- The path is the root or lies below it. -/
def Under (root path : Text) : Prop := path = root ∨ root ++ ['/'] <+: path

/-- A path of a node begins with the root. -/
theorem under_of_names {root p : Text} {ns : List Text}
    (h : msGetFullPathFromNode (root :: ns) = some p) : Under root p := by
  obtain ⟨rfl, -⟩ := fullPathLoop_eq_some h
  rw [List.nil_append]
  cases ns with
  | nil => exact .inl (joinNames_singleton root)
  | cons n ns =>
      refine .inr ⟨joinNames (n :: ns), ?_⟩
      rw [joinNames_cons_cons, List.append_assoc]
      rfl

section Simulation

variable {σ : Type} {stops : Nat → Test → Bool} {fs : FileSystem} {record : σ → Text → σ}
  {root : Text} {nodes : List DirInfo} {a : Nat} {frames : List Frame} {Rel : σ → List Text → Prop}

/-- In the middle of a round: the same children, and records that are related. -/
def Meets (root : Text) (nodes : List DirInfo) (a : Nat) (frames : List Frame)
    (Rel : σ → List Text → Prop) (s : Option (Walker σ)) (c : Checked) : Prop :=
  ∃ w, s = some w ∧ Reading root nodes a frames c.kids w ∧ Rel w.recorded c.nodes

variable (hrecord : ∀ s l p, Under root p → Rel s l → Rel (record s p) (msScanAddNode l p))
include hrecord

variable (fs) in
theorem walkEntry_rel (path : Text) (s : Option (Walker σ)) (c : Checked) (e : Dirent)
    (h : Meets root nodes a frames Rel s c) :
    Meets root nodes a frames Rel (s.bind fun s => walkEntry fs record path s e)
      (checkEntry fs (names root frames) path c e) := by
  obtain ⟨w, rfl, hreading, hrel⟩ := h
  rw [Option.bind_some, walkEntry, checkEntry]
  split
  · cases msStrappend path e.name with
    | none => exact ⟨w, rfl, hreading, hrel⟩
    | some getPath =>
        simp only
        split
        · have hnew := hreading.newNode e.name
          have hlength : w.nodes.length = nodes.length + c.kids.length := by
            rw [hreading.grown, List.length_append, length_brood]
          have hrecorded : (w.newNode e.name).recorded = w.recorded := by
            rw [Walker.newNode]
            split <;> rfl
          rw [Walker.addNode, hlength, hnew.getFullPath_kid]
          refine ⟨_, rfl, { hnew with calls := calls_concat hnew.calls hnew.depth }, ?_⟩
          simp only [hrecorded]
          cases hfull : msGetFullPathFromNode (names root frames ++ [e.name]) with
          | none => exact hrel
          | some p => exact hrecord _ _ p (under_of_names hfull) hrel
        · exact ⟨w, rfl, hreading, hrel⟩
  · exact ⟨w, rfl, hreading, hrel⟩

/-- When the walk along the frames ends, so does the walk along the nodes, with the
same records. -/
theorem walkLoop_of_checkLoop {fuel n : Nat} {path : Text} {found l : List Text}
    {s : Walker σ} (hstands : Stands root frames s)
    (hpath : msGetFullPathFromNode (names root frames) = some path)
    (hrel : Rel s.recorded found) (h : checkLoop stops fs root fuel n frames found = some l) :
    ∃ r, walkLoop stops fs record fuel n path s = some r ∧ Rel r.recorded l ∧
      ∀ c ∈ r.calls, c.1 = c.2 := by
  induction fuel generalizing n path found frames s with
  | zero => cases h
  | succ fuel ih =>
      have hmeets : Meets root s.nodes s.tmpRoot frames Rel
          (some { s with depth := s.depth + 1 }) { nodes := found } :=
        ⟨_, rfl, hstands.reading, hrel⟩
      obtain ⟨⟨w, hw, hreading, hfound⟩, hpolls⟩ :=
        readDir_rel stops fs (walkEntry_rel fs hrecord path) n path hmeets
      rw [checkLoop, hpath] at h
      simp only at h
      rw [walkLoop]
      simp only [hw, hpolls, Option.bind_some]
      split at h
      next hstopped =>
        obtain rfl := Option.some.inj h
        exact ⟨w, if_pos hstopped, hfound, hreading.calls⟩
      next hstopped =>
        rw [if_neg hstopped]
        have hnext := hreading.getNextPath_spec
        split at h
        next hplace =>
          obtain rfl := Option.some.inj h
          rw [hplace] at hnext
          obtain ⟨t, hnext, hrecorded, hcalls⟩ := hnext
          rw [hnext, Option.bind_some]
          exact ⟨t, rfl, hrecorded ▸ hfound, hcalls⟩
        next frames' hplace =>
          rw [hplace] at hnext
          obtain ⟨t, hnext, hrecorded, hstands'⟩ := hnext
          rw [hnext, Option.bind_some]
          cases hpath' : msGetFullPathFromNode (names root frames') with
          | none =>
              cases fuel with
              | zero => cases h
              | succ fuel =>
                  rw [checkLoop, hpath'] at h
                  obtain rfl := Option.some.inj h
                  exact ⟨t, rfl, hrecorded ▸ hfound, hstands'.calls⟩
          | some path' => exact ih hstands' hpath' (hrecorded ▸ hfound) h

/-- Either walk does what the walk along the frames does. -/
theorem walkTree_of_msDirCheck {recorded : σ} {fuel : Nat} {l : List Text}
    (hrel : Rel recorded []) (h : msDirCheck stops fs root fuel = some l) :
    ∃ r, walkTree stops fs record root recorded fuel = some r ∧ Rel r.recorded l ∧
      ∀ c ∈ r.calls, c.1 = c.2 := by
  have hstart : ∀ recorded calls, (∀ c ∈ calls, c.1 = (c.2 : Int)) →
      Stands root [] (⟨[⟨root, none, none⟩], 0, 0, 0, 0, recorded, calls⟩ : Walker σ) :=
    fun recorded calls hcalls => ⟨rfl, rfl, rfl, rfl, hcalls⟩
  have hget : ∀ recorded calls, (∀ c ∈ calls, c.1 = (c.2 : Int)) →
      (⟨[⟨root, none, none⟩], 0, 0, 0, 0, recorded, calls⟩ : Walker σ).getFullPath 0 =
        some (msGetFullPathFromNode [root],
          ⟨[⟨root, none, none⟩], 0, 0, 0, 0, recorded, calls ++ [(0, 0)]⟩) :=
    fun recorded calls hcalls => getFullPath_spec (hstart recorded calls hcalls).rootNode
      (hstart recorded calls hcalls).located (hstart recorded calls hcalls).depth
  have hone : ∀ c ∈ ([] : List (Int × Nat)) ++ [(0, 0)], c.1 = c.2 := calls_concat nofun rfl
  rw [msDirCheck] at h
  rw [walkTree]
  simp only [hget recorded [] nofun, Option.bind_some]
  cases hpath : msGetFullPathFromNode [root] with
  | none =>
      rw [hpath] at h
      obtain rfl := Option.some.inj h
      exact ⟨_, rfl, hrel, hone⟩
  | some path =>
      rw [hpath] at h
      simp only [Walker.addNode, hget recorded _ hone, hpath, Option.map_some, Option.bind_some,
        Option.elim_some]
      have htwo := calls_concat hone (show (0 : Int) = (0 : Nat) from rfl)
      exact walkLoop_of_checkLoop hrecord (hstart _ _ htwo) hpath
        (hrecord recorded [] path (under_of_names hpath) hrel) h

end Simulation

end MediaServer.Scan
