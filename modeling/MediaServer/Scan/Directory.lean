import MediaServer.Foundation.Polling
import MediaServer.Path
import MediaServer.Scan.Thread

/-!
# The walk over a storage

`_ms_dir_check` collects the directories of the storage in a list, walking a tree
of nodes that it builds on the way; `_ms_dir_scan` then reads every directory of
the list and hands over its files. Both test the flags before every directory
and at every entry, and both give up without a result when a test fails.

Of the tree the walk only ever needs the right brothers of the current node and
of its ancestors, which is how a place in it is represented here. The flags are
an oracle that answers the tests in their order.
-/

namespace MediaServer.Scan

open Polling

/-- The two tests. -/
inductive Test where
  | powerOff
  /-- `mmc_state` is not `MOUNTED` and the storage is external. -/
  | mmcState
deriving DecidableEq, Repr

/-- A failing test stops the loop. -/
def fails (storageType : StorageType) (flags : Nat → Flags) (n : Nat) : Test → Bool
  | .powerOff => (flags n).powerOff
  | .mmcState => (flags n).mmcState ≠ .mounted && storageType = .external

variable (stops : Nat → Test → Bool) (fs : FileSystem)

/-- The loop over `readdir_r`, with what is done for a visible entry. -/
def readEntries {σ : Type} (handle : σ → Dirent → σ) : Nat → List Dirent → σ → σ × Nat × Bool
  | n, [], s => (s, n + 1, stops n .powerOff)
  | n, e :: entries, s =>
      if stops n .powerOff then (s, n + 1, true)
      else if e.hidden then readEntries handle (n + 1) entries s
      else if stops (n + 1) .mmcState then (s, n + 2, true)
      else readEntries handle (n + 2) entries (handle s e)

/-- One round of either walk: the tests, then the entries of the directory. -/
def readDir {σ : Type} (handle : σ → Dirent → σ) (n : Nat) (path : Text) (s : σ) :
    σ × Nat × Bool :=
  if stops n .powerOff then (s, n + 1, true)
  else if stops (n + 1) .mmcState then (s, n + 2, true)
  else
    match fs.opendir path with
    | none => (s, n + 2, false)
    | some entries => readEntries stops handle (n + 2) entries s

/-- `_ms_scan_add_node` behind the computation of the path. -/
def msScanAddNode (nodes : List Text) (fullPath : Text) : List Text :=
  if fullPath ∈ nodes then nodes else nodes ++ [fullPath]

/-- What a round of `_ms_dir_check` collects: the names of the new nodes, from left
to right, and the list of directories. -/
structure Checked where
  kids : List Text := []
  nodes : List Text := []
deriving DecidableEq, Repr

/-- The body of the inner loop of `_ms_dir_check` for the node with these names. -/
def checkEntry (names : List Text) (path : Text) (s : Checked) (e : Dirent) : Checked :=
  if e.isDir then
    match msStrappend path e.name with
    | none => s
    | some getPath =>
        if fs.opens getPath then
          { kids := s.kids ++ [e.name]
            nodes :=
              match msGetFullPathFromNode (names ++ [e.name]) with
              | none => s.nodes
              | some fullPath => msScanAddNode s.nodes fullPath }
        else s
  else s

/-- A node on the way from the root to the current one. -/
structure Frame where
  name : Text
  /-- The chain of its `Rbrother` pointers. -/
  rbrothers : List Text
deriving DecidableEq, Repr

/-- The names of the current node and its ancestors, the root first. -/
def names (root : Text) (frames : List Frame) : List Text :=
  root :: (frames.map Frame.name).reverse

/-- The loop that looks for a right brother of the node or of an ancestor. -/
def climb : List Frame → Option (List Frame)
  | [] => none
  | ⟨_, r :: rbrothers⟩ :: up => some (⟨r, rbrothers⟩ :: up)
  | ⟨_, []⟩ :: up => climb up

/-- `_ms_scan_get_next_path_from_current_node`: the first new node, if there is
one. -/
def nextNode (kids : List Text) (frames : List Frame) : Option (List Frame) :=
  match kids with
  | [] => climb frames
  | k :: rbrothers => some (⟨k, rbrothers⟩ :: frames)

/-- The outer loop of `_ms_dir_check`. -/
def checkLoop (root : Text) : Nat → Nat → List Frame → List Text → Option (List Text)
  | 0, _, _, _ => none
  | fuel + 1, n, frames, nodes =>
      match msGetFullPathFromNode (names root frames) with
      | none => some nodes
      | some path =>
          let (s, n', stopped) :=
            readDir stops fs (checkEntry fs (names root frames) path) n path { nodes }
          if stopped then some s.nodes
          else
            match nextNode s.kids frames with
            | none => some s.nodes
            | some frames' => checkLoop root fuel n' frames' s.nodes

/-- `_ms_dir_check`: the list that `first_scan_node` heads. -/
def msDirCheck (root : Text) (fuel : Nat) : Option (List Text) :=
  match msGetFullPathFromNode [root] with
  | none => some []
  | some path => checkLoop stops fs root fuel 0 [] (msScanAddNode [] path)

/-- The body of the inner loop of `_ms_dir_scan`, with what is done for a file. -/
def scanEntry {σ : Type} (handle : σ → Text → σ) (dir : Text) (s : σ) (e : Dirent) : σ :=
  if e.isReg then
    match msStrappend dir e.name with
    | none => s
    | some path => handle s path
  else s

/-- The loop of `_ms_dir_scan` over the list of directories. -/
def scanLoop {σ : Type} (handle : σ → Text → σ) : Nat → List Text → σ → σ
  | _, [], s => s
  | n, dir :: nodes, s =>
      let (s, n', stopped) := readDir stops fs (scanEntry handle dir) n dir s
      if stopped then s else scanLoop handle n' nodes s

section Actions

variable {α : Type} (select : Dirent → Option α)

/-- The actions at one entry, of which `select` says what is put out. -/
def entryActions (e : Dirent) : List (Action Test α) :=
  .poll .powerOff ::
    if e.hidden then [] else .poll .mmcState :: (select e).toList.map .emit

/-- The actions of one round for this directory. -/
def dirActions (path : Text) : List (Action Test α) :=
  .poll .powerOff :: .poll .mmcState ::
    match fs.opendir path with
    | none => []
    | some entries => entries.flatMap (entryActions select) ++ [.poll .powerOff]

/-- What a round puts out when no test stops it. -/
def selected (path : Text) : List α :=
  match fs.opendir path with
  | none => []
  | some entries => (entries.filter (¬ ·.hidden)).filterMap select

end Actions

/-- A directory that `_ms_dir_check` takes up, with its parent. -/
def subdirectory (path : Text) (e : Dirent) : Option (Text × Text) :=
  if e.isDir then
    (msStrappend path e.name).bind fun getPath =>
      if fs.opens getPath then some (path, e.name) else none
  else none

def joined (d : Text × Text) : Text := d.1 ++ '/' :: d.2

/-- The actions of the walk below a directory, in the order of the walk. Paths
grow, so a depth beyond the longest path loses nothing. -/
def walkActions : Nat → Text → List (Action Test (Text × Text))
  | 0, _ => []
  | depth + 1, path =>
      dirActions fs (subdirectory fs path) path ++
        (selected fs (subdirectory fs path) path).flatMap
          fun d => walkActions depth (joined d)

/-- A file that `_ms_dir_scan` hands over. -/
def regularFile (dir : Text) (e : Dirent) : Option Text :=
  if e.isReg then msStrappend dir e.name else none

/-- The actions of `_ms_dir_scan` for a list of directories. -/
def scanActions (nodes : List Text) : List (Action Test Text) :=
  nodes.flatMap fun dir => dirActions fs (regularFile dir) dir

section Rounds

variable {stops fs} {α σ : Type} {select : Dirent → Option α} {handle : σ → Dirent → σ}
  {f : σ → α → σ} (hhandle : ∀ s e, handle s e = (select e).elim s (f s))
include hhandle

theorem readEntries_eq (n : Nat) (entries : List Dirent) (s : σ) :
    readEntries stops handle n entries s =
      let r := run stops n (entries.flatMap (entryActions select) ++ [.poll .powerOff])
      (r.emitted.foldl f s, r.next, r.stopped) := by
  induction entries generalizing n s with
  | nil =>
      rw [readEntries]
      cases hpower : stops n .powerOff with
      | true => simp [run_poll_of_stops hpower]
      | false => simp [run_poll_of_not_stops hpower]
  | cons e entries ih =>
      rw [readEntries, List.flatMap_cons, List.append_assoc, entryActions, List.cons_append]
      cases hpower : stops n .powerOff with
      | true => simp [run_poll_of_stops hpower]
      | false =>
          rw [run_poll_of_not_stops hpower, if_neg (by nofun)]
          cases hhidden : e.hidden with
          | true => exact ih (n + 1) s
          | false =>
              simp only [Bool.false_eq_true, if_false, List.cons_append]
              cases hmmc : stops (n + 1) .mmcState with
              | true => simp [run_poll_of_stops hmmc]
              | false =>
                  rw [run_poll_of_not_stops hmmc, ih, hhandle]
                  simp only [Bool.false_eq_true, if_false]
                  cases select e with
                  | none => rfl
                  | some a => rfl

variable (stops fs) in
theorem readDir_eq (n : Nat) (path : Text) (s : σ) :
    readDir stops fs handle n path s =
      let r := run stops n (dirActions fs select path)
      (r.emitted.foldl f s, r.next, r.stopped) := by
  rw [readDir, dirActions]
  cases hpower : stops n .powerOff with
  | true => simp [run_poll_of_stops hpower]
  | false =>
      rw [run_poll_of_not_stops hpower, if_neg (by nofun)]
      cases hmmc : stops (n + 1) .mmcState with
      | true => simp [run_poll_of_stops hmmc]
      | false =>
          rw [run_poll_of_not_stops hmmc, if_neg (by nofun)]
          cases fs.opendir path with
          | none => rfl
          | some entries => exact readEntries_eq hhandle (n + 2) entries s

end Rounds

section Walk

variable {stops fs}

theorem outputs_dirActions {α : Type} (select : Dirent → Option α) (path : Text) :
    outputs (dirActions fs select path) = selected fs select path := by
  have hentries : ∀ entries : List Dirent, outputs (entries.flatMap (entryActions select)) =
      (entries.filter (¬ ·.hidden)).filterMap select := by
    intro entries
    induction entries with
    | nil => rfl
    | cons e entries ih =>
        rw [List.flatMap_cons, outputs_append, ih, entryActions, outputs]
        cases hhidden : e.hidden with
        | true => simp [hhidden, outputs]
        | false =>
            cases hselect : select e with
            | none => simp [hhidden, hselect, outputs]
            | some a => simp [hhidden, hselect, outputs]
  rw [dirActions, selected, outputs, outputs]
  cases fs.opendir path with
  | none => rfl
  | some entries => rw [outputs_append, hentries]; exact List.append_nil _

/-- The subdirectories of a directory keep its path. -/
theorem eq_of_mem_subdirectories {path : Text} {d : Text × Text}
    (h : d ∈ selected fs (subdirectory fs path) path) :
    d.1 = path ∧ (msStrappend path d.2).isSome := by
  rw [selected] at h
  split at h
  next => cases h
  next entries =>
    obtain ⟨e, -, he⟩ := List.mem_filterMap.mp h
    rw [subdirectory] at he
    split at he
    next =>
      obtain ⟨getPath, happend, hopens⟩ := Option.bind_eq_some_iff.mp he
      split at hopens
      next =>
        obtain rfl := Option.some.inj hopens
        exact ⟨rfl, by rw [happend]; rfl⟩
      next => cases hopens
    next => cases he

/-- The effect of a new node on the two collections. -/
def Checked.add (s : Checked) (d : Text × Text) : Checked where
  kids := s.kids ++ [d.2]
  nodes := msScanAddNode s.nodes (joined d)

theorem foldl_add (found : List (Text × Text)) (s : Checked) :
    found.foldl Checked.add s =
      { kids := s.kids ++ found.map Prod.snd
        nodes := (found.map joined).foldl msScanAddNode s.nodes } := by
  induction found generalizing s with
  | nil => simp
  | cons d found ih => simp [ih, Checked.add]

theorem names_cons (root k : Text) (ks : List Text) (frames : List Frame) :
    names root (⟨k, ks⟩ :: frames) = names root frames ++ [k] := by
  simp [names]

/-- The path of a new node never overflows, because `ms_strappend` has accepted it. -/
theorem fullPath_kid {root path k : Text} {frames : List Frame} {ks : List Text}
    (hpath : msGetFullPathFromNode (names root frames) = some path)
    (happend : (msStrappend path k).isSome) :
    msGetFullPathFromNode (names root (⟨k, ks⟩ :: frames)) = some (path ++ '/' :: k) := by
  obtain ⟨getPath, hget⟩ := Option.isSome_iff_exists.mp happend
  rw [names_cons]
  exact fullPathLoop_concat hpath (length_le_of_msStrappend hget)

variable (fs) in
theorem checkEntry_eq {root path : Text} {frames : List Frame}
    (hpath : msGetFullPathFromNode (names root frames) = some path) (s : Checked) (e : Dirent) :
    checkEntry fs (names root frames) path s e =
      (subdirectory fs path e).elim s s.add := by
  rw [checkEntry, subdirectory]
  split
  · cases happend : msStrappend path e.name with
    | none => rfl
    | some getPath =>
        cases hopens : fs.opens getPath with
        | false => simp [hopens]
        | true =>
            have hkid : msGetFullPathFromNode (names root (⟨e.name, []⟩ :: frames)) =
                some (path ++ '/' :: e.name) := fullPath_kid hpath (by rw [happend]; rfl)
            rw [names_cons] at hkid
            simp [hopens, hkid, Checked.add, joined]
  · rfl

variable (stops fs) in
/-- Where `_ms_dir_check` goes on when it has finished everything below a node. -/
def checkAfter (root : Text) (fuel : Nat) (frames : List Frame) (r : Outcome (Text × Text))
    (nodes : List Text) : Option (List Text) :=
  let nodes := (r.emitted.map joined).foldl msScanAddNode nodes
  if r.stopped then some nodes
  else
    match climb frames with
    | none => some nodes
    | some frames' => checkLoop stops fs root fuel r.next frames' nodes

/-- The walk below one node, for every place in the tree. -/
def Walks (stops : Nat → Test → Bool) (fs : FileSystem) (root : Text) (depth : Nat) : Prop :=
  ∀ n frames nodes path, msGetFullPathFromNode (names root frames) = some path →
    msFilePathLenMax < path.length + depth → ∃ enough, ∀ fuel,
      checkLoop stops fs root (enough + fuel) n frames nodes =
        checkAfter stops fs root fuel frames (run stops n (walkActions fs depth path)) nodes

theorem checkAfter_append {root : Text} {fuel n : Nat} {frames : List Frame}
    {xs ys : List (Action Test (Text × Text))} {nodes : List Text}
    (h : (run stops n xs).stopped = false) :
    checkAfter stops fs root fuel frames (run stops n (xs ++ ys)) nodes =
      checkAfter stops fs root fuel frames (run stops (run stops n xs).next ys)
        (((run stops n xs).emitted.map joined).foldl msScanAddNode nodes) := by
  rw [run_append_of_not_stopped ys h]
  simp only [checkAfter, List.map_append, List.foldl_append]

theorem checkAfter_of_stopped {root : Text} {fuel : Nat} {frames : List Frame}
    {r : Outcome (Text × Text)} {nodes : List Text} (h : r.stopped = true) :
    checkAfter stops fs root fuel frames r nodes =
      some ((r.emitted.map joined).foldl msScanAddNode nodes) := if_pos h

/-- A chain of right brothers, from the walk below each of them. -/
theorem walks_brothers {root path : Text} {depth : Nat} {frames : List Frame}
    (ih : Walks stops fs root depth)
    (hpath : msGetFullPathFromNode (names root frames) = some path)
    (hdepth : msFilePathLenMax < path.length + (depth + 1))
    (k : Text) (ks : List Text) (hkids : ∀ c ∈ k :: ks, (msStrappend path c).isSome)
    (n : Nat) (nodes : List Text) :
    ∃ enough, ∀ fuel, checkLoop stops fs root (enough + fuel) n (⟨k, ks⟩ :: frames) nodes =
      checkAfter stops fs root fuel frames
        (run stops n ((k :: ks).flatMap fun c => walkActions fs depth (path ++ '/' :: c)))
        nodes := by
  have hkid : ∀ c ks', (msStrappend path c).isSome → ∀ n nodes, ∃ enough, ∀ fuel,
      checkLoop stops fs root (enough + fuel) n (⟨c, ks'⟩ :: frames) nodes =
        checkAfter stops fs root fuel (⟨c, ks'⟩ :: frames)
          (run stops n (walkActions fs depth (path ++ '/' :: c))) nodes := by
    intro c ks' hc n nodes
    refine ih n _ nodes _ (fullPath_kid hpath hc) ?_
    simp only [List.length_append, List.length_cons]
    omega
  induction ks generalizing k n nodes with
  | nil =>
      obtain ⟨enough, henough⟩ := hkid k [] (hkids k List.mem_cons_self) n nodes
      refine ⟨enough, fun fuel => ?_⟩
      rw [henough, List.flatMap_singleton]
      rfl
  | cons k' ks ihks =>
      obtain ⟨first, hfirst⟩ := hkid k (k' :: ks) (hkids k List.mem_cons_self) n nodes
      cases hstopped : (run stops n (walkActions fs depth (path ++ '/' :: k))).stopped with
      | true =>
          refine ⟨first, fun fuel => ?_⟩
          rw [hfirst, List.flatMap_cons, run_append_of_stopped _ hstopped,
            checkAfter_of_stopped hstopped, checkAfter_of_stopped hstopped]
      | false =>
          obtain ⟨others, hothers⟩ := ihks k'
            (fun c hc => hkids c (List.mem_cons_of_mem k hc))
            (run stops n (walkActions fs depth (path ++ '/' :: k))).next
            (((run stops n (walkActions fs depth (path ++ '/' :: k))).emitted.map joined).foldl
              msScanAddNode nodes)
          refine ⟨first + others, fun fuel => ?_⟩
          rw [Nat.add_assoc, hfirst, List.flatMap_cons, checkAfter_append hstopped, ← hothers]
          simp only [checkAfter, hstopped, climb, Bool.false_eq_true, if_false]

variable (stops fs) in
/-- The walk with its stack of places visits every subtree in order. -/
theorem walks (root : Text) (depth : Nat) : Walks stops fs root depth := by
  induction depth with
  | zero =>
      intro n frames nodes path hpath hdepth
      exact absurd (length_le_of_fullPathLoop hpath) (by omega)
  | succ depth ih =>
      intro n frames nodes path hpath hdepth
      have hround := readDir_eq stops fs (checkEntry_eq fs hpath) n path { nodes }
      set round := run stops n (dirActions fs (subdirectory fs path) path) with hdef
      have hnodes : (round.emitted.foldl Checked.add { nodes }).nodes =
          (round.emitted.map joined).foldl msScanAddNode nodes := by rw [foldl_add]
      cases hstopped : round.stopped with
      | true =>
          refine ⟨1, fun fuel => ?_⟩
          rw [walkActions, run_append_of_stopped _ hstopped, ← hdef, checkAfter_of_stopped hstopped,
            Nat.add_comm, checkLoop, hpath]
          simp only [hround, hstopped, if_true, hnodes]
      | false =>
          have hkids : (round.emitted.foldl Checked.add { nodes }).kids =
              (selected fs (subdirectory fs path) path).map Prod.snd := by
            rw [foldl_add, hdef, emitted_of_not_stopped hstopped, outputs_dirActions,
              List.nil_append]
          have hbelow : (selected fs (subdirectory fs path) path).flatMap
                (fun d => walkActions fs depth (joined d)) =
              ((selected fs (subdirectory fs path) path).map Prod.snd).flatMap
                fun c => walkActions fs depth (path ++ '/' :: c) := by
            rw [List.flatMap_map]
            exact List.flatMap_congr fun d hd => by rw [joined, (eq_of_mem_subdirectories hd).1]
          have happend : ∀ c ∈ (selected fs (subdirectory fs path) path).map Prod.snd,
              (msStrappend path c).isSome := by
            intro c hc
            obtain ⟨d, hd, rfl⟩ := List.mem_map.mp hc
            exact (eq_of_mem_subdirectories hd).2
          have hloop : ∀ fuel, checkLoop stops fs root (fuel + 1) n frames nodes =
              match nextNode ((selected fs (subdirectory fs path) path).map Prod.snd) frames with
              | none => some ((round.emitted.map joined).foldl msScanAddNode nodes)
              | some frames' => checkLoop stops fs root fuel round.next frames'
                  ((round.emitted.map joined).foldl msScanAddNode nodes) := by
            intro fuel
            rw [checkLoop, hpath]
            simp only [hround, hstopped, hkids, hnodes, Bool.false_eq_true, if_false]
          rw [walkActions, hbelow]
          simp only [checkAfter_append hstopped, ← hdef]
          cases hcases : (selected fs (subdirectory fs path) path).map Prod.snd with
          | nil =>
              refine ⟨1, fun fuel => ?_⟩
              rw [Nat.add_comm, hloop, hcases]
              rfl
          | cons k ks =>
              rw [hcases] at happend
              obtain ⟨enough, henough⟩ := walks_brothers ih hpath hdepth k ks happend round.next
                ((round.emitted.map joined).foldl msScanAddNode nodes)
              refine ⟨enough + 1, fun fuel => ?_⟩
              rw [Nat.add_right_comm, hloop, hcases]
              exact henough fuel

variable (stops fs) in
/-- `_ms_dir_check` terminates, and lists the directories that the walk reaches. -/
theorem msDirCheck_eq {root : Text} (hroot : root.length ≤ msFilePathLenMax) :
    ∃ enough, ∀ fuel ≥ enough, msDirCheck stops fs root fuel =
      some (((run stops 0 (walkActions fs (msFilePathLenMax + 1) root)).emitted.map joined).foldl
        msScanAddNode [root]) := by
  have hpath : msGetFullPathFromNode [root] = some root :=
    fullPathLoop_singleton (by simpa using hroot)
  obtain ⟨enough, henough⟩ := walks stops fs root (msFilePathLenMax + 1) 0 []
    [root] root hpath (by omega)
  refine ⟨enough, fun fuel hfuel => ?_⟩
  obtain ⟨rest, rfl⟩ := Nat.exists_eq_add_of_le hfuel
  have hstart : msScanAddNode [] root = [root] := rfl
  rw [msDirCheck, hpath]
  simp only [hstart, henough, checkAfter, climb, ite_self]

end Walk

variable {stops fs}

theorem scanEntry_eq {σ : Type} (handle : σ → Text → σ) (dir : Text) (s : σ) (e : Dirent) :
    scanEntry handle dir s e = (regularFile dir e).elim s (handle s) := by
  rw [scanEntry, regularFile]
  split
  · cases msStrappend dir e.name <;> rfl
  · rfl

/-- `_ms_dir_scan` hands over the files that it reaches. -/
theorem scanLoop_eq {σ : Type} (handle : σ → Text → σ) (n : Nat) (nodes : List Text) (s : σ) :
    scanLoop stops fs handle n nodes s =
      (run stops n (scanActions fs nodes)).emitted.foldl handle s := by
  induction nodes generalizing n s with
  | nil => rfl
  | cons dir nodes ih =>
      have hround := readDir_eq stops fs (scanEntry_eq handle dir) n dir s
      rw [scanLoop, hround, scanActions, List.flatMap_cons]
      cases hstopped : (run stops n (dirActions fs (regularFile dir) dir)).stopped with
      | true => simp only [hstopped, if_true, run_append_of_stopped _ hstopped]
      | false =>
          simp only [hstopped, Bool.false_eq_true, if_false, run_append_of_not_stopped _ hstopped,
            List.foldl_append, ih]
          rfl

end MediaServer.Scan
