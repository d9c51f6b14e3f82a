import MediaServer.Foundation.Bytes
import MediaServer.Foundation.Stores
import MediaServer.Path

/-!
# The path of a node

`ms_get_full_path_from_node` climbs from a node to the root and collects the names in an
array, and then copies them into `ret_path` from the root down. A slash follows every name,
and the last slash is overwritten by the NUL. The limit is tested in front of the slash.

No name is as long as an `int` can say, so the lengths are taken as numbers.
-/

namespace MediaServer.Buffer

open Stores

def msErrInvalidDirPath : Int := -0x04

/-- The fields `name` and `parent` of a `ms_dir_scan_info`. -/
inductive DirScanInfo where
  | root (name : Text)
  | child (name : Text) (parent : DirScanInfo)
deriving DecidableEq, Repr

namespace DirScanInfo

/-- The names from the root down to the node. -/
def names : DirScanInfo → List Text
  | root name => [name]
  | child name parent => parent.names ++ [name]

def depth : DirScanInfo → Nat
  | root _ => 0
  | child _ parent => parent.depth + 1

theorem length_names (node : DirScanInfo) : node.names.length = node.depth + 1 := by
  induction node with
  | root name => rfl
  | child name parent ih => rw [names, List.length_append, ih, List.length_singleton, depth]

end DirScanInfo

/-- The first loop: the node at hand goes into the slot `i`. -/
def collectLoop : DirScanInfo → Nat → List (Store (Option Text))
  | .root name, i => [⟨i, some name⟩]
  | .child name parent, i => ⟨i, some name⟩ :: collectLoop parent (i + 1)

/-- The second loop, with the number of slots left, and what follows it; `none` when a slot
is read that has not been set. -/
def copyLoop (pathArray : Nat → Option Text) : Nat → Nat → Option (List (Store Char) × Int)
  | 0, pathLength => some ([⟨pathLength - 1, Bytes.nul⟩], msErrNone)
  | i + 1, pathLength => do
      let name ← pathArray i
      if pathLength + name.length > msFilePathLenMax then return ([], msErrInvalidDirPath)
      let (stores, err) ← copyLoop pathArray i (pathLength + name.length + 1)
      return (copy pathLength name ++ ⟨pathLength + name.length, '/'⟩ :: stores, err)

/-- The stores into `path_array` and `ret_path`, and the value returned. -/
structure NodePath where
  arrayStores : List (Store (Option Text))
  stores : List (Store Char)
  err : Int
deriving DecidableEq, Repr

/-- `ms_get_full_path_from_node`. -/
def msGetFullPathFromNode (node : DirScanInfo) (depth : Int) : Option NodePath :=
  if depth < 0 then some ⟨[], [], msErrInvalidDirPath⟩
  else
    let arrayStores := collectLoop node 0
    (copyLoop (run arrayStores fun _ => none) (depth.toNat + 1) 0).map fun (stores, err) =>
      ⟨arrayStores, stores, err⟩

/-- The stores stay within the two arrays, and success means that the path fits and is
there. -/
structure ExactPath (node : DirScanInfo) (o : NodePath) : Prop where
  path_bounded : Within msFilePathLenMax o.stores
  array_bounded : Within (node.depth + 1) o.arrayStores
  fits : o.err = msErrNone ↔ (joinNames node.names).length < msFilePathLenMax
  complete : o.err = msErrNone → ∀ buffer,
    Reads (run o.stores buffer) 0 (joinNames node.names ++ [Bytes.nul])

/-- The path of no node of the chain is as long as the buffer. -/
def MissesLimit (names : List Text) : Prop :=
  ∀ front, front <+: names → (joinNames front).length ≠ msFilePathLenMax

/-! ### The loop on the names -/

/-- What the second loop stores for the names that are left. -/
def writeNames : List Text → Nat → List (Store Char) × Int
  | [], pathLength => ([⟨pathLength - 1, Bytes.nul⟩], msErrNone)
  | name :: rest, pathLength =>
      if pathLength + name.length > msFilePathLenMax then ([], msErrInvalidDirPath)
      else
        let (stores, err) := writeNames rest (pathLength + name.length + 1)
        (copy pathLength name ++ ⟨pathLength + name.length, '/'⟩ :: stores, err)

theorem collectLoop_eq (node : DirScanInfo) (i : Nat) :
    collectLoop node i = copy i (node.names.reverse.map some) := by
  induction node generalizing i with
  | root name => rfl
  | child name parent ih =>
      rw [collectLoop, ih, DirScanInfo.names, List.reverse_append]
      rfl

theorem copyLoop_eq {pathArray : Nat → Option Text} {names : List Text}
    (h : Reads pathArray 0 (names.reverse.map some)) (pathLength : Nat) :
    copyLoop pathArray names.length pathLength = some (writeNames names pathLength) := by
  induction names generalizing pathLength with
  | nil => rfl
  | cons name rest ih =>
      rw [List.reverse_cons, List.map_append, reads_append] at h
      obtain ⟨hrest, hname, -⟩ := h
      rw [List.length_map, List.length_reverse, Nat.zero_add] at hname
      rw [List.length_cons, copyLoop, hname, writeNames]
      simp only [Option.bind_eq_bind, Option.bind_some, ih hrest]
      split <;> rfl

theorem msGetFullPathFromNode_eq (node : DirScanInfo) :
    msGetFullPathFromNode node node.depth = some
      { arrayStores := collectLoop node 0
        stores := (writeNames node.names 0).1
        err := (writeNames node.names 0).2 } := by
  have harray : Reads (run (collectLoop node 0) fun _ => none) 0 (node.names.reverse.map some) := by
    rw [collectLoop_eq]
    exact reads_copy
  have hloop := copyLoop_eq harray 0
  rw [DirScanInfo.length_names] at hloop
  have hdepth : ¬ (node.depth : Int) < 0 := by omega
  rw [msGetFullPathFromNode, if_neg hdepth, Int.toNat_natCast]
  simp only [hloop, Option.map_some]

section Names

variable {name : Text} {rest : List Text} {pathLength : Nat}

theorem writeNames_of_over (h : pathLength + name.length > msFilePathLenMax) :
    writeNames (name :: rest) pathLength = ([], msErrInvalidDirPath) :=
  if_pos h

theorem writeNames_of_le (h : pathLength + name.length ≤ msFilePathLenMax) :
    writeNames (name :: rest) pathLength =
      (copy pathLength name ++ ⟨pathLength + name.length, '/'⟩ ::
        (writeNames rest (pathLength + name.length + 1)).1,
      (writeNames rest (pathLength + name.length + 1)).2) :=
  if_neg (Nat.not_lt.mpr h)

/-- The last slash is overwritten. -/
theorem writeNames_last (h : pathLength + name.length ≤ msFilePathLenMax) :
    writeNames [name] pathLength =
      (copy pathLength name ++ [⟨pathLength + name.length, '/'⟩,
        ⟨pathLength + name.length, Bytes.nul⟩], msErrNone) :=
  writeNames_of_le h

theorem writeNames_err (name : Text) (rest : List Text) (pathLength : Nat) :
    (writeNames (name :: rest) pathLength).2 = msErrNone ↔
      pathLength + (joinNames (name :: rest)).length ≤ msFilePathLenMax := by
  induction rest generalizing name pathLength with
  | nil =>
      rw [joinNames_singleton]
      by_cases hfits : pathLength + name.length ≤ msFilePathLenMax
      · rw [writeNames_last hfits]
        exact iff_of_true rfl hfits
      · rw [writeNames_of_over (Nat.not_le.mp hfits)]
        exact iff_of_false (by decide) hfits
  | cons next rest ih =>
      rw [length_joinNames_cons_cons]
      by_cases hfits : pathLength + name.length ≤ msFilePathLenMax
      · rw [writeNames_of_le hfits]
        refine (ih next (pathLength + name.length + 1)).trans ?_
        omega
      · rw [writeNames_of_over (Nat.not_le.mp hfits)]
        exact iff_of_false (by decide) (by omega)

/-- Nothing is stored in front of the position. -/
theorem le_index_of_mem_writeNames {s : Store Char}
    (h : s ∈ (writeNames (name :: rest) pathLength).1) : pathLength ≤ s.index := by
  induction rest generalizing name pathLength with
  | nil =>
      by_cases hfits : pathLength + name.length ≤ msFilePathLenMax
      · rw [writeNames_last hfits] at h
        cases List.mem_append.mp h with
        | inl hcopy => exact (index_of_mem_copy hcopy).1
        | inr hend =>
            cases List.mem_cons.mp hend with
            | inl hslash => exact hslash ▸ Nat.le_add_right _ _
            | inr hnul => exact List.mem_singleton.mp hnul ▸ Nat.le_add_right _ _
      · rw [writeNames_of_over (Nat.not_le.mp hfits)] at h
        cases h
  | cons next rest ih =>
      by_cases hfits : pathLength + name.length ≤ msFilePathLenMax
      · rw [writeNames_of_le hfits] at h
        cases List.mem_append.mp h with
        | inl hcopy => exact (index_of_mem_copy hcopy).1
        | inr hend =>
            cases List.mem_cons.mp hend with
            | inl hslash => exact hslash ▸ Nat.le_add_right _ _
            | inr hrest =>
                have hindex := ih hrest
                omega
      · rw [writeNames_of_over (Nat.not_le.mp hfits)] at h
        cases h

theorem within_of_over (h : pathLength + name.length > msFilePathLenMax) :
    Within msFilePathLenMax (writeNames (name :: rest) pathLength).1 ↔
      ∀ front, front <+: rest →
        pathLength + (joinNames (name :: front)).length ≠ msFilePathLenMax := by
  rw [writeNames_of_over h]
  refine iff_of_true within_nil fun front _ => ?_
  have hlength := length_le_joinNames name front
  omega

/-- A slash is stored behind the buffer where a prefix of the path is as long as the
buffer. -/
theorem writeNames_within (name : Text) (rest : List Text) (pathLength : Nat) :
    Within msFilePathLenMax (writeNames (name :: rest) pathLength).1 ↔
      ∀ front, front <+: rest →
        pathLength + (joinNames (name :: front)).length ≠ msFilePathLenMax := by
  induction rest generalizing name pathLength with
  | nil =>
      by_cases hfits : pathLength + name.length ≤ msFilePathLenMax
      · have hslash : pathLength + name.length < msFilePathLenMax ↔
            pathLength + name.length ≠ msFilePathLenMax := by omega
        rw [writeNames_last hfits, within_append, and_iff_right (within_copy hfits), within_cons,
          within_cons, and_iff_left within_nil, and_self, hslash]
        constructor
        · intro hne front hfront
          rw [List.prefix_nil.mp hfront, joinNames_singleton]
          exact hne
        · intro h
          have hne := h [] List.prefix_rfl
          rwa [joinNames_singleton] at hne
      · exact within_of_over (Nat.not_le.mp hfits)
  | cons next rest ih =>
      by_cases hfits : pathLength + name.length ≤ msFilePathLenMax
      · have hslash : pathLength + name.length < msFilePathLenMax ↔
            pathLength + name.length ≠ msFilePathLenMax := by omega
        have hrest : Within msFilePathLenMax
            (writeNames (next :: rest) (pathLength + name.length + 1)).1 ↔
            ∀ front, front <+: rest →
              pathLength + (joinNames (name :: next :: front)).length ≠ msFilePathLenMax := by
          refine (ih next (pathLength + name.length + 1)).trans (forall₂_congr fun front _ => ?_)
          rw [length_joinNames_cons_cons]
          omega
        rw [writeNames_of_le hfits, within_append, and_iff_right (within_copy hfits), within_cons,
          hslash, hrest]
        constructor
        · rintro ⟨hne, hall⟩ front hfront
          cases List.prefix_cons_iff.mp hfront with
          | inl hnil =>
              rw [hnil, joinNames_singleton]
              exact hne
          | inr hcons =>
              obtain ⟨tail, rfl, htail⟩ := hcons
              exact hall tail htail
        · intro h
          have hne := h [] List.nil_prefix
          rw [joinNames_singleton] at hne
          refine ⟨hne, fun front hfront => h (next :: front) ?_⟩
          exact List.cons_prefix_cons.mpr ⟨rfl, hfront⟩
      · exact within_of_over (Nat.not_le.mp hfits)

theorem writeNames_reads (name : Text) (rest : List Text) (pathLength : Nat)
    (hfits : pathLength + (joinNames (name :: rest)).length ≤ msFilePathLenMax)
    (buffer : Nat → Char) :
    Reads (run (writeNames (name :: rest) pathLength).1 buffer) pathLength
      (joinNames (name :: rest) ++ [Bytes.nul]) := by
  have hname : pathLength + name.length ≤ msFilePathLenMax := by
    have hlength := length_le_joinNames name rest
    omega
  induction rest generalizing name pathLength buffer with
  | nil =>
      rw [writeNames_last hname, run_append, run_cons, run_cons, run_nil, joinNames_singleton]
      refine reads_append.mpr ⟨?_, Function.update_self .., trivial⟩
      exact (reads_copy.update (.inr (Nat.le_refl _))).update (.inr (Nat.le_refl _))
  | cons next rest ih =>
      have hrest : pathLength + name.length + 1 + (joinNames (next :: rest)).length ≤
          msFilePathLenMax := by
        rw [length_joinNames_cons_cons] at hfits
        omega
      have hnext : pathLength + name.length + 1 + next.length ≤ msFilePathLenMax := by
        have hlength := length_le_joinNames next rest
        omega
      rw [writeNames_of_le hname, run_append, run_cons, joinNames_cons_cons, List.append_assoc,
        List.cons_append]
      set buffer' := Function.update (run (copy pathLength name) buffer)
        (pathLength + name.length) '/' with buffer'_def
      -- the loop goes on behind the slash
      have hkept : ∀ i, i < pathLength + name.length + 1 →
          run (writeNames (next :: rest) (pathLength + name.length + 1)).1 buffer' i =
            buffer' i := by
        intro i hi
        refine run_of_untouched fun s hs => ?_
        have hindex := le_index_of_mem_writeNames hs
        omega
      have hcopied : Reads buffer' pathLength name := reads_copy.update (.inr (Nat.le_refl _))
      refine reads_append.mpr ⟨?_, ?_, ih next _ hrest buffer' hnext⟩
      · exact hcopied.frame fun i _ hi => hkept i (Nat.lt_succ_of_lt hi)
      · rw [hkept _ (Nat.lt_succ_self _), buffer'_def, Function.update_self]

end Names

section Node

variable (node : DirScanInfo)

theorem exists_names_eq_cons : ∃ name rest, node.names = name :: rest := by
  refine List.exists_cons_of_length_pos ?_
  rw [node.length_names]
  exact Nat.succ_pos _

theorem nodePath_err_iff : (writeNames node.names 0).2 = msErrNone ↔
    (joinNames node.names).length ≤ msFilePathLenMax := by
  obtain ⟨name, rest, hnames⟩ := exists_names_eq_cons node
  rw [hnames, writeNames_err, Nat.zero_add]

theorem nodePath_within_iff :
    Within msFilePathLenMax (writeNames node.names 0).1 ↔ MissesLimit node.names := by
  obtain ⟨name, rest, hnames⟩ := exists_names_eq_cons node
  rw [hnames, writeNames_within]
  constructor
  · intro h front hfront
    cases List.prefix_cons_iff.mp hfront with
    | inl hnil =>
        rw [hnil]
        decide
    | inr hcons =>
        obtain ⟨tail, rfl, htail⟩ := hcons
        have hne := h tail htail
        rwa [Nat.zero_add] at hne
  · intro h front hfront
    rw [Nat.zero_add]
    exact h (name :: front) (List.cons_prefix_cons.mpr ⟨rfl, hfront⟩)

theorem nodePath_reads (hfits : (joinNames node.names).length ≤ msFilePathLenMax)
    (buffer : Nat → Char) :
    Reads (run (writeNames node.names 0).1 buffer) 0 (joinNames node.names ++ [Bytes.nul]) := by
  obtain ⟨name, rest, hnames⟩ := exists_names_eq_cons node
  rw [hnames] at hfits ⊢
  exact writeNames_reads name rest 0 (by rwa [Nat.zero_add]) buffer

/-- What the walkers take for the path is what the buffer holds. -/
theorem msGetFullPathFromNode_refines (buffer : Nat → Char) :
    ∃ o, msGetFullPathFromNode node node.depth = some o ∧
      (o.err = msErrNone → ∃ path,
        MediaServer.msGetFullPathFromNode node.names = some path ∧
          Reads (run o.stores buffer) 0 (path ++ [Bytes.nul])) ∧
      (o.err ≠ msErrNone → MediaServer.msGetFullPathFromNode node.names = none) := by
  have hpath : MediaServer.msGetFullPathFromNode node.names =
      if (joinNames node.names).length ≤ msFilePathLenMax then some (joinNames node.names) else none := by
    obtain ⟨name, rest, hnames⟩ := exists_names_eq_cons node
    rw [hnames, MediaServer.msGetFullPathFromNode, fullPathLoop_eq, List.length_nil, Nat.zero_add,
      List.nil_append]
  refine ⟨_, msGetFullPathFromNode_eq node, fun herr => ?_, fun herr => ?_⟩
  · have hfits := (nodePath_err_iff node).mp herr
    exact ⟨_, hpath.trans (if_pos hfits), nodePath_reads node hfits buffer⟩
  · exact hpath.trans (if_neg (mt (nodePath_err_iff node).mpr herr))

/-- A path as long as the buffer is taken for one that fits. -/
theorem not_exact_of_length_eq (h : (joinNames node.names).length = msFilePathLenMax) :
    ¬ ∃ o, msGetFullPathFromNode node node.depth = some o ∧ ExactPath node o := by
  rintro ⟨o, ho, hexact⟩
  rw [msGetFullPathFromNode_eq] at ho
  obtain rfl := Option.some.inj ho
  have hlt := hexact.fits.mp ((nodePath_err_iff node).mpr (Nat.le_of_eq h))
  omega

/-- The path of a node is exact and stays within the buffer if and only if no path of its
chain is as long as the buffer. -/
theorem nodePath_exact_iff :
    (∃ o, msGetFullPathFromNode node node.depth = some o ∧ ExactPath node o) ↔
      MissesLimit node.names := by
  rw [msGetFullPathFromNode_eq]
  constructor
  · rintro ⟨o, ho, hexact⟩
    obtain rfl := Option.some.inj ho
    exact (nodePath_within_iff node).mp hexact.path_bounded
  · intro h
    have hne := h node.names List.prefix_rfl
    refine ⟨_, rfl, (nodePath_within_iff node).mpr h, ?_, ?_, ?_⟩
    · rw [collectLoop_eq]
      refine within_copy ?_
      rw [List.length_map, List.length_reverse, node.length_names, Nat.zero_add]
    · refine (nodePath_err_iff node).trans ?_
      omega
    · exact fun hnone buffer => nodePath_reads node ((nodePath_err_iff node).mp hnone) buffer

end Node

/-- A directory of a storage, given by the names below the root. -/
def descend (root : Text) (names : List Text) : DirScanInfo :=
  names.foldl (fun parent name => .child name parent) (.root root)

theorem names_descend (root : Text) (names : List Text) :
    (descend root names).names = root :: names := by
  induction names using List.reverseRecOn with
  | nil => rfl
  | append_singleton names name ih =>
      have hstep : descend root (names ++ [name]) = .child name (descend root names) :=
        List.foldl_concat ..
      rw [hstep, DirScanInfo.names, ih, List.cons_append]

theorem length_joinNames (name : Text) (rest : List Text) :
    (joinNames (name :: rest)).length = name.length + (rest.map fun next => next.length + 1).sum := by
  induction rest generalizing name with
  | nil => rw [joinNames_singleton, List.map_nil, List.sum_nil, Nat.add_zero]
  | cons next rest ih =>
      rw [length_joinNames_cons_cons, ih, List.map_cons, List.sum_cons]
      omega

/-- Fifteen directories with names of 255 bytes and one with a name of 245 on the internal
storage. -/
def deepDirectory : DirScanInfo :=
  descend msRootPathInternal
    (List.replicate 15 (List.replicate 255 'a') ++ [List.replicate 245 'a'])

theorem length_deepDirectory : (joinNames deepDirectory.names).length = msFilePathLenMax := by
  rw [deepDirectory, names_descend, length_joinNames, List.map_append, List.sum_append,
    List.map_replicate, List.sum_replicate_nat]
  simp only [List.map_cons, List.map_nil, List.sum_cons, List.sum_nil, List.length_replicate]
  rfl

/-- Its path is as long as the buffer. -/
theorem nodePath_inexact :
    ¬ ∃ o, msGetFullPathFromNode deepDirectory deepDirectory.depth = some o ∧
      ExactPath deepDirectory o :=
  not_exact_of_length_eq deepDirectory length_deepDirectory

end MediaServer.Buffer
