import MediaServer.Foundation.Run
import MediaServer.Scan.Thread

/-!
# The order of the pending requests

The scan thread starts the first entry of its array. A power-off request therefore goes
before everything else, and of two requests for one storage the later one runs later,
unless it has overwritten the earlier one.

The order is an invariant of `_insert_array` and of the removal at index 0. A history
beside the array records what has been inserted and what has been started.
-/

namespace MediaServer.Scan

/-- A request to scan the storage. -/
def ofStorage (storageType : StorageType) (d : ScanData) : Bool :=
  d.scanType ≠ .powerOff && d.storageType = storageType

/-- The array with its history. Only `garray` is read by a step. -/
structure Pending where
  garray : List ScanData := []
  inserted : List ScanData := []
  /-- What has been removed from the front. -/
  started : List ScanData := []
  /-- The most recently inserted request of each storage, until it is removed from the
  front. -/
  newest : StorageType → Option ScanData := fun _ => none

inductive ArrayOp where
  | insert (insertData : ScanData)
  /-- `g_array_remove_index (garray, 0)`. -/
  | removeFirst

namespace Pending

def insert (s : Pending) (d : ScanData) : Pending :=
  { s with
    garray := insertArray s.garray d
    inserted := s.inserted ++ [d]
    newest := fun storageType =>
      if ofStorage storageType d then some d else s.newest storageType }

/-- The array had `d` in front of `garray`. -/
def removed (s : Pending) (d : ScanData) (garray : List ScanData) : Pending :=
  { s with
    garray
    started := s.started ++ [d]
    newest := fun storageType =>
      if s.newest storageType = some d then none else s.newest storageType }

end Pending

def arrayStep (s : Pending) : ArrayOp → Option Pending
  | .insert d => some (s.insert d)
  | .removeFirst =>
      match s.garray with
      | [] => none
      | d :: garray => some (s.removed d garray)

/-- The order of the array. -/
structure Ordered (s : Pending) : Prop where
  powerOffFirst :
    s.garray.Pairwise fun d e => e.scanType = .powerOff → d.scanType = .powerOff
  nondecreasing : ∀ storageType,
    (s.garray.filter (ofStorage storageType)).Pairwise fun d e =>
      d.scanType.code ≤ e.scanType.code
  newestLast : ∀ storageType d, s.newest storageType = some d →
    (s.garray.filter (ofStorage storageType)).getLast? = some d
  /-- Of the requests of a storage that have been started or are pending, the last one is
  the one that was inserted last. -/
  newestRunsLast : ∀ storageType,
    ((s.started ++ s.garray).filter (ofStorage storageType)).getLast? =
      (s.inserted.filter (ofStorage storageType)).getLast?

/-- The thread with the history of its array. -/
structure Served where
  thread : Thread := {}
  flags : Flags := {}
  pending : Pending := {}

inductive ServedLabel where
  | push (d : ScanData)
  /-- Another thread sets the flags. -/
  | setFlags (flags : Flags)
  | scan (a : ThreadAct)

/-- What a step of the thread does to its array. -/
def arrayOp (th : Thread) : ThreadAct → Option ArrayOp
  | .receive => th.queue.head?.map .insert
  | .take => some .removeFirst
  | _ => none

def servedStep (s : Served) : ServedLabel → Option Served
  | .push d => some { s with thread := { s.thread with queue := s.thread.queue ++ [d] } }
  | .setFlags flags => some { s with flags }
  | .scan a =>
      (threadStep s.flags s.thread a).map fun thread =>
        { s with
          thread
          pending := ((arrayOp s.thread a).bind (arrayStep s.pending)).getD s.pending }

/-- The thread serves the array in its order, and a power-off that has been inserted is the
next thing that it starts. -/
structure ServedInOrder (s : Served) : Prop where
  array : s.pending.garray = s.thread.array
  ordered : Ordered s.pending
  powerOffNext : (∃ d ∈ s.pending.inserted, d.scanType = .powerOff) →
    (s.thread.pc = .top ∧ ∃ d ∈ s.thread.array.head?, d.scanType = .powerOff) ∨
      (∃ d, s.thread.pc = .powerOff d) ∨ s.thread.pc = .returned

section Insert

variable {d e : ScanData} {garray : List ScanData} {storageType : StorageType}

theorem ofStorage_iff :
    ofStorage storageType d = true ↔ d.scanType ≠ .powerOff ∧ d.storageType = storageType := by
  simp [ofStorage]

theorem supersedes_iff :
    supersedes d e = true ↔ ofStorage d.storageType e = true ∧
      d.scanType.code < e.scanType.code := by
  simp [supersedes, ofStorage]

/-- Overwriting changes neither the storage of an entry nor whether it is a power-off. -/
theorem replaced_scanType_eq_powerOff (hd : d.scanType ≠ .powerOff) :
    (replaced d e).scanType = .powerOff ↔ e.scanType = .powerOff := by
  rw [replaced]
  split
  next h => simp [hd, (ofStorage_iff.mp (supersedes_iff.mp h).1).1]
  next => exact Iff.rfl

theorem ofStorage_replaced (hd : d.scanType ≠ .powerOff) :
    ofStorage storageType (replaced d e) = ofStorage storageType e := by
  rw [replaced]
  split
  next h =>
    obtain ⟨htype, hstorage⟩ := ofStorage_iff.mp (supersedes_iff.mp h).1
    simp [ofStorage, hd, htype, hstorage]
  next => rfl

/-- The entries of one storage see the requests for this storage only. -/
theorem filter_insertArray (garray : List ScanData) (d : ScanData) (storageType : StorageType) :
    (insertArray garray d).filter (ofStorage storageType) =
      if ofStorage storageType d then insertArray (garray.filter (ofStorage storageType)) d
      else garray.filter (ofStorage storageType) := by
  by_cases hd : d.scanType = .powerOff
  · simp [insertArray, ofStorage, hd]
  have hfilter : (garray.map (replaced d)).filter (ofStorage storageType) =
      (garray.filter (ofStorage storageType)).map (replaced d) := by
    rw [List.filter_map]
    congr 1
    exact List.filter_congr fun e _ => ofStorage_replaced hd
  cases hof : ofStorage storageType d with
  | true =>
      obtain rfl := (ofStorage_iff.mp hof).2
      have hany : (garray.filter (ofStorage d.storageType)).any (supersedes d) =
          garray.any (supersedes d) := by
        rw [List.any_filter]
        refine congrArg garray.any (funext fun e => ?_)
        cases hsup : supersedes d e with
        | true => rw [(supersedes_iff.mp hsup).1, Bool.and_true]
        | false => exact Bool.and_false _
      rw [insertArray_eq garray hd, insertArray_eq _ hd, hany, if_pos rfl]
      split
      · exact hfilter
      · rw [List.filter_append, List.filter_singleton, hof]
        rfl
  | false =>
      have hkeep : ∀ e ∈ garray.filter (ofStorage storageType), replaced d e = e := by
        intro e he
        refine if_neg fun hsup => ?_
        obtain ⟨-, hstorage⟩ := ofStorage_iff.mp (supersedes_iff.mp hsup).1
        obtain ⟨-, he⟩ := ofStorage_iff.mp (List.mem_filter.mp he).2
        simp [ofStorage, hd, ← hstorage, he] at hof
      rw [insertArray_eq garray hd]
      split
      · rw [hfilter, List.map_congr_left hkeep]
        simp
      · rw [List.filter_append, List.filter_singleton, hof]
        simp

theorem powerOffFirst_insertArray
    (h : garray.Pairwise fun d e => e.scanType = .powerOff → d.scanType = .powerOff) :
    (insertArray garray d).Pairwise fun d e => e.scanType = .powerOff → d.scanType = .powerOff := by
  by_cases hd : d.scanType = .powerOff
  · rw [insertArray, if_pos hd]
    exact List.pairwise_cons.mpr ⟨fun _ _ _ => hd, h⟩
  · rw [insertArray_eq garray hd]
    split
    · rw [List.pairwise_map]
      simpa only [replaced_scanType_eq_powerOff hd] using h
    · refine List.pairwise_append.mpr ⟨h, List.pairwise_singleton _ _, ?_⟩
      intro _ _ e he htype
      obtain rfl := List.mem_singleton.mp he
      exact absurd htype hd

section OneStorage

variable {entries : List ScanData} (hof : ofStorage storageType d = true)
  (hentries : ∀ e ∈ entries, ofStorage storageType e = true)
include hof hentries

theorem replaced_code (he : e ∈ entries) :
    (replaced d e).scanType.code = min d.scanType.code e.scanType.code := by
  have hstorage : ofStorage d.storageType e = true := by
    rw [(ofStorage_iff.mp hof).2]
    exact hentries e he
  rw [replaced]
  split
  next hsup => exact (Nat.min_eq_left (supersedes_iff.mp hsup).2.le).symm
  next hsup =>
    refine (Nat.min_eq_right (Nat.not_lt.mp fun hlt => hsup ?_)).symm
    exact supersedes_iff.mpr ⟨hstorage, hlt⟩

variable (hsorted : entries.Pairwise fun d e => d.scanType.code ≤ e.scanType.code)
include hsorted

theorem nondecreasing_insertArray :
    (insertArray entries d).Pairwise fun d e => d.scanType.code ≤ e.scanType.code := by
  rw [insertArray_eq entries (ofStorage_iff.mp hof).1]
  split
  · rw [List.pairwise_map]
    refine hsorted.imp_of_mem fun {e e'} he he' hle => ?_
    rw [replaced_code hof hentries he, replaced_code hof hentries he']
    omega
  next hany =>
    refine List.pairwise_append.mpr ⟨hsorted, List.pairwise_singleton _ _, ?_⟩
    intro e he e' he'
    obtain rfl := List.mem_singleton.mp he'
    -- an entry with a larger number would have been overwritten
    refine Nat.not_lt.mp fun hlt => hany (List.any_eq_true.mpr ⟨e, he, ?_⟩)
    refine supersedes_iff.mpr ⟨?_, hlt⟩
    rw [(ofStorage_iff.mp hof).2]
    exact hentries e he

/-- The overwritten entries are the last ones of their storage. -/
theorem getLast?_insertArray : (insertArray entries d).getLast? = some d := by
  rw [insertArray_eq entries (ofStorage_iff.mp hof).1]
  split
  next hany =>
    obtain ⟨e, he, hsup⟩ := List.any_eq_true.mp hany
    obtain ⟨front, last, rfl⟩ :=
      (List.eq_nil_or_concat' entries).resolve_left (List.ne_nil_of_mem he)
    have hle : e.scanType.code ≤ last.scanType.code := by
      cases List.mem_append.mp he with
      | inl hfront =>
          exact (List.pairwise_append.mp hsorted).2.2 e hfront last (List.mem_singleton_self _)
      | inr hlast => rw [List.mem_singleton.mp hlast]
    have hlast : supersedes d last = true := by
      refine supersedes_iff.mpr ⟨?_, (supersedes_iff.mp hsup).2.trans_le hle⟩
      rw [(ofStorage_iff.mp hof).2]
      exact hentries last (by simp)
    simp [replaced, hlast]
  next => exact List.getLast?_concat

end OneStorage

end Insert

section Step

variable {s t : Pending}

theorem Ordered.insert (h : Ordered s) (d : ScanData) : Ordered (s.insert d) := by
  have hentries : ∀ storageType, ∀ e ∈ s.garray.filter (ofStorage storageType),
      ofStorage storageType e = true := fun _ _ he => (List.mem_filter.mp he).2
  refine ⟨powerOffFirst_insertArray h.powerOffFirst, fun storageType => ?_,
    fun storageType e hnewest => ?_, fun storageType => ?_⟩
  · show ((insertArray s.garray d).filter _).Pairwise _
    rw [filter_insertArray]
    split
    next hof =>
      exact nondecreasing_insertArray hof (hentries storageType) (h.nondecreasing storageType)
    next => exact h.nondecreasing storageType
  · show ((insertArray s.garray d).filter _).getLast? = _
    simp only [Pending.insert] at hnewest
    rw [filter_insertArray]
    split at hnewest
    next hof =>
      obtain rfl := Option.some.inj hnewest
      rw [if_pos hof]
      exact getLast?_insertArray hof (hentries storageType) (h.nondecreasing storageType)
    next hof =>
      rw [if_neg hof]
      exact h.newestLast storageType e hnewest
  · show ((s.started ++ insertArray s.garray d).filter _).getLast? =
      ((s.inserted ++ [d]).filter _).getLast?
    have hbefore := h.newestRunsLast storageType
    rw [List.filter_append] at hbefore
    rw [List.filter_append, List.filter_append, filter_insertArray, List.filter_singleton]
    cases hof : ofStorage storageType d with
    | true =>
        have hlast :=
          getLast?_insertArray hof (hentries storageType) (h.nondecreasing storageType)
        simp [List.getLast?_append, hlast]
    | false => simpa using hbefore

theorem Ordered.removed (h : Ordered s) {d : ScanData} {garray : List ScanData}
    (hgarray : s.garray = d :: garray) : Ordered (s.removed d garray) := by
  have hsublist : garray.Sublist s.garray := hgarray ▸ List.sublist_cons_self d garray
  refine ⟨h.powerOffFirst.sublist hsublist,
    fun storageType => (h.nondecreasing storageType).sublist (hsublist.filter _),
    fun storageType e hnewest => ?_, fun storageType => ?_⟩
  · simp only [Pending.removed] at hnewest
    split at hnewest
    next => cases hnewest
    next hother =>
      have hlast := h.newestLast storageType e hnewest
      rw [hgarray, List.filter_cons] at hlast
      split at hlast
      next =>
        rw [List.getLast?_cons, Option.some.injEq] at hlast
        show (garray.filter _).getLast? = _
        cases hget : (garray.filter (ofStorage storageType)).getLast? with
        | none =>
            rw [hget, Option.getD_none] at hlast
            exact absurd (hlast ▸ hnewest) hother
        | some last => rw [← hlast, hget, Option.getD_some]
      next => exact hlast
  · have hbefore := h.newestRunsLast storageType
    rw [hgarray] at hbefore
    show ((s.started ++ [d] ++ garray).filter _).getLast? = _
    rwa [List.append_assoc, List.singleton_append]

theorem arrayStep_ordered {op : ArrayOp} (h : Ordered s) (hstep : arrayStep s op = some t) :
    Ordered t := by
  cases op with
  | insert d => exact Option.some.inj hstep ▸ h.insert d
  | removeFirst =>
      simp only [arrayStep] at hstep
      split at hstep
      next => cases hstep
      next d garray hgarray => exact Option.some.inj hstep ▸ h.removed hgarray

theorem ordered_start : Ordered {} := by
  refine ⟨.nil, fun _ => .nil, fun _ _ h => ?_, fun _ => rfl⟩
  cases h

end Step

/-- A power-off in front stays in front. -/
theorem head?_insertArray {garray : List ScanData} {d : ScanData}
    (h : d.scanType = .powerOff ∨ ∃ e ∈ garray.head?, e.scanType = .powerOff) :
    ∃ e ∈ (insertArray garray d).head?, e.scanType = .powerOff := by
  by_cases hd : d.scanType = .powerOff
  · exact ⟨d, by simp [insertArray, hd], hd⟩
  · obtain ⟨e, he, htype⟩ := h.resolve_left hd
    obtain ⟨rest, rfl⟩ := List.head?_eq_some_iff.mp he
    refine ⟨e, ?_, htype⟩
    have hkeep : replaced d e = e :=
      if_neg fun hsup => (ofStorage_iff.mp (supersedes_iff.mp hsup).1).1 htype
    rw [insertArray_eq _ hd]
    split
    · simp [hkeep]
    · rfl

section Thread

variable {s : Served} {a : ThreadAct} {thread : Thread}

/-- Steps that leave the array alone; none of them starts a request. -/
theorem ServedInOrder.other (h : ServedInOrder s) (harray : thread.array = s.thread.array)
    (hop : arrayOp s.thread a = none)
    (hpc : s.thread.pc ≠ .top)
    (hend : (∃ d, s.thread.pc = .powerOff d) ∨ s.thread.pc = .returned → thread.pc = .returned) :
    ServedInOrder { s with
      thread
      pending := ((arrayOp s.thread a).bind (arrayStep s.pending)).getD s.pending } := by
  rw [hop]
  refine ⟨h.array.trans harray.symm, h.ordered, fun hpower => ?_⟩
  cases h.powerOffNext hpower with
  | inl htop => exact absurd htop.1 hpc
  | inr hexit => exact .inr (.inr (hend hexit))

theorem ServedInOrder.receive (h : ServedInOrder s) {d : ScanData} {queue : List ScanData}
    (hpc : s.thread.pc = .top) (hqueue : s.thread.queue = d :: queue) :
    ServedInOrder { s with
      thread := { s.thread with queue, array := insertArray s.thread.array d }
      pending := ((arrayOp s.thread .receive).bind (arrayStep s.pending)).getD s.pending } := by
  rw [arrayOp, hqueue]
  refine ⟨congrArg (insertArray · d) h.array, h.ordered.insert d, ?_⟩
  rintro ⟨e, he, htype⟩
  refine .inl ⟨hpc, head?_insertArray ?_⟩
  cases List.mem_append.mp he with
  | inr hnew => exact .inl (List.mem_singleton.mp hnew ▸ htype)
  | inl hold =>
      refine .inr ((h.powerOffNext ⟨e, hold, htype⟩).resolve_right ?_).2
      rw [hpc]
      rintro (⟨d, hd⟩ | hreturned)
      · cases hd
      · cases hreturned

theorem ServedInOrder.take (h : ServedInOrder s) {d : ScanData} {array : List ScanData} {pc : Pc}
    (hpc : s.thread.pc = .top) (harray : s.thread.array = d :: array)
    (htaken : d.scanType = .powerOff ∧ pc = .powerOff d ∨ d.scanType ≠ .powerOff) :
    ServedInOrder { s with
      thread := { s.thread with array, pc }
      pending := ((arrayOp s.thread .take).bind (arrayStep s.pending)).getD s.pending } := by
  have hgarray : s.pending.garray = d :: array := h.array.trans harray
  have hpending : ((arrayOp s.thread .take).bind (arrayStep s.pending)).getD s.pending =
      s.pending.removed d array := by
    simp [arrayOp, arrayStep, hgarray]
  rw [hpending]
  refine ⟨rfl, h.ordered.removed hgarray, fun hpower => ?_⟩
  cases htaken with
  | inl hoff => exact .inr (.inl ⟨d, hoff.2⟩)
  | inr hordinary =>
      cases h.powerOffNext hpower with
      | inl hhead =>
          obtain ⟨e, he, htype⟩ := hhead.2
          rw [harray, List.head?_cons, Option.mem_some_iff] at he
          exact absurd (he ▸ htype) hordinary
      | inr hexit =>
          rw [hpc] at hexit
          rcases hexit with ⟨_, hoff⟩ | hreturned
          · cases hoff
          · cases hreturned

theorem servedStep_inOrder {t : Served} {l : ServedLabel} (h : ServedInOrder s)
    (hstep : servedStep s l = some t) : ServedInOrder t := by
  cases l with
  | push d => exact Option.some.inj hstep ▸ ⟨h.array, h.ordered, h.powerOffNext⟩
  | setFlags flags => exact Option.some.inj hstep ▸ ⟨h.array, h.ordered, h.powerOffNext⟩
  | scan a =>
      obtain ⟨thread, hthread, rfl⟩ := Option.map_eq_some_iff.mp hstep
      cases threadStep_cases hthread with
      | receive hpc hqueue => exact h.receive hpc hqueue
      | takePowerOff hpc _ harray htype => exact h.take hpc harray (.inl ⟨htype, rfl⟩)
      | take hpc _ harray htype => exact h.take hpc harray (.inr htype)
      | exit hpc => exact h.other rfl rfl (by simp [hpc]) fun _ => rfl
      | connected hpc | connectFailed hpc | updatingAll hpc | updating hpc | deleteAll hpc
      | scanFile hpc | invalidate hpc | scanReturn hpc | stopped hpc | scannedPart hpc
      | scanned hpc | deleteInvalid hpc | updatedCard hpc | updated hpc | updateMmcInfo hpc
      | release hpc =>
          exact h.other rfl rfl (by simp [hpc]) (by simp [hpc])

end Thread

/-- The array keeps its order whatever is inserted and removed, and the scan thread
serves it in this order. -/
theorem pending_ordered (ops : List ArrayOp) (labels : List ServedLabel) :
    Run.Always arrayStep Ordered {} ops ∧ Run.Always servedStep ServedInOrder {} labels :=
  ⟨Run.always_of_step (fun _ _ _ h hstep => arrayStep_ordered h hstep) ordered_start,
    Run.always_of_step (fun _ _ _ h hstep => servedStep_inOrder h hstep)
      ⟨rfl, ordered_start, by simp⟩⟩

end MediaServer.Scan
