import MediaServer.Path
import MediaServer.Register.File

/-!
# The calls of one operation

The operations of `media-server-db-svc.c` on one file go over the plug-ins, ask each one
whether it takes the file, and make their call. A failure is kept in a result variable, and
the loop goes on. Every operation is a run of the same loop, with its own call and its own
error code; `ms_validate_item` chooses between two calls, and `ms_insert_item_batch` ends
with the registration of a DRM file.

The plug-ins and the lookups of the file are parameters.
-/

namespace MediaServer.DbSvc

/-- The calls about an item. -/
inductive ItemCall where
  | exist (path : Text) (storageType : StorageType)
  | insertBatch (path : Text) (storageType : StorageType) (mimetype : Text)
  | insert (path : Text) (storageType : StorageType) (mimetype : Text)
  | setValidity (path : Text) (valid : Bool) (mimetype : Text) (commit : Bool)
  | delete (path : Text) (storageType : StorageType)
  | move (srcPath : Text) (srcStore : StorageType) (dstPath : Text) (dstStore : StorageType)
      (mimetype : Text)
  | refresh (path : Text) (storageType : StorageType) (mimetype : Text)
deriving DecidableEq, Repr

/-- A call that only asks. -/
def ItemCall.asks : ItemCall → Bool
  | .exist _ _ => true
  | _ => false

/-- The functions of one plug-in, by their results. -/
structure PlugIn where
  /-- `CHECK_ITEM` of a path and a mime type. -/
  checkItem : Text → Text → Int
  answer : ItemCall → Int

/-- The outcomes of the lookups and of the DRM service. -/
structure Outside where
  /-- The mime type that `_ms_get_mime` finds. -/
  mime : Text → Option Text
  /-- `ms_is_drm_file` at the end of an operation. -/
  isDrm : Text → Bool := fun _ => false
  drmProcessed : Text → Bool := fun _ => true

/-- The calls that were made, each with the index of the plug-in. -/
abbrev Trace := List (Nat × ItemCall)

/-- What an operation does with a plug-in that takes the file. -/
structure Visit where
  calls : List ItemCall
  error : Option Int
deriving DecidableEq, Repr

/-- One call, with the error code for its failure. -/
def visitOnce (call : ItemCall) (err : Int) (p : PlugIn) : Visit where
  calls := [call]
  error := if p.answer call ≠ 0 then some err else none

/-- The loop of the operations; `res` keeps the latest error. -/
def itemLoop (path mimetype : Text) (visit : PlugIn → Visit) :
    Nat → Int → List PlugIn → Int × Trace
  | _, res, [] => (res, [])
  | libIndex, res, p :: ps =>
      if p.checkItem path mimetype = 0 then
        let v := visit p
        let (res, trace) := itemLoop path mimetype visit (libIndex + 1) (v.error.getD res) ps
        (res, v.calls.map (fun call => (libIndex, call)) ++ trace)
      else itemLoop path mimetype visit (libIndex + 1) res ps

section Operations

variable (o : Outside) (plugIns : List PlugIn)

/-- The lookup of the mime type in front of the loop. -/
def withMime (path : Text) (visit : Text → PlugIn → Visit) : Int × Trace :=
  match o.mime path with
  | none => (msErrMimeGetFail, [])
  | some mimetype => itemLoop path mimetype (visit mimetype) 0 msErrNone plugIns

def msInsertItem (path : Text) : Int × Trace :=
  withMime o plugIns path fun mimetype =>
    visitOnce (.insert path (msGetStorageTypeByFull path) mimetype) msErrDbInsertRecordFail

/-- The result of the DRM registration takes the place of the one of the loop. -/
def msInsertItemBatch (path : Text) : Int × Trace :=
  let r := withMime o plugIns path fun mimetype =>
    visitOnce (.insertBatch path (msGetStorageTypeByFull path) mimetype) msErrDbInsertRecordFail
  if (o.mime path).isSome ∧ o.isDrm path then
    (Register.msDrmRegister (o.drmProcessed path), r.2)
  else r

/-- An item that is not there is inserted, any other becomes valid. -/
def validateVisit (path : Text) (storageType : StorageType) (mimetype : Text) (p : PlugIn) :
    Visit :=
  let exist := ItemCall.exist path storageType
  if p.answer exist ≠ 0 then
    let insert := ItemCall.insertBatch path storageType mimetype
    { calls := [exist, insert]
      error := if p.answer insert ≠ 0 then some msErrDbInsertRecordFail else none }
  else
    let setValidity := ItemCall.setValidity path true mimetype true
    { calls := [exist, setValidity]
      error := if p.answer setValidity ≠ 0 then some msErrDbUpdateRecordFail else none }

/-- `ms_validate_item`; the result of the DRM registration is dropped. -/
def msValidateItem (path : Text) : Int × Trace :=
  withMime o plugIns path (validateVisit path (msGetStorageTypeByFull path))

def msMoveItem (srcStore dstStore : StorageType) (srcPath dstPath : Text) : Int × Trace :=
  withMime o plugIns dstPath fun mimetype =>
    visitOnce (.move srcPath srcStore dstPath dstStore mimetype) msErrDbUpdateRecordFail

def msRefreshItem (path : Text) : Int × Trace :=
  withMime o plugIns path fun mimetype =>
    visitOnce (.refresh path (msGetStorageTypeByFull path) mimetype) msErrDbUpdateRecordFail

end Operations

inductive ItemOp where
  | insert (path : Text)
  | insertBatch (path : Text)
  | validate (path : Text)
  | move (srcStore dstStore : StorageType) (srcPath dstPath : Text)
  | refresh (path : Text)
deriving DecidableEq, Repr

namespace ItemOp

/-- The file that the plug-ins are asked about. -/
def file : ItemOp → Text
  | .insert path | .insertBatch path | .validate path | .move _ _ _ path | .refresh path => path

def run (o : Outside) (plugIns : List PlugIn) : ItemOp → Int × Trace
  | .insert path => msInsertItem o plugIns path
  | .insertBatch path => msInsertItemBatch o plugIns path
  | .validate path => msValidateItem o plugIns path
  | .move srcStore dstStore srcPath dstPath =>
      msMoveItem o plugIns srcStore dstStore srcPath dstPath
  | .refresh path => msRefreshItem o plugIns path

/-- The call that the operation is there for. -/
def due (mimetype : Text) (p : PlugIn) : ItemOp → ItemCall
  | .insert path => .insert path (msGetStorageTypeByFull path) mimetype
  | .insertBatch path => .insertBatch path (msGetStorageTypeByFull path) mimetype
  | .validate path =>
      if p.answer (.exist path (msGetStorageTypeByFull path)) ≠ 0 then
        .insertBatch path (msGetStorageTypeByFull path) mimetype
      else .setValidity path true mimetype true
  | .move srcStore dstStore srcPath dstPath => .move srcPath srcStore dstPath dstStore mimetype
  | .refresh path => .refresh path (msGetStorageTypeByFull path) mimetype

end ItemOp

/-- The plug-ins that take the file, with their indices. -/
def accepting (plugIns : List PlugIn) (path mimetype : Text) : List (PlugIn × Nat) :=
  plugIns.zipIdx.filter fun x => x.1.checkItem path mimetype = 0

/-- Each of them gets its call, once and in order, whatever became of the others, and the
other plug-ins get none; success means that all of these calls succeeded. -/
def Reports (o : Outside) (plugIns : List PlugIn) (op : ItemOp) : Prop :=
  ∀ mimetype, o.mime op.file = some mimetype →
    (op.run o plugIns).2.filter (fun call => !call.2.asks) =
        (accepting plugIns op.file mimetype).map (fun x => (x.2, op.due mimetype x.1)) ∧
      (∀ call ∈ (op.run o plugIns).2,
        call.1 ∈ (accepting plugIns op.file mimetype).map Prod.snd) ∧
      ((op.run o plugIns).1 = msErrNone →
        ∀ x ∈ accepting plugIns op.file mimetype, x.1.answer (op.due mimetype x.1) = 0)

/-- A DRM file that is registered although its insertion failed somewhere. -/
def MasksFailure (o : Outside) (plugIns : List PlugIn) : ItemOp → Prop
  | .insertBatch path =>
      o.isDrm path ∧ o.drmProcessed path ∧ ∃ mimetype, o.mime path = some mimetype ∧
        ∃ p ∈ plugIns, p.checkItem path mimetype = 0 ∧
          p.answer (.insertBatch path (msGetStorageTypeByFull path) mimetype) ≠ 0
  | _ => False

section Loop

variable {o : Outside} {plugIns : List PlugIn} {path mimetype : Text} {visit : PlugIn → Visit}
  {due : PlugIn → ItemCall}

/-- The loop makes the calls of every plug-in that takes the file. -/
theorem itemLoop_snd (libIndex : Nat) (res : Int) (ps : List PlugIn) :
    (itemLoop path mimetype visit libIndex res ps).2 =
      ((ps.zipIdx libIndex).filter fun x => x.1.checkItem path mimetype = 0).flatMap
        fun x => (visit x.1).calls.map fun call => (x.2, call) := by
  induction ps generalizing libIndex res with
  | nil => rfl
  | cons p ps ih =>
      rw [itemLoop, List.zipIdx_cons, List.filter_cons]
      by_cases hp : p.checkItem path mimetype = 0
      · rw [if_pos hp, if_pos (decide_eq_true hp), List.flatMap_cons, ← ih]
      · rw [if_neg hp, if_neg (by simpa using hp), ih]

/-- A plug-in that does not take the file is not called. -/
theorem mem_accepting_of_itemLoop {res : Int} :
    ∀ call ∈ (itemLoop path mimetype visit 0 res plugIns).2,
      call.1 ∈ (accepting plugIns path mimetype).map Prod.snd := by
  intro call hcall
  rw [itemLoop_snd] at hcall
  obtain ⟨x, hx, hcall⟩ := List.mem_flatMap.mp hcall
  obtain ⟨-, -, rfl⟩ := List.mem_map.mp hcall
  exact List.mem_map_of_mem hx

/-- Success means that no visit ended in an error. -/
theorem itemLoop_fst_eq_none_iff (herror : ∀ p, (visit p).error ≠ some msErrNone)
    (libIndex : Nat) (res : Int) (ps : List PlugIn) :
    (itemLoop path mimetype visit libIndex res ps).1 = msErrNone ↔
      res = msErrNone ∧ ∀ p ∈ ps, p.checkItem path mimetype = 0 → (visit p).error = none := by
  induction ps generalizing libIndex res with
  | nil => simp [itemLoop]
  | cons p ps ih =>
      rw [itemLoop, List.forall_mem_cons]
      by_cases hp : p.checkItem path mimetype = 0
      · rw [if_pos hp]
        simp only [ih]
        cases hvisit : (visit p).error with
        | none => simp
        | some err =>
            have hne : err ≠ msErrNone := fun heq => herror p (heq ▸ hvisit)
            simp [hp, hne]
      · rw [if_neg hp, ih]
        simp [hp]

/-- A visit makes one call of its own, and ends in an error if this call fails. -/
structure Does (visit : PlugIn → Visit) (due : PlugIn → ItemCall) : Prop where
  calls : ∀ p, (visit p).calls.filter (fun call => !call.asks) = [due p]
  error : ∀ p, (visit p).error ≠ some msErrNone
  none_iff : ∀ p, (visit p).error = none ↔ p.answer (due p) = 0

theorem does_visitOnce {call : ItemCall} (hasks : call.asks = false) {err : Int}
    (herr : err ≠ msErrNone) : Does (visitOnce call err) fun _ => call where
  calls p := by simp [visitOnce, hasks]
  error p := by
    rw [visitOnce]
    split
    · simpa using herr
    · exact nofun
  none_iff p := by simp [visitOnce]

theorem does_insertBatch (path mimetype : Text) :
    Does (visitOnce (.insertBatch path (msGetStorageTypeByFull path) mimetype)
      msErrDbInsertRecordFail)
        fun p => (ItemOp.insertBatch path).due mimetype p :=
  does_visitOnce rfl (by decide)

theorem does_validate (path mimetype : Text) :
    Does (validateVisit path (msGetStorageTypeByFull path) mimetype)
      fun p => (ItemOp.validate path).due mimetype p where
  calls p := by
    rw [validateVisit, ItemOp.due]
    split <;> rfl
  error p := by
    have hinsert : msErrDbInsertRecordFail ≠ msErrNone := by decide
    have hupdate : msErrDbUpdateRecordFail ≠ msErrNone := by decide
    rw [validateVisit]
    split
    · simp [hinsert]
    · simp [hupdate]
  none_iff p := by
    rw [validateVisit, ItemOp.due]
    split <;> simp

theorem forall_accepting {P : PlugIn → Prop} :
    (∀ x ∈ accepting plugIns path mimetype, P x.1) ↔
      ∀ p ∈ plugIns, p.checkItem path mimetype = 0 → P p := by
  conv_rhs => rw [← List.zipIdx_map_fst 0 plugIns]
  simp only [accepting, List.mem_filter, decide_eq_true_eq, List.forall_mem_map, and_imp]

/-- Every plug-in that takes the file gets its call, whatever became of the others. -/
theorem Does.filter_itemLoop (h : Does visit due) :
    (itemLoop path mimetype visit 0 msErrNone plugIns).2.filter (fun call => !call.2.asks) =
      (accepting plugIns path mimetype).map fun x => (x.2, due x.1) := by
  have hvisit : ∀ x : PlugIn × Nat,
      ((visit x.1).calls.map fun call => (x.2, call)).filter (fun call => !call.2.asks) =
        [(x.2, due x.1)] := by
    intro x
    rw [List.filter_map]
    exact congrArg (List.map fun call => (x.2, call)) (h.calls x.1)
  rw [itemLoop_snd, List.filter_flatMap]
  simp only [hvisit]
  exact (List.map_eq_flatMap ..).symm

theorem Does.itemLoop_eq_none_iff (h : Does visit due) :
    (itemLoop path mimetype visit 0 msErrNone plugIns).1 = msErrNone ↔
      ∀ x ∈ accepting plugIns path mimetype, x.1.answer (due x.1) = 0 := by
  rw [itemLoop_fst_eq_none_iff h.error, forall_accepting (P := fun p => p.answer (due p) = 0)]
  simp only [true_and, h.none_iff]

end Loop

section Reports

variable {o : Outside} {plugIns : List PlugIn}

/-- An operation that returns the result of its loop reports every failure. -/
theorem reports_of_does {op : ItemOp} {visit : Text → PlugIn → Visit}
    (hrun : op.run o plugIns = withMime o plugIns op.file visit)
    (hdoes : ∀ mimetype, Does (visit mimetype) fun p => op.due mimetype p) :
    Reports o plugIns op := by
  intro mimetype hmime
  rw [hrun, withMime, hmime]
  exact ⟨(hdoes mimetype).filter_itemLoop, mem_accepting_of_itemLoop,
    (hdoes mimetype).itemLoop_eq_none_iff.mp⟩

section InsertBatch

variable {path mimetype : Text} (hmime : o.mime path = some mimetype)
include hmime

theorem msInsertItemBatch_eq :
    msInsertItemBatch o plugIns path =
      let call := ItemCall.insertBatch path (msGetStorageTypeByFull path) mimetype
      let r := itemLoop path mimetype (visitOnce call msErrDbInsertRecordFail) 0 msErrNone plugIns
      if o.isDrm path then (Register.msDrmRegister (o.drmProcessed path), r.2) else r := by
  simp only [msInsertItemBatch, withMime, hmime, Option.isSome_some, true_and]

theorem reports_insertBatch_of_mime :
    Reports o plugIns (.insertBatch path) ↔
      ((msInsertItemBatch o plugIns path).1 = msErrNone →
        ∀ p ∈ plugIns, p.checkItem path mimetype = 0 →
          p.answer (.insertBatch path (msGetStorageTypeByFull path) mimetype) = 0) := by
  have hsnd : (msInsertItemBatch o plugIns path).2 =
      (itemLoop path mimetype
        (visitOnce (.insertBatch path (msGetStorageTypeByFull path) mimetype)
          msErrDbInsertRecordFail) 0 msErrNone plugIns).2 := by
    rw [msInsertItemBatch_eq hmime]
    simp only
    split <;> rfl
  constructor
  · intro h
    rw [← forall_accepting]
    exact (h mimetype hmime).2.2
  · intro h mimetype' hmime'
    obtain rfl := Option.some.inj (hmime.symm.trans hmime')
    rw [← forall_accepting] at h
    refine ⟨?_, ?_, h⟩
    · rw [ItemOp.run, hsnd]
      exact (does_insertBatch path mimetype).filter_itemLoop
    · rw [ItemOp.run, hsnd]
      exact mem_accepting_of_itemLoop

end InsertBatch

/-- `ms_insert_item_batch` makes its calls like the others, but the result for a DRM file is
that of its registration. -/
theorem reports_insertBatch_iff {path : Text} :
    Reports o plugIns (.insertBatch path) ↔ ¬ MasksFailure o plugIns (.insertBatch path) := by
  cases hmime : o.mime path with
  | none =>
      refine iff_of_true (fun mimetype h => nomatch hmime.symm.trans h) ?_
      rintro ⟨-, -, mimetype, h, -⟩
      exact nomatch hmime.symm.trans h
  | some mimetype =>
      have hmasks : MasksFailure o plugIns (.insertBatch path) ↔
          o.isDrm path ∧ o.drmProcessed path ∧
            ¬ ∀ p ∈ plugIns, p.checkItem path mimetype = 0 →
              p.answer (.insertBatch path (msGetStorageTypeByFull path) mimetype) = 0 := by
        simp [MasksFailure, hmime]
      rw [reports_insertBatch_of_mime hmime, hmasks, msInsertItemBatch_eq hmime]
      cases hdrm : o.isDrm path with
      | false =>
          refine iff_of_true (fun hnone => ?_) fun h => Bool.false_ne_true h.1
          exact forall_accepting.mp ((does_insertBatch path mimetype).itemLoop_eq_none_iff.mp hnone)
      | true =>
          cases hprocessed : o.drmProcessed path with
          | false =>
              have hfail : Register.msDrmRegister false ≠ msErrNone := by decide
              exact iff_of_true (fun hnone => absurd hnone hfail) fun h => Bool.false_ne_true h.2.1
          | true => simp [Register.msDrmRegister]

/-- Failures are reported but for the one of a batch insertion that the registration of a
DRM file hides. -/
theorem failures_reported_iff (o : Outside) (plugIns : List PlugIn) (op : ItemOp) :
    Reports o plugIns op ↔ ¬ MasksFailure o plugIns op := by
  have hinsert : msErrDbInsertRecordFail ≠ msErrNone := by decide
  have hupdate : msErrDbUpdateRecordFail ≠ msErrNone := by decide
  cases op with
  | insert path =>
      exact iff_of_true (reports_of_does rfl fun _ => does_visitOnce rfl hinsert) id
  | insertBatch path => exact reports_insertBatch_iff
  | validate path => exact iff_of_true (reports_of_does rfl (does_validate path)) id
  | move srcStore dstStore srcPath dstPath =>
      exact iff_of_true (reports_of_does rfl fun _ => does_visitOnce rfl hupdate) id
  | refresh path =>
      exact iff_of_true (reports_of_does rfl fun _ => does_visitOnce rfl hupdate) id

end Reports

/-- A plug-in that takes every file and cannot insert. -/
def fullPlugIn : PlugIn where
  checkItem := fun _ _ => 0
  answer := fun
    | .insertBatch _ _ _ => -1
    | _ => 0

/-- The insertion fails, the registration of the DRM file succeeds, and so does the call. -/
theorem failure_masked :
    ¬ Reports { mime := fun _ => some "audio/mpeg".toList, isDrm := fun _ => true } [fullPlugIn]
      (.insertBatch "/opt/media/song.dcf".toList) := by
  intro h
  have hnone := (h _ rfl).2.2 (by decide)
  have hmem : (fullPlugIn, 0) ∈ [(fullPlugIn, 0)] := List.mem_singleton_self _
  exact absurd (hnone _ hmem) (by decide)

/-! ### The registration of one file

There a plug-in is given by what it answers about this file. -/

def ofRegister (p : Register.PlugIn) : PlugIn where
  checkItem := fun _ _ => if p.accepts then 0 else -1
  answer := fun
    | .exist _ _ => p.checkItemExist p.existFails
    | .insert _ _ _ => p.insertItemImmediately.1
    | _ => 0

theorem insertLoop_ofRegister {path mimetype : Text} (libIndex : Nat) (res : Int)
    (ps : List Register.PlugIn) :
    (Register.insertLoop res ps).1 =
      (itemLoop path mimetype
        (visitOnce (.insert path (msGetStorageTypeByFull path) mimetype) msErrDbInsertRecordFail)
        libIndex res (ps.map ofRegister)).1 := by
  induction ps generalizing libIndex res with
  | nil => rfl
  | cons p ps ih =>
      rw [Register.insertLoop, List.map_cons, itemLoop]
      cases haccepts : p.accepts with
      | false => simp [ofRegister, haccepts, ← ih]
      | true =>
          cases hfails : p.insertFails <;>
            simp [ofRegister, haccepts, hfails, Register.PlugIn.insertItemImmediately, visitOnce,
              ← ih]

theorem msInsertItem_ofRegister (mime : Bool) (ps : List Register.PlugIn) (path : Text) :
    (Register.msInsertItem mime ps).1 =
      (msInsertItem { mime := fun _ => if mime then some [] else none } (ps.map ofRegister)
        path).1 := by
  cases mime with
  | false => rfl
  | true => exact insertLoop_ofRegister 0 msErrNone ps

end MediaServer.DbSvc
