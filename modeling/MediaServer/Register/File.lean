import MediaServer.Types

/-!
# Registering one file

`ms_register_file` as a sequential function: the existence check over all
plug-ins, the insertion into every accepting one, the second existence check
after a failed insertion, and the registration of a DRM file. A plug-in is
described by what it answers during this request, so every pattern of failing
calls is a value of `Request`. The two critical sections on `queue_mutex` and
the threads they separate are the subject of `Register.Threads`.
-/

namespace MediaServer.Register

/-- One row of `func_array` with its database, as far as one path is concerned.
The three failure bits belong to the three places where the plug-in is called. -/
structure PlugIn where
  /-- `CHECK_ITEM` returns 0. -/
  accepts : Bool
  /-- An item for the path is stored. -/
  holds : Bool
  existFails : Bool := false
  insertFails : Bool := false
  recheckFails : Bool := false
deriving DecidableEq, Repr

namespace PlugIn

/-- `CHECK_ITEM_EXIST` finds the item, unless the call itself fails. -/
def checkItemExist (p : PlugIn) (fails : Bool) : Int := if p.holds && !fails then 0 else -1

def insertItemImmediately (p : PlugIn) : Int × PlugIn :=
  if p.insertFails then (-1, p) else (0, { p with holds := true })

/-- The second existence check finds the item. -/
def recheckOk (p : PlugIn) : Bool := p.holds && !p.recheckFails

/-- The plug-in after the insertion stage has gone over it. -/
def inserted (p : PlugIn) : PlugIn := if p.accepts then p.insertItemImmediately.2 else p

@[simp] theorem inserted_accepts (p : PlugIn) : p.inserted.accepts = p.accepts := by
  unfold inserted insertItemImmediately
  split <;> [split; skip] <;> rfl

@[simp] theorem inserted_existFails (p : PlugIn) : p.inserted.existFails = p.existFails := by
  unfold inserted insertItemImmediately
  split <;> [split; skip] <;> rfl

@[simp] theorem inserted_recheckFails (p : PlugIn) :
    p.inserted.recheckFails = p.recheckFails := by
  unfold inserted insertItemImmediately
  split <;> [split; skip] <;> rfl

/-- An accepting plug-in holds the item afterwards exactly when its insertion
succeeded or it held the item before. -/
theorem inserted_holds {p : PlugIn} (hp : p.accepts) :
    p.inserted.holds = (p.holds || !p.insertFails) := by
  cases hf : p.insertFails <;> simp [inserted, insertItemImmediately, hp, hf]

end PlugIn

/-- A registration request with everything its environment answers. The mime
type is asked for once in `ms_insert_item` and once more after a failure. -/
structure Request where
  plugIns : List PlugIn
  mime : Bool := true
  mimeAgain : Bool := true
  isDrm : Bool := false
  drmProcessed : Bool := true
deriving DecidableEq, Repr

/-- What a registration leaves behind: its result, the plug-ins, and the result
of `ms_drm_register` when that was called. -/
structure Registered where
  res : Int
  plugIns : List PlugIn
  drm : Option Int := none
deriving DecidableEq, Repr

/-- The answer of `ms_is_drm_file` does not matter here: both ways of finding the
mime type end in the same error code. -/
def msGetMime (found : Bool) : Int := if found then msErrNone else msErrMimeGetFail

def msDrmRegister (processed : Bool) : Int := if processed then msErrNone else msErrDrmRegisterFail

def msCheckExist : List PlugIn → Int
  | [] => msErrNone
  | p :: ps => if p.checkItemExist p.existFails ≠ 0 then msErrDbExistItemFail else msCheckExist ps

/-- The loop of `ms_insert_item`; a failure is kept in `res`. -/
def insertLoop (res : Int) : List PlugIn → Int × List PlugIn
  | [] => (res, [])
  | p :: ps =>
      if p.accepts then
        let (ret, p) := p.insertItemImmediately
        let (res, ps) := insertLoop (if ret ≠ 0 then msErrDbInsertRecordFail else res) ps
        (res, p :: ps)
      else
        let (res, ps) := insertLoop res ps
        (res, p :: ps)

def msInsertItem (mime : Bool) (plugIns : List PlugIn) : Int × List PlugIn :=
  let ret := msGetMime mime
  if ret ≠ msErrNone then (ret, plugIns) else insertLoop msErrNone plugIns

/-- The loop after a failed insertion; each accepting plug-in overwrites `res`. -/
def recheckLoop (res : Int) : List PlugIn → Int
  | [] => res
  | p :: ps =>
      if p.accepts then
        recheckLoop
          (if p.checkItemExist p.recheckFails = 0 then msErrNone else msErrDbInsertRecordFail) ps
      else recheckLoop res ps

/-- `ms_register_file` for the thread that puts the path on `reg_list`. -/
def msRegisterFile (r : Request) : Registered :=
  if msCheckExist r.plugIns = msErrNone then { res := msErrNone, plugIns := r.plugIns }
  else
    let (ret, plugIns) := msInsertItem r.mime r.plugIns
    let res :=
      if ret ≠ msErrNone then
        if msGetMime r.mimeAgain ≠ msErrNone then msErrMimeGetFail
        else recheckLoop msErrNone plugIns
      else msErrNone
    -- the result of the DRM registration stays in `ret` and is dropped
    { res, plugIns, drm := if r.isDrm then some (msDrmRegister r.drmProcessed) else none }

/-- The plug-ins after the insertion stage, whatever its result. -/
def afterInsert (r : Request) : List PlugIn := (msInsertItem r.mime r.plugIns).2

theorem msCheckExist_eq_none_iff (ps : List PlugIn) :
    msCheckExist ps = msErrNone ↔ ∀ p ∈ ps, p.holds ∧ ¬ p.existFails := by
  induction ps with
  | nil => simp [msCheckExist]
  | cons p ps ih =>
      rw [msCheckExist, List.forall_mem_cons]
      by_cases hp : p.holds ∧ ¬ p.existFails
      · simp [PlugIn.checkItemExist, hp.1, hp.2, ih]
      · have hfound : p.checkItemExist p.existFails ≠ 0 := by
          simpa [PlugIn.checkItemExist] using hp
        rw [if_pos hfound]
        exact iff_of_false (by decide) fun h => hp h.1

theorem insertLoop_snd (res : Int) (ps : List PlugIn) :
    (insertLoop res ps).2 = ps.map PlugIn.inserted := by
  induction ps generalizing res with
  | nil => rfl
  | cons p ps ih =>
      cases hp : p.accepts <;> simp [insertLoop, hp, ih, PlugIn.inserted]

theorem insertLoop_fst_eq_none_iff (res : Int) (ps : List PlugIn) :
    (insertLoop res ps).1 = msErrNone ↔
      (∀ p ∈ ps, p.accepts → ¬ p.insertFails) ∧
        (res = msErrNone ∨ ∃ p ∈ ps, p.accepts ∧ p.insertFails) := by
  induction ps generalizing res with
  | nil => simp [insertLoop]
  | cons p ps ih =>
      cases hp : p.accepts with
      | false => simp [insertLoop, hp, ih]
      | true =>
          cases hf : p.insertFails with
          | false => simp [insertLoop, hp, hf, ih, PlugIn.insertItemImmediately]
          | true =>
              have hfail : msErrDbInsertRecordFail ≠ msErrNone := by decide
              simp only [insertLoop, hp, hf, PlugIn.insertItemImmediately, if_true, ih]
              constructor
              · rintro ⟨hall, hres | ⟨q, hq, haccepts, hfails⟩⟩
                · exact absurd hres (by simpa using hfail)
                · exact absurd hfails (hall q hq haccepts)
              · rintro ⟨hall, -⟩
                exact absurd hf (hall p List.mem_cons_self hp)

/-- From a clean start the loop reports success exactly when no insertion of an
accepting plug-in failed. -/
theorem insertLoop_none_iff (ps : List PlugIn) :
    (insertLoop msErrNone ps).1 = msErrNone ↔ ∀ p ∈ ps, p.accepts → ¬ p.insertFails := by
  simp [insertLoop_fst_eq_none_iff]

/-- Only the last accepting plug-in decides the result of the second check. -/
theorem recheckLoop_eq (res : Int) (ps : List PlugIn) :
    recheckLoop res ps =
      match (ps.filter PlugIn.accepts).getLast? with
      | none => res
      | some p => if p.recheckOk then msErrNone else msErrDbInsertRecordFail := by
  induction ps generalizing res with
  | nil => rfl
  | cons p ps ih =>
      cases hp : p.accepts with
      | false => simp [recheckLoop, hp, ih]
      | true =>
          rw [recheckLoop, if_pos hp, ih, List.filter_cons_of_pos (by exact hp),
            List.getLast?_cons]
          cases (ps.filter PlugIn.accepts).getLast? with
          | none => cases hh : p.holds <;> cases hr : p.recheckFails <;>
              simp [PlugIn.checkItemExist, PlugIn.recheckOk, hh, hr]
          | some q => rfl

theorem afterInsert_eq (r : Request) :
    afterInsert r = if r.mime then r.plugIns.map PlugIn.inserted else r.plugIns := by
  cases hm : r.mime with
  | false => simp [afterInsert, msInsertItem, msGetMime, hm, msErrMimeGetFail, msErrNone]
  | true => simp [afterInsert, msInsertItem, msGetMime, hm, insertLoop_snd]

/-- The insertion stage reports success exactly when the mime type was found and
no accepting plug-in refused the item. -/
theorem msInsertItem_eq_none_iff (mime : Bool) (ps : List PlugIn) :
    (msInsertItem mime ps).1 = msErrNone ↔
      mime ∧ ∀ p ∈ ps, p.accepts → ¬ p.insertFails := by
  cases mime with
  | false => simp [msInsertItem, msGetMime, msErrMimeGetFail, msErrNone]
  | true => simpa [msInsertItem, msGetMime] using insertLoop_none_iff ps

end MediaServer.Register
