import MediaServer.Register.File

/-!
# The reply to a client

`ms_read_socket` answers each datagram with one status. The status is either the
result of its own call of `ms_register_file`, or, when that call finds the path
on `reg_list`, the result of the registration in progress, which the inotify
thread hands over through `ret_queue` as a pointer-sized integer.

The reply is compared with what the plug-ins and the DRM service hold after the
registration. A failure can be lost in two places: the loop that checks again
after a failed insertion keeps the answer of the last accepting plug-in only,
and the result of `ms_drm_register` is never looked at.
-/

namespace MediaServer.Register

def msMediaErrNone : Int := 0
def msMediaErrInvalidParameter : Int := -0x01
def msMediaErrInvalidMedia : Int := -0x08
def msMediaErrInsertFail : Int := -0x09
def msMediaErrDrmInsertFail : Int := -0x0a

/-- Which registration the reply reports. -/
inductive Origin where
  | direct
  | handedOver
deriving DecidableEq, Repr

/-- `GINT_TO_POINTER(res + MS_ERR_MAX)`, never the null pointer for a result of
this server. -/
def pushed (res : Int) : Int := res + msErrMax

/-- `GPOINTER_TO_INT(p) - MS_ERR_MAX`. -/
def popped (p : Int) : Int := p - msErrMax

/-- The table of `ms_read_socket`; an unlisted error keeps the initial value. -/
def sendMsg (ret : Int) : Int :=
  if ret ≠ msErrNone then
    if ret = msErrArgInvalid then msMediaErrInvalidParameter
    else if ret = msErrMimeGetFail then msMediaErrInvalidMedia
    else if ret = msErrDbInsertRecordFail then msMediaErrInsertFail
    else if ret = msErrDrmRegisterFail then msMediaErrDrmInsertFail
    else msMediaErrNone
  else msMediaErrNone

/-- The status sent and the registration it is about. -/
def msReadSocket (o : Origin) (r : Request) : Int × Registered :=
  let registered := msRegisterFile r
  match o with
  | .direct => (sendMsg registered.res, registered)
  | .handedOver => (sendMsg (popped (pushed registered.res)), registered)

/-- A success reply for an attempted registration means that every accepting
plug-in holds the item and that a DRM file was registered. -/
def Truthful (o : Origin) (r : Request) : Prop :=
  msCheckExist r.plugIns ≠ msErrNone → (msReadSocket o r).1 = msMediaErrNone →
    (∀ p ∈ (msReadSocket o r).2.plugIns, p.accepts → p.holds) ∧
      (r.isDrm → (msReadSocket o r).2.drm = some msErrNone)

/-- An accepting plug-in ends up with the item: it had it, or its insertion was
reached and succeeded. -/
def Stored (r : Request) (p : PlugIn) : Prop := p.holds ∨ (r.mime ∧ ¬ p.insertFails)

/-- Nothing went wrong in the insertion stage. -/
def InsertsAll (r : Request) : Prop := r.mime ∧ ∀ p ∈ r.plugIns, p.accepts → ¬ p.insertFails

/-- A failed insertion reaches the reply: the mime type cannot be read again, or
the last accepting plug-in fails the second existence check. -/
def FailureReported (r : Request) : Prop :=
  ¬ r.mimeAgain ∨
    ∃ p, (r.plugIns.filter PlugIn.accepts).getLast? = some p ∧ (Stored r p → p.recheckFails)

/-- The exact condition for a truthful reply, on the request alone. -/
def ReplyCondition (r : Request) : Prop :=
  (∀ p ∈ r.plugIns, p.holds ∧ ¬ p.existFails) ∨
    (¬ InsertsAll r ∧ FailureReported r) ∨
      ((r.isDrm → r.drmProcessed) ∧ ∀ p ∈ r.plugIns, p.accepts → Stored r p)

@[simp] theorem popped_pushed (res : Int) : popped (pushed res) = res := Int.add_sub_cancel _ _

theorem mem_afterInsert_holds (r : Request) :
    (∀ p ∈ afterInsert r, p.accepts → p.holds) ↔
      ∀ p ∈ r.plugIns, p.accepts → Stored r p := by
  rw [afterInsert_eq]
  cases hm : r.mime with
  | false => simp [Stored, hm]
  | true =>
      simp only [if_true, List.forall_mem_map, PlugIn.inserted_accepts]
      refine forall₂_congr fun p _ => forall_congr' fun hp => ?_
      simp [PlugIn.inserted_holds hp, Stored, hm]

/-- The last accepting plug-in after the insertion stage is the last accepting
one of the request, with its item stored or not. -/
theorem recheckLoop_afterInsert (r : Request) :
    recheckLoop msErrNone (afterInsert r) = msErrNone ↔
      ¬ ∃ p, (r.plugIns.filter PlugIn.accepts).getLast? = some p ∧
        (Stored r p → p.recheckFails) := by
  have hfail : msErrDbInsertRecordFail ≠ msErrNone := by decide
  rw [recheckLoop_eq, afterInsert_eq]
  cases hm : r.mime with
  | false =>
      simp only [Bool.false_eq_true, if_false]
      cases hlast : (r.plugIns.filter PlugIn.accepts).getLast? with
      | none => simp
      | some p =>
          cases hh : p.holds <;> cases hr : p.recheckFails <;>
            simp [PlugIn.recheckOk, Stored, hm, hh, hr, hfail]
  | true =>
      have hfilter : (r.plugIns.map PlugIn.inserted).filter PlugIn.accepts =
          (r.plugIns.filter PlugIn.accepts).map PlugIn.inserted := by
        rw [List.filter_map]
        exact congrArg (List.map PlugIn.inserted)
          (List.filter_congr fun p _ => PlugIn.inserted_accepts p)
      simp only [if_true, hfilter, List.getLast?_map]
      cases hlast : (r.plugIns.filter PlugIn.accepts).getLast? with
      | none => simp
      | some p =>
          have hp : p.accepts := (List.mem_filter.mp (List.mem_of_getLast? hlast)).2
          cases hh : p.holds <;> cases hf : p.insertFails <;> cases hr : p.recheckFails <;>
            simp [PlugIn.recheckOk, PlugIn.inserted_holds hp, PlugIn.inserted_recheckFails, Stored,
              hm, hh, hf, hr, hfail]

/-- The result of a registration that was attempted, read off the request. -/
theorem msRegisterFile_res_eq_none_iff {r : Request} (h : msCheckExist r.plugIns ≠ msErrNone) :
    (msRegisterFile r).res = msErrNone ↔ InsertsAll r ∨ ¬ FailureReported r := by
  have hmime : msErrMimeGetFail ≠ msErrNone := by decide
  have hinsert : (msInsertItem r.mime r.plugIns).1 = msErrNone ↔ InsertsAll r :=
    msInsertItem_eq_none_iff r.mime r.plugIns
  simp only [msRegisterFile, if_neg h]
  by_cases hall : InsertsAll r
  · simp [hinsert.mpr hall, hall]
  · rw [if_pos (fun he => hall (hinsert.mp he))]
    cases hm : r.mimeAgain with
    | false => simp [msGetMime, hmime, hall, FailureReported, hm]
    | true =>
        have hloop := recheckLoop_afterInsert r
        rw [if_neg (by simp [msGetMime])]
        simpa [hall, FailureReported, hm, afterInsert] using hloop

/-- Only these three results leave `ms_register_file`, all of them listed in the
table of the reply. -/
theorem msRegisterFile_res (r : Request) :
    (msRegisterFile r).res = msErrNone ∨ (msRegisterFile r).res = msErrMimeGetFail ∨
      (msRegisterFile r).res = msErrDbInsertRecordFail := by
  simp only [msRegisterFile, recheckLoop_eq]
  split
  · exact .inl rfl
  · split
    · split
      · exact .inr (.inl rfl)
      · split
        · exact .inl rfl
        · split
          · exact .inl rfl
          · exact .inr (.inr rfl)
    · exact .inl rfl

/-- Both ways of obtaining the result report success exactly for result 0. -/
theorem msReadSocket_fst_eq_none_iff (o : Origin) (r : Request) :
    (msReadSocket o r).1 = msMediaErrNone ↔ (msRegisterFile r).res = msErrNone := by
  have hsend : sendMsg (msRegisterFile r).res = msMediaErrNone ↔
      (msRegisterFile r).res = msErrNone := by
    rcases msRegisterFile_res r with h | h | h <;> rw [h] <;> decide
  cases o with
  | direct => exact hsend
  | handedOver => simpa [msReadSocket] using hsend

/-- A reply is truthful exactly under `ReplyCondition`, for both origins. -/
theorem reply_truthful_iff (o : Origin) (r : Request) : Truthful o r ↔ ReplyCondition r := by
  have hexist := msCheckExist_eq_none_iff r.plugIns
  by_cases h : msCheckExist r.plugIns = msErrNone
  · exact iff_of_true (fun hne => absurd h hne) (.inl (hexist.mp h))
  have hsnd : (msReadSocket o r).2 = msRegisterFile r := by cases o <;> rfl
  have hplugIns : (msRegisterFile r).plugIns = afterInsert r := by
    simp only [msRegisterFile, if_neg h]
    rfl
  have hdrm : (r.isDrm → (msRegisterFile r).drm = some msErrNone) ↔
      (r.isDrm → r.drmProcessed) := by
    refine forall_congr' fun hdrm => ?_
    simp only [msRegisterFile, if_neg h, hdrm, if_true]
    cases r.drmProcessed <;> decide
  simp only [Truthful, ReplyCondition, hsnd, hplugIns, hdrm, msReadSocket_fst_eq_none_iff,
    msRegisterFile_res_eq_none_iff h, mem_afterInsert_holds, ← hexist]
  -- a clean insertion stage stores every item by itself
  have hstored : InsertsAll r → ∀ p ∈ r.plugIns, p.accepts → Stored r p :=
    fun hall p hp haccepts => .inr ⟨hall.1, hall.2 p hp haccepts⟩
  constructor
  · intro htruth
    by_cases hreply : InsertsAll r ∨ ¬ FailureReported r
    · exact .inr (.inr ⟨(htruth h hreply).2, (htruth h hreply).1⟩)
    · rw [not_or, not_not] at hreply
      exact .inr (.inl hreply)
  · rintro (hall | ⟨hfail, hreported⟩ | ⟨hdrmOk, hall⟩) - hreply
    · exact absurd hall h
    · exact absurd hreply (by simp [hfail, hreported])
    · exact ⟨hall, hdrmOk⟩

/-- A DRM file whose registration is refused, stored by its only plug-in, is
reported as a success; so is a file that the first of two plug-ins refused. -/
theorem reply_untruthful :
    ¬ (∀ o r, Truthful o r) ∧
      ¬ Truthful .direct ⟨[⟨true, false, false, false, false⟩], true, true, true, false⟩ ∧
      ¬ Truthful .handedOver
        ⟨[⟨true, false, false, true, false⟩, ⟨true, false, false, false, false⟩],
          true, true, false, true⟩ := by
  have hdrm : ¬ Truthful .direct
      ⟨[⟨true, false, false, false, false⟩], true, true, true, false⟩ := by
    unfold Truthful
    decide
  refine ⟨fun h => hdrm (h _ _), hdrm, ?_⟩
  unfold Truthful
  decide

end MediaServer.Register
