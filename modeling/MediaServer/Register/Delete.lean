import MediaServer.Register.Reply

/-!
# Registering, looking up and deleting one file

`ms_insert_item` stores a file in the plug-ins that accept it. `ms_check_exist` and
`ms_delete_item` do not ask which plug-ins these are: the first wants the item in
all of them, and the second fails for each one that has no item.
-/

namespace MediaServer.Register

/-- The loop of `ms_delete_item`. The oracles say which of its calls fail. -/
def deleteLoop (existFails deleteFails : Nat → Bool) :
    Nat → Int → List PlugIn → Int × List PlugIn
  | _, res, [] => (res, [])
  | libIndex, res, p :: ps =>
      let (ret, p) :=
        if p.checkItemExist (existFails libIndex) = 0 then
          if deleteFails libIndex then (msErrDbDeleteRecordFail, p)
          else (res, { p with holds := false })
        else (msErrDbDeleteRecordFail, p)
      let (res, ps) := deleteLoop existFails deleteFails (libIndex + 1) ret ps
      (res, p :: ps)

/-- `ms_delete_item`; what follows for a DRM file does not change its result. -/
def msDeleteItem (existFails deleteFails : Nat → Bool) (plugIns : List PlugIn) :
    Int × List PlugIn :=
  deleteLoop existFails deleteFails 0 msErrNone plugIns

/-- The plug-ins whose insert function `ms_register_file` calls. -/
def insertCalls (r : Request) : List PlugIn :=
  if msCheckExist r.plugIns = msErrNone ∨ msGetMime r.mime ≠ msErrNone then []
  else r.plugIns.filter PlugIn.accepts

/-- No plug-in call of the request fails. -/
def Reliable (r : Request) : Prop :=
  ∀ p ∈ r.plugIns, ¬ p.existFails ∧ ¬ p.insertFails ∧ ¬ p.recheckFails

/-- The same file is registered once more. -/
def Request.again (r : Request) : Request := { r with plugIns := (msRegisterFile r).plugIns }

/-- After a registration that succeeds the file exists, a second registration has
nothing to insert, and a deletion succeeds and leaves the file nowhere. -/
def Agrees (r : Request) : Prop :=
  (msRegisterFile r).res = msErrNone →
    msCheckExist (msRegisterFile r).plugIns = msErrNone ∧
    ((msRegisterFile r.again).res = msErrNone ∧ insertCalls r.again = []) ∧
    (msDeleteItem (fun _ => false) (fun _ => false) (msRegisterFile r).plugIns).1 = msErrNone ∧
    ∀ p ∈ (msDeleteItem (fun _ => false) (fun _ => false) (msRegisterFile r).plugIns).2,
      ¬ p.holds

instance : DecidablePred Agrees := fun r => by
  unfold Agrees
  infer_instance

/-- Every plug-in accepts the file or has had an item for it; or the file has no mime
type, and the registration says so. -/
def AcceptedByAll (r : Request) : Prop :=
  (∀ p ∈ r.plugIns, p.holds ∨ (p.accepts ∧ r.mime)) ∨ (¬ r.mime ∧ FailureReported r)

theorem deleteLoop_eq (libIndex : Nat) (res : Int) (ps : List PlugIn) :
    deleteLoop (fun _ => false) (fun _ => false) libIndex res ps =
      (if ∀ p ∈ ps, p.holds then res else msErrDbDeleteRecordFail,
        ps.map fun p => { p with holds := false }) := by
  induction ps generalizing libIndex res with
  | nil => rfl
  | cons p ps ih =>
      rw [deleteLoop]
      cases hp : p.holds with
      | true => simp [PlugIn.checkItemExist, hp, ih]
      | false =>
          have hsame : p = { p with holds := false } := by
            rw [← hp]
          simp [PlugIn.checkItemExist, hp, ih, ← hsame]

/-- A deletion succeeds exactly when every plug-in has the item. -/
theorem msDeleteItem_fst_eq_none_iff (ps : List PlugIn) :
    (msDeleteItem (fun _ => false) (fun _ => false) ps).1 = msErrNone ↔ ∀ p ∈ ps, p.holds := by
  have hfail : msErrDbDeleteRecordFail ≠ msErrNone := by decide
  rw [msDeleteItem, deleteLoop_eq]
  simp [hfail]

theorem not_holds_of_mem_msDeleteItem {ps : List PlugIn} {p : PlugIn}
    (h : p ∈ (msDeleteItem (fun _ => false) (fun _ => false) ps).2) : ¬ p.holds := by
  rw [msDeleteItem, deleteLoop_eq] at h
  obtain ⟨q, -, rfl⟩ := List.mem_map.mp h
  exact Bool.false_ne_true

/-- Everything that is promised follows from the existence check. -/
theorem agrees_iff (r : Request) :
    Agrees r ↔ ((msRegisterFile r).res = msErrNone →
      msCheckExist (msRegisterFile r).plugIns = msErrNone) := by
  refine forall_congr' fun _ => ⟨And.left, fun hexist => ⟨hexist, ⟨?_, ?_⟩, ?_, ?_⟩⟩
  · rw [msRegisterFile]
    exact congrArg Registered.res (if_pos hexist)
  · exact if_pos (.inl hexist)
  · rw [msDeleteItem_fst_eq_none_iff]
    exact fun p hp => ((msCheckExist_eq_none_iff _).mp hexist p hp).1
  · exact fun p => not_holds_of_mem_msDeleteItem

section Reliable

variable {r : Request}

/-- An attempted registration leaves the file in every plug-in that had it or
accepts it. -/
theorem msCheckExist_afterInsert_iff (reliable : Reliable r) :
    msCheckExist (afterInsert r) = msErrNone ↔
      ∀ p ∈ r.plugIns, p.holds ∨ (p.accepts ∧ r.mime) := by
  rw [msCheckExist_eq_none_iff, afterInsert_eq]
  cases hmime : r.mime with
  | false =>
      refine forall₂_congr fun p hp => ?_
      simp [(reliable p hp).1]
  | true =>
      simp only [if_true, List.forall_mem_map]
      refine forall₂_congr fun p hp => ?_
      obtain ⟨hexist, hinsert, -⟩ := reliable p hp
      rw [PlugIn.inserted_existFails]
      cases haccepts : p.accepts with
      | false => simp [PlugIn.inserted, haccepts, hexist]
      | true => simp [PlugIn.inserted_holds haccepts, hexist, hinsert]

theorem insertsAll_iff (reliable : Reliable r) : InsertsAll r ↔ r.mime :=
  ⟨And.left, fun hmime => ⟨hmime, fun p hp _ => (reliable p hp).2.1⟩⟩

end Reliable

/-- Registration, lookup and deletion agree about a file exactly when every plug-in
takes it, unless the registration fails. -/
theorem register_agrees_iff (r : Request) (reliable : Reliable r) :
    Agrees r ↔ AcceptedByAll r := by
  rw [agrees_iff]
  by_cases hexist : msCheckExist r.plugIns = msErrNone
  · have hheld := (msCheckExist_eq_none_iff r.plugIns).mp hexist
    refine iff_of_true (fun _ => ?_) (.inl fun p hp => .inl (hheld p hp).1)
    rwa [msRegisterFile, if_pos hexist]
  · have hplugIns : (msRegisterFile r).plugIns = afterInsert r := by
      simp only [msRegisterFile, if_neg hexist]
      rfl
    rw [msRegisterFile_res_eq_none_iff hexist, hplugIns, msCheckExist_afterInsert_iff reliable,
      insertsAll_iff reliable, AcceptedByAll]
    constructor
    · intro hall
      by_cases hreply : r.mime ∨ ¬ FailureReported r
      · exact .inl (hall hreply)
      · rw [not_or, not_not] at hreply
        exact .inr hreply
    · rintro (hall | ⟨hmime, hfail⟩) hreply
      · exact hall
      · exact absurd hreply (not_or.mpr ⟨hmime, not_not.mpr hfail⟩)

/-- Two plug-ins, both of which take the file. -/
theorem register_agrees_two :
    Agrees ⟨[⟨true, false, false, false, false⟩, ⟨true, true, false, false, false⟩],
      true, true, false, true⟩ :=
  (register_agrees_iff _ (by unfold Reliable; decide)).mpr
    (.inl (by decide))

/-- The second plug-in does not take the file: it is registered with success, but
does not exist, is inserted once more, and cannot be deleted without an error. -/
theorem register_disagrees :
    let r : Request := ⟨[⟨true, false, false, false, false⟩, ⟨false, false, false, false, false⟩],
      true, true, false, true⟩
    Reliable r ∧ ¬ Agrees r := by
  refine ⟨?_, ?_⟩
  · unfold Reliable
    decide
  · decide

end MediaServer.Register
