import MediaServer.DbSvc.Calls
import MediaServer.Foundation.Bytes
import MediaServer.Inotify.Service
import MediaServer.Inotify.Walk

/-!
# Which storage a call names

A path comes to the plug-ins together with the storage that its first bytes name. The
socket hands over whatever a client has sent, and the inotify thread the files of every
directory that it watches, the one that tells the end of a file operation among them.

A run is one of datagrams and events, with the watches that the other threads add and
remove in between. Each request meets its own answers of the plug-ins.
-/

namespace MediaServer.DbSvc

open Inotify

/-- What the calls for one file meet. After a failed insertion `ms_register_file` looks the
file up again. -/
structure Env where
  plugIns : List PlugIn
  outside : Outside
  /-- `_ms_find_reg_list`. -/
  registering : Bool := false
  plugInsAgain : List PlugIn := plugIns
  outsideAgain : Outside := outside

section Operations

variable (env : Env) (path : Text)

/-- The loop of `ms_check_exist`. -/
def existLoop (storageType : StorageType) : Nat → List PlugIn → Int × Trace
  | _, [] => (msErrNone, [])
  | libIndex, p :: ps =>
      let call := ItemCall.exist path storageType
      if p.answer call ≠ 0 then (msErrDbExistItemFail, [(libIndex, call)])
      else
        let (ret, trace) := existLoop storageType (libIndex + 1) ps
        (ret, (libIndex, call) :: trace)

def msCheckExist : Int × Trace :=
  existLoop path (msGetStorageTypeByFull path) 0 env.plugIns

/-- The second existence check; every plug-in that takes the file sets the result anew. -/
def recheckVisit (storageType : StorageType) (p : PlugIn) : Visit :=
  let exist := ItemCall.exist path storageType
  { calls := [exist]
    error := some (if p.answer exist = 0 then msErrNone else msErrDbInsertRecordFail) }

def msRegisterFile : Int × Trace :=
  let (ret, checked) := msCheckExist env path
  if ret = msErrNone then (msErrNone, checked)
  else if env.registering then (msErrNowRegisterFile, checked)
  else
    let (ret, inserted) := msInsertItem env.outside env.plugIns path
    if ret ≠ msErrNone then
      let (res, rechecked) := withMime env.outsideAgain env.plugInsAgain path fun _ =>
        recheckVisit path (msGetStorageTypeByFull path)
      (res, checked ++ inserted ++ rechecked)
    else (msErrNone, checked ++ inserted)

/-- The loop of `ms_delete_item`. -/
def deleteLoop (storageType : StorageType) : Nat → Int → List PlugIn → Int × Trace
  | _, res, [] => (res, [])
  | libIndex, res, p :: ps =>
      let exist := ItemCall.exist path storageType
      let delete := ItemCall.delete path storageType
      if p.answer exist = 0 then
        let (res, trace) := deleteLoop storageType (libIndex + 1)
          (if p.answer delete ≠ 0 then msErrDbDeleteRecordFail else res) ps
        (res, (libIndex, exist) :: (libIndex, delete) :: trace)
      else
        let (res, trace) := deleteLoop storageType (libIndex + 1) msErrDbDeleteRecordFail ps
        (res, (libIndex, exist) :: trace)

def msDeleteItem : Int × Trace :=
  deleteLoop path (msGetStorageTypeByFull path) 0 msErrNone env.plugIns

end Operations

/-- The calls into the plug-ins of what the thread asks for. -/
def plugInCalls (env : Env) : ServiceCall → Trace
  | .register path => (msRegisterFile env path).2
  | .store path => (msInsertItemBatch env.outside env.plugIns path).2
  | .delete path => (msDeleteItem env path).2
  | .move srcPath dstPath =>
      (msMoveItem env.outside env.plugIns (msGetStorageTypeByFull srcPath)
        (msGetStorageTypeByFull dstPath) srcPath dstPath).2
  | .refresh path => (msRefreshItem env.outside env.plugIns path).2

/-- The path and the storage that an insertion, a refresh or an existence check names. -/
def ItemCall.place : ItemCall → Option (Text × StorageType)
  | .exist path storageType | .insertBatch path storageType _ | .insert path storageType _
  | .refresh path storageType _ => some (path, storageType)
  | .setValidity _ _ _ _ | .delete _ _ | .move _ _ _ _ _ => none

def storageRoot : StorageType → Option Text
  | .internal => some msRootPathInternal
  | .external => some msRootPathExternal
  | .invalidFilePath => none

/-- The path lies below the root of the storage. -/
def InStorage (place : Text × StorageType) : Prop :=
  ∃ root ∈ storageRoot place.2, root ++ ['/'] <+: place.1

instance : DecidablePred InStorage := fun place =>
  inferInstanceAs (Decidable (∃ root ∈ storageRoot place.2, root ++ ['/'] <+: place.1))

/-- Whatever is asked of a plug-in is about its storage. -/
def Confined (trace : Trace) : Prop := ∀ call ∈ trace, ∀ place ∈ call.2.place, InStorage place

instance : DecidablePred Confined := fun trace =>
  inferInstanceAs (Decidable (∀ call ∈ trace, ∀ place ∈ call.2.place, InStorage place))

/-- The path lies below the root of one of the storages. -/
def BelowRoot (path : Text) : Prop :=
  msRootPathInternal ++ ['/'] <+: path ∨ msRootPathExternal ++ ['/'] <+: path

/-- The request gets as far as such a call. -/
def Asks (env : Env) : ServiceCall → Prop
  | .register _ | .delete _ => env.plugIns ≠ []
  | .store path | .refresh path =>
      ∃ mimetype, env.outside.mime path = some mimetype ∧
        ∃ p ∈ env.plugIns, p.checkItem path mimetype = 0
  | .move _ _ => False

/-- The file of a request. -/
def file : ServiceCall → Text
  | .register path | .store path | .delete path | .refresh path | .move _ path => path

section Calls

variable {env : Env} {path : Text}

theorem inStorage_iff : InStorage (path, msGetStorageTypeByFull path) ↔ BelowRoot path := by
  constructor
  · rintro ⟨root, hroot, hbelow⟩
    rw [msGetStorageTypeByFull] at hroot
    split at hroot
    next => exact .inl (Option.some.inj hroot ▸ hbelow)
    next =>
      split at hroot
      next => exact .inr (Option.some.inj hroot ▸ hbelow)
      next => cases hroot
  · rintro (hbelow | hbelow)
    · have hinternal : msGetStorageTypeByFull path = .internal :=
        if_pos ((List.prefix_append _ _).trans hbelow)
      rw [hinternal]
      exact ⟨_, rfl, hbelow⟩
    · rw [msGetStorageTypeByFull_of_external ((List.prefix_append _ _).trans hbelow)]
      exact ⟨_, rfl, hbelow⟩

/-- The trace names no other place than this path and its storage. -/
def Names (path : Text) (trace : Trace) : Prop :=
  ∀ call ∈ trace, ∀ place ∈ call.2.place, place = (path, msGetStorageTypeByFull path)

/-- One of the calls names a place. -/
def Placed (trace : Trace) : Prop := ∃ call ∈ trace, ∃ place, call.2.place = some place

theorem Names.confined_iff {trace : Trace} (h : Names path trace) :
    Confined trace ↔ (Placed trace → BelowRoot path) := by
  constructor
  · rintro hconfined ⟨call, hcall, place, hplace⟩
    have hin := hconfined call hcall place hplace
    rw [h call hcall place hplace] at hin
    exact inStorage_iff.mp hin
  · intro hbelow call hcall place hplace
    rw [h call hcall place hplace]
    exact inStorage_iff.mpr (hbelow ⟨call, hcall, place, hplace⟩)

theorem Names.append {trace trace' : Trace} (h : Names path trace) (h' : Names path trace') :
    Names path (trace ++ trace') := by
  intro call hcall
  cases List.mem_append.mp hcall with
  | inl hcall => exact h call hcall
  | inr hcall => exact h' call hcall

section Loops

variable {mimetype : Text} {visit : PlugIn → Visit}

theorem mem_itemLoop {libIndex : Nat} {res : Int} {ps : List PlugIn} {call : Nat × ItemCall}
    (h : call ∈ (itemLoop path mimetype visit libIndex res ps).2) :
    ∃ p ∈ ps, p.checkItem path mimetype = 0 ∧ call.2 ∈ (visit p).calls := by
  rw [itemLoop_snd] at h
  obtain ⟨⟨p, i⟩, hp, hcall⟩ := List.mem_flatMap.mp h
  obtain ⟨hmem, haccepts⟩ := List.mem_filter.mp hp
  obtain ⟨c, hc, rfl⟩ := List.mem_map.mp hcall
  exact ⟨p, List.fst_mem_of_mem_zipIdx hmem, of_decide_eq_true haccepts, hc⟩

theorem exists_mem_itemLoop {libIndex : Nat} {res : Int} {ps : List PlugIn} {p : PlugIn}
    (hp : p ∈ ps) (haccepts : p.checkItem path mimetype = 0) {call : ItemCall}
    (hcall : call ∈ (visit p).calls) :
    ∃ i, (i, call) ∈ (itemLoop path mimetype visit libIndex res ps).2 := by
  rw [← List.zipIdx_map_fst libIndex ps] at hp
  obtain ⟨⟨q, i⟩, hmem, rfl⟩ := List.mem_map.mp hp
  rw [itemLoop_snd]
  refine ⟨i, List.mem_flatMap.mpr ⟨(q, i), ?_, List.mem_map_of_mem hcall⟩⟩
  exact List.mem_filter.mpr ⟨hmem, decide_eq_true haccepts⟩

theorem names_itemLoop {libIndex : Nat} {res : Int} {ps : List PlugIn}
    (hvisit : ∀ p, ∀ call ∈ (visit p).calls, ∀ place ∈ call.place,
      place = (path, msGetStorageTypeByFull path)) :
    Names path (itemLoop path mimetype visit libIndex res ps).2 := by
  intro call hcall
  obtain ⟨p, -, -, hc⟩ := mem_itemLoop hcall
  exact hvisit p call.2 hc

end Loops

/-- A call of this kind names this path and its storage. -/
def NamesOnly (path : Text) (call : ItemCall) : Prop :=
  ∀ place ∈ call.place, place = (path, msGetStorageTypeByFull path)

theorem names_withMime {o : Outside} {ps : List PlugIn} {visit : Text → PlugIn → Visit}
    (hvisit : ∀ mimetype p, ∀ call ∈ (visit mimetype p).calls, NamesOnly path call) :
    Names path (withMime o ps path visit).2 := by
  rw [withMime]
  cases o.mime path with
  | none =>
      intro call hcall
      cases hcall
  | some mimetype => exact names_itemLoop (hvisit mimetype)

theorem placed_withMime_iff {o : Outside} {ps : List PlugIn} {visit : Text → PlugIn → Visit}
    (hvisit : ∀ mimetype p, ∃ call ∈ (visit mimetype p).calls, ∃ place, call.place = some place) :
    Placed (withMime o ps path visit).2 ↔
      ∃ mimetype, o.mime path = some mimetype ∧
        ∃ p ∈ ps, p.checkItem path mimetype = 0 := by
  rw [withMime]
  cases o.mime path with
  | none => simp [Placed]
  | some mimetype =>
      constructor
      · rintro ⟨call, hcall, -⟩
        obtain ⟨p, hp, haccepts, -⟩ := mem_itemLoop hcall
        exact ⟨mimetype, rfl, p, hp, haccepts⟩
      · rintro ⟨_, hmime, p, hp, haccepts⟩
        obtain rfl := Option.some.inj hmime
        obtain ⟨call, hcall, hplace⟩ := hvisit mimetype p
        obtain ⟨i, hmem⟩ := exists_mem_itemLoop hp haccepts hcall
        exact ⟨_, hmem, hplace⟩

theorem namesOnly_exist (path : Text) :
    NamesOnly path (.exist path (msGetStorageTypeByFull path)) :=
  fun _ h => (Option.some.inj h).symm

theorem names_existLoop (libIndex : Nat) (ps : List PlugIn) :
    Names path (existLoop path (msGetStorageTypeByFull path) libIndex ps).2 := by
  induction ps generalizing libIndex with
  | nil => exact nofun
  | cons p ps ih =>
      rw [existLoop]
      simp only
      split
      · exact List.forall_mem_singleton.mpr (namesOnly_exist path)
      · exact List.forall_mem_cons.mpr ⟨namesOnly_exist path, ih _⟩

theorem names_deleteLoop (libIndex : Nat) (res : Int) (ps : List PlugIn) :
    Names path (deleteLoop path (msGetStorageTypeByFull path) libIndex res ps).2 := by
  have hdelete : NamesOnly path (.delete path (msGetStorageTypeByFull path)) := nofun
  induction ps generalizing libIndex res with
  | nil => exact nofun
  | cons p ps ih =>
      rw [deleteLoop]
      simp only
      split
      · refine List.forall_mem_cons.mpr ⟨namesOnly_exist path, ?_⟩
        exact List.forall_mem_cons.mpr ⟨hdelete, ih _ _⟩
      · exact List.forall_mem_cons.mpr ⟨namesOnly_exist path, ih _ _⟩

/-- A registration begins with the existence check. -/
theorem msRegisterFile_snd (env : Env) (path : Text) :
    ∃ rest, (msRegisterFile env path).2 = (msCheckExist env path).2 ++ rest ∧ Names path rest := by
  have hinserted : Names path (msInsertItem env.outside env.plugIns path).2 := by
    refine names_withMime fun mimetype p => List.forall_mem_singleton.mpr ?_
    exact fun _ h => (Option.some.inj h).symm
  have hrechecked : Names path (withMime env.outsideAgain env.plugInsAgain path fun _ =>
      recheckVisit path (msGetStorageTypeByFull path)).2 :=
    names_withMime fun mimetype p => List.forall_mem_singleton.mpr (namesOnly_exist path)
  rw [msRegisterFile]
  simp only
  split
  · exact ⟨[], (List.append_nil _).symm, nofun⟩
  · split
    · exact ⟨[], (List.append_nil _).symm, nofun⟩
    · split
      · exact ⟨_, List.append_assoc _ _ _, hinserted.append hrechecked⟩
      · exact ⟨_, rfl, hinserted⟩

/-- The registration of a DRM file is no call of a plug-in. -/
theorem plugInCalls_store (env : Env) (path : Text) :
    plugInCalls env (.store path) =
      (withMime env.outside env.plugIns path fun mimetype =>
        visitOnce (.insertBatch path (msGetStorageTypeByFull path) mimetype)
          msErrDbInsertRecordFail).2 := by
  rw [plugInCalls, msInsertItemBatch]
  split <;> rfl

theorem plugInCalls_names (env : Env) (call : ServiceCall) :
    Names (file call) (plugInCalls env call) := by
  cases call with
  | register path =>
      obtain ⟨rest, heq, hrest⟩ := msRegisterFile_snd env path
      rw [plugInCalls, heq]
      exact (names_existLoop 0 env.plugIns).append hrest
  | store path =>
      rw [plugInCalls_store]
      refine names_withMime fun mimetype p => List.forall_mem_singleton.mpr ?_
      exact fun _ h => (Option.some.inj h).symm
  | delete path => exact names_deleteLoop 0 msErrNone env.plugIns
  | move srcPath dstPath =>
      exact names_withMime fun mimetype p => List.forall_mem_singleton.mpr nofun
  | refresh path =>
      refine names_withMime fun mimetype p => List.forall_mem_singleton.mpr ?_
      exact fun _ h => (Option.some.inj h).symm

theorem placed_existLoop (path : Text) (p : PlugIn) (ps : List PlugIn) :
    Placed (existLoop path (msGetStorageTypeByFull path) 0 (p :: ps)).2 := by
  refine ⟨(0, .exist path (msGetStorageTypeByFull path)), ?_, _, rfl⟩
  rw [existLoop]
  simp only
  split
  · exact List.mem_singleton_self _
  · exact List.mem_cons_self

theorem placed_deleteLoop {res : Int} {p : PlugIn} {ps : List PlugIn} :
    Placed (deleteLoop path (msGetStorageTypeByFull path) 0 res (p :: ps)).2 := by
  refine ⟨(0, .exist path (msGetStorageTypeByFull path)), ?_, _, rfl⟩
  rw [deleteLoop]
  simp only
  split <;> exact List.mem_cons_self

theorem placed_visitOnce {call : ItemCall} {place : Text × StorageType} {err : Int} (p : PlugIn)
    (hplace : call.place = some place) :
    ∃ c ∈ (visitOnce call err p).calls, ∃ place, c.place = some place :=
  ⟨call, List.mem_singleton_self _, place, hplace⟩

theorem plugInCalls_placed_iff (env : Env) (call : ServiceCall) :
    Placed (plugInCalls env call) ↔ Asks env call := by
  have hnone : ¬ Placed [] := fun ⟨_, h, _⟩ => nomatch h
  cases call with
  | register path =>
      rw [plugInCalls, Asks]
      cases hplugIns : env.plugIns with
      | nil =>
          refine iff_of_false ?_ (fun h => h rfl)
          rw [msRegisterFile, msCheckExist, hplugIns]
          exact hnone
      | cons p ps =>
          refine iff_of_true ?_ (List.cons_ne_nil p ps)
          obtain ⟨rest, heq, -⟩ := msRegisterFile_snd env path
          obtain ⟨c, hc, hplace⟩ := placed_existLoop path p ps
          refine ⟨c, ?_, hplace⟩
          rw [heq, msCheckExist, hplugIns]
          exact List.mem_append_left _ hc
  | store path =>
      rw [plugInCalls_store]
      exact placed_withMime_iff fun mimetype p => placed_visitOnce p rfl
  | delete path =>
      rw [plugInCalls, Asks, msDeleteItem]
      cases env.plugIns with
      | nil => exact iff_of_false hnone (fun h => h rfl)
      | cons p ps => exact iff_of_true placed_deleteLoop (List.cons_ne_nil p ps)
  | move srcPath dstPath =>
      refine iff_of_false ?_ id
      rintro ⟨c, hc, place, hplace⟩
      rw [plugInCalls, msMoveItem, withMime] at hc
      split at hc
      next => cases hc
      next =>
        obtain ⟨p, -, -, hmem⟩ := mem_itemLoop hc
        rw [List.mem_singleton.mp hmem] at hplace
        cases hplace
  | refresh path => exact placed_withMime_iff fun mimetype p => placed_visitOnce p rfl

/-- The calls of a request are confined if it makes none that names a place, or its file lies
below a root. -/
theorem confined_plugInCalls_iff (env : Env) (call : ServiceCall) :
    Confined (plugInCalls env call) ↔ (Asks env call → BelowRoot (file call)) := by
  rw [(plugInCalls_names env call).confined_iff, plugInCalls_placed_iff]

end Calls

/-! ### Runs -/

/-- The string in `recv_buff`, which is zeroed before. A datagram that fills it leaves no room
for a NUL, and the string goes on with what stands behind the buffer. -/
def recvString (datagram beyond : Text) : Text :=
  let buff := datagram.take msFilePathLenMax
  if Bytes.nul ∈ buff ∨ buff.length < msFilePathLenMax then
    buff.takeWhile (· ≠ Bytes.nul)
  else buff ++ beyond

/-- The directory is that of a storage or lies below it. -/
def OfStorage (dirPath : Text) : Prop :=
  Under msRootPathInternal dirPath ∨ Under msRootPathExternal dirPath

instance : DecidablePred OfStorage := fun dirPath =>
  inferInstanceAs (Decidable (Under msRootPathInternal dirPath ∨ Under msRootPathExternal dirPath))

inductive StorageLabel where
  /-- `ms_read_socket`, with what `recvfrom` has received, if it has. -/
  | datagram (received : Option Text) (beyond : Text) (env : Env)
  /-- One event, with what each of its requests meets. -/
  | event (w : World) (e : Event) (env : Nat → Env)
  /-- `ms_inoti_add_watch` in `main` and in the walks over a storage. -/
  | addWatch (w : World) (path : Text)
  /-- The removal of watches by another thread. -/
  | removeWatches (keep : Watch → Bool)

def storageStep (s : Inoti) : StorageLabel → Option Inoti
  | .datagram _ _ _ => some s
  | .event w e _ => some (s.event w e)
  | .addWatch w path =>
      if path = msDbUpdateNotiPath ∨ OfStorage path then some (s.addWatch w path) else none
  | .removeWatches keep => some { s with watches := s.watches.filter keep }

/-- The calls into the plug-ins during a step. -/
def stepCalls (s : Inoti) : StorageLabel → Trace
  | .datagram received beyond env =>
      received.elim [] fun data => (msRegisterFile env (recvString data beyond)).2
  | .event w e env => (s.serviceCalls w e).zipIdx.flatMap fun x => plugInCalls (env x.2) x.1
  | .addWatch _ _ | .removeWatches _ => []

/-- Every call of the step is about its storage. -/
def StepConfined (s : Inoti) (l : StorageLabel) : Prop := Confined (stepCalls s l)

instance (s : Inoti) (l : StorageLabel) : Decidable (StepConfined s l) :=
  inferInstanceAs (Decidable (Confined (stepCalls s l)))

/-- A datagram names a file below a root, and an event that leads to a call is not taken for
one of the directory that tells the end of a file operation, or of one below it. -/
def FromStorage (s : Inoti) : StorageLabel → Prop
  | .datagram received beyond env =>
      ∀ data ∈ received, env.plugIns ≠ [] → BelowRoot (recvString data beyond)
  | .event w e env =>
      (∃ x ∈ (s.serviceCalls w e).zipIdx, Asks (env x.2) x.1) →
        ∀ node ∈ Inoti.findNode e.wd s.watches, ¬ Under msDbUpdateNotiPath node.name
  | .addWatch _ _ | .removeWatches _ => True

/-- The directory tells the end of a file operation or is one of a storage. -/
def Watchable (dirPath : Text) : Prop := Under msDbUpdateNotiPath dirPath ∨ OfStorage dirPath

def WatchesPlaced (s : Inoti) : Prop := ∀ node ∈ s.watches, Watchable node.name

section Runs

variable {w : World} {s t : Inoti} {e : Event} {name path : Text}

/-- A property of paths that goes down from a directory. -/
def GoesDown (P : Text → Prop) : Prop :=
  ∀ dir name path, P dir → msStrappend dir name = some path → P path

theorem goesDown_under {root : Text} (hroot : root.length < msFilePathLenMax - 2) :
    GoesDown (Under root) :=
  fun _ _ _ hdir h => .inr (below_of_msStrappend hdir hroot h)

theorem GoesDown.or {P Q : Text → Prop} (hP : GoesDown P) (hQ : GoesDown Q) :
    GoesDown fun path => P path ∨ Q path :=
  fun _ _ _ hdir h => hdir.imp (fun hdir => hP _ _ _ hdir h) fun hdir => hQ _ _ _ hdir h

theorem goesDown_ofStorage : GoesDown OfStorage :=
  (goesDown_under (by decide)).or (goesDown_under (by decide))

theorem goesDown_watchable : GoesDown Watchable :=
  (goesDown_under (by decide)).or goesDown_ofStorage

/-! ### The watches stay where they are -/

theorem WatchesPlaced.of_sameTable (h : WatchesPlaced s) (same : SameTable s t) :
    WatchesPlaced t := by
  rw [WatchesPlaced, same.1]
  exact h

theorem WatchesPlaced.addWatch (h : WatchesPlaced s) (hpath : Watchable path) :
    WatchesPlaced (s.addWatch w path) := by
  rw [Inoti.addWatch]
  split
  · exact h
  · simp only
    split
    · exact List.forall_mem_append.mpr ⟨h, List.forall_mem_singleton.mpr hpath⟩
    · exact h

theorem name_of_mem_renameFirst {pathFrom pathTo : Text} {watches : List Watch} {node : Watch}
    (h : node ∈ Inoti.renameFirst pathFrom pathTo watches) :
    node ∈ watches ∨ node.name = pathTo := by
  induction watches with
  | nil => cases h
  | cons head rest ih =>
      rw [Inoti.renameFirst] at h
      split at h
      · cases List.mem_cons.mp h with
        | inl hnode => exact .inr (hnode ▸ rfl)
        | inr hnode => exact .inl (List.mem_cons_of_mem _ hnode)
      · cases List.mem_cons.mp h with
        | inl hnode => exact .inl (hnode ▸ List.mem_cons_self)
        | inr hnode => exact (ih hnode).imp_left (List.mem_cons_of_mem _)

theorem WatchesPlaced.modifyWatch {pathFrom pathTo : Text} (h : WatchesPlaced s)
    (hpath : Watchable pathTo) : WatchesPlaced (s.modifyWatch w pathFrom pathTo) := by
  rw [Inoti.modifyWatch]
  split
  next => exact h.addWatch hpath
  next head rest hwatches =>
    split
    · exact h.addWatch hpath
    · split
      · rw [WatchesPlaced, hwatches] at h
        refine List.forall_mem_cons.mpr ⟨h head List.mem_cons_self, fun node hnode => ?_⟩
        cases name_of_mem_renameFirst hnode with
        | inl hnode => exact h node (List.mem_cons_of_mem _ hnode)
        | inr hname => exact hname ▸ hpath
      · exact h.addWatch hpath

theorem watchesPlaced_foldl {β : Type} {f : Inoti → β → Inoti}
    (hf : ∀ s b, WatchesPlaced s → WatchesPlaced (f s b)) (bs : List β) (h : WatchesPlaced s) :
    WatchesPlaced (bs.foldl f s) := by
  induction bs generalizing s with
  | nil => exact h
  | cons b bs ih => exact ih (hf s b h)

theorem WatchesPlaced.directoryScan (depth : Nat) {dirPath : Text} (h : WatchesPlaced s)
    (hdir : Watchable dirPath) :
    WatchesPlaced (Inoti.directoryScanAndRegisterFile w depth s dirPath) := by
  induction depth generalizing s dirPath with
  | zero => exact h
  | succ depth ih =>
      rw [Inoti.directoryScanAndRegisterFile]
      split
      · exact h
      · refine watchesPlaced_foldl (fun s ent hs => ?_) _ (h.addWatch hdir)
        split
        · exact hs
        · split
          next => exact hs
          next path hpath =>
            split
            · exact ih hs (goesDown_watchable _ _ _ hdir hpath)
            · exact hs.of_sameTable sameTable_registerFile

theorem WatchesPlaced.scanRenamedFolder (depth : Nat) {orgPath chgPath : Text}
    (h : WatchesPlaced s) (hchg : Watchable chgPath) :
    WatchesPlaced (Inoti.scanRenamedFolder w depth s orgPath chgPath) := by
  induction depth generalizing s orgPath chgPath with
  | zero => exact h
  | succ depth ih =>
      rw [Inoti.scanRenamedFolder]
      split
      · exact h
      · refine watchesPlaced_foldl (fun s ent hs => ?_) _ (h.modifyWatch hchg)
        split
        · exact hs
        · split
          next pathFrom pathTo _ hpathTo =>
            have hdir : WatchesPlaced
                (if ent.dType = dtDir then
                  Inoti.scanRenamedFolder w depth s pathFrom pathTo else s) := by
              split
              · exact ih hs (goesDown_watchable _ _ _ hchg hpathTo)
              · exact hs
            simp only
            split
            · exact hdir.of_sameTable sameTable_moveFile
            · exact hdir
          next => exact hs

/-- An event that gets to the branches names a file of a watched directory. -/
theorem node_of_received (h : s.received e = some (name, path)) :
    ∃ node, Inoti.findNode e.wd s.watches = some node ∧
      msStrappend node.name name = some path := by
  rw [Inoti.received] at h
  split at h
  · cases h
  · split at h
    · obtain ⟨copy, -, h⟩ := Option.bind_eq_some_iff.mp h
      obtain ⟨fullPath, hpath, heq⟩ := Option.map_eq_some_iff.mp h
      obtain ⟨rfl, rfl⟩ := Prod.mk.inj heq
      exact Option.bind_eq_some_iff.mp hpath
    · cases h

theorem watchable_of_received (h : WatchesPlaced s) (hreceived : s.received e = some (name, path)) :
    Watchable path := by
  obtain ⟨node, hnode, hpath⟩ := node_of_received hreceived
  exact goesDown_watchable _ _ _ (h node (mem_of_findNode hnode)) hpath

theorem WatchesPlaced.handle (h : WatchesPlaced s) (hreceived : s.received e = some (name, path)) :
    WatchesPlaced (s.handle w e name path) := by
  have hpath := watchable_of_received h hreceived
  rw [Inoti.handle]
  split
  next => exact h
  next hbranch =>
    split
    next => exact h
    next fullPathFrom chgPath hcall =>
      rw [Inoti.renameCall, hreceived, hbranch] at hcall
      obtain ⟨pathFrom, -, heq⟩ := Option.map_eq_some_iff.mp hcall
      obtain ⟨-, rfl⟩ := Prod.mk.inj heq
      exact WatchesPlaced.scanRenamedFolder _ h hpath
  next => exact WatchesPlaced.directoryScan _ h hpath
  next => exact fun node hnode => h node (List.mem_of_mem_eraseP hnode)
  next => exact h
  next => exact h
  next => exact h.of_sameTable sameTable_registerFile
  next => exact h
  next =>
    by_cases hends : s.endsCreation e name
    · rw [closeWrite_of_ends hends]
      exact WatchesPlaced.of_sameTable (s := s) h sameTable_registerFile
    · rw [closeWrite_of_not_ends hends]
      split <;> exact h
  next => exact h

theorem WatchesPlaced.event (h : WatchesPlaced s) (w : World) (e : Event) :
    WatchesPlaced (s.event w e) := by
  cases hreaches : s.reaches w e with
  | true =>
      obtain ⟨name, path, hreceived, hevent⟩ := event_of_reaches hreaches
      exact hevent ▸ h.handle hreceived
  | false =>
      rcases event_of_not_reaches hreaches with hevent | hevent
      · rw [hevent]
        exact h
      · rw [hevent]
        intro node hnode
        exact h node (List.mem_of_mem_eraseP (List.mem_of_mem_filter hnode))

theorem storageStep_watchesPlaced {l : StorageLabel} (h : WatchesPlaced s)
    (hstep : storageStep s l = some t) : WatchesPlaced t := by
  cases l with
  | datagram received beyond env => exact Option.some.inj hstep ▸ h
  | event w e env =>
      rw [← Option.some.inj hstep]
      exact h.event w e
  | addWatch w path =>
      rw [storageStep] at hstep
      split at hstep
      next hpath =>
        refine Option.some.inj hstep ▸ h.addWatch ?_
        cases hpath with
        | inl hpath => exact .inl (.inl hpath)
        | inr hpath => exact .inr hpath
      next => cases hstep
  | removeWatches keep =>
      obtain rfl := Option.some.inj hstep
      exact fun node hnode => h node (List.mem_of_mem_filter hnode)

/-! ### Where the files of an event lie -/

/-- The path is built below a directory with the property. -/
def BuiltBelow (P : Text → Prop) (path : Text) : Prop :=
  ∃ dir name, P dir ∧ msStrappend dir name = some path

theorem builtBelow_of_registerCalls {P : Text → Prop} (hP : GoesDown P) {depth : Nat}
    {dirPath : Text} (hdir : P dirPath) {call : ServiceCall}
    (h : call ∈ registerCalls w depth dirPath) : BuiltBelow P (file call) := by
  induction depth generalizing dirPath with
  | zero => cases h
  | succ depth ih =>
      obtain ⟨ent, path, -, hpath, hcall⟩ := mem_registerCalls_succ.mp h
      split at hcall
      · exact ih (hP _ _ _ hdir hpath) hcall
      · exact hcall ▸ ⟨dirPath, ent.name, hdir, hpath⟩

theorem mem_moveCalls {depth : Nat} {orgPath chgPath : Text} {call : ServiceCall}
    (h : call ∈ moveCalls w depth orgPath chgPath) : ∃ src dst, call = .move src dst := by
  induction depth generalizing orgPath chgPath with
  | zero => cases h
  | succ depth ih =>
      obtain ⟨ent, src, dst, -, -, -, ⟨-, hcall⟩ | ⟨-, -, -, hcall⟩⟩ := mem_moveCalls_succ.mp h
      · exact ih hcall
      · exact ⟨src, dst, hcall⟩

/-- The file of a request that may come to a call lies below whatever the watch of the
event lies below. -/
theorem builtBelow_of_serviceCalls {P : Text → Prop} (hP : GoesDown P) {node : Watch}
    (hnode : Inoti.findNode e.wd s.watches = some node) (hdir : P node.name)
    {call : ServiceCall} (hcall : call ∈ s.serviceCalls w e) {env : Env} (hasks : Asks env call) :
    BuiltBelow P (file call) := by
  rw [Inoti.serviceCalls] at hcall
  split at hcall
  next =>
    split at hcall
    next => cases hcall
    next name path hreceived =>
      obtain ⟨node', hnode', hpath⟩ := node_of_received hreceived
      obtain rfl := Option.some.inj (hnode.symm.trans hnode')
      have hfile : BuiltBelow P path := ⟨node.name, name, hdir, hpath⟩
      split at hcall
      next =>
        split at hcall
        next => cases hcall
        next =>
          obtain ⟨src, dst, rfl⟩ := mem_moveCalls hcall
          exact hasks.elim
      next => exact builtBelow_of_registerCalls hP (hP _ _ _ hdir hpath) hcall
      next => exact List.mem_singleton.mp hcall ▸ hfile
      next => exact List.mem_singleton.mp hcall ▸ hfile
      next => exact List.mem_singleton.mp hcall ▸ hfile
      next =>
        split at hcall
        · exact List.mem_singleton.mp hcall ▸ hfile
        · split at hcall
          · cases hcall
          · exact List.mem_singleton.mp hcall ▸ hfile
      all_goals cases hcall
  next => cases hcall

theorem exists_node_of_serviceCalls {call : ServiceCall} (hcall : call ∈ s.serviceCalls w e) :
    ∃ node, Inoti.findNode e.wd s.watches = some node := by
  rw [Inoti.serviceCalls] at hcall
  split at hcall
  next =>
    split at hcall
    next => cases hcall
    next name path hreceived =>
      obtain ⟨node, hnode, -⟩ := node_of_received hreceived
      exact ⟨node, hnode⟩
  next => cases hcall

theorem belowRoot_of_ofStorage (h : BuiltBelow OfStorage path) : BelowRoot path := by
  obtain ⟨dir, name, hdir | hdir, hpath⟩ := h
  · exact .inl (below_of_msStrappend hdir (by decide) hpath)
  · exact .inr (below_of_msStrappend hdir (by decide) hpath)

/-- The directory that tells the end of a file operation is in no storage. -/
theorem not_belowRoot_of_noti (h : BuiltBelow (Under msDbUpdateNotiPath) path) :
    ¬ BelowRoot path := by
  obtain ⟨dir, name, hdir, hpath⟩ := h
  have hnoti : msDbUpdateNotiPath ++ ['/'] <+: path :=
    below_of_msStrappend hdir (by decide) hpath
  have hclash : ∀ root : Text, root ++ ['/'] <+: path →
      ¬ (msDbUpdateNotiPath <+: root ++ ['/'] ∨ root ++ ['/'] <+: msDbUpdateNotiPath) → False := by
    intro root hroot hapart
    exact hapart (List.prefix_or_prefix_of_prefix ((List.prefix_append _ _).trans hnoti) hroot)
  rintro (hroot | hroot)
  · exact hclash _ hroot (by decide)
  · exact hclash _ hroot (by decide)

/-- Under the invariant every request of an event that comes to a call is confined exactly
if the watch of the event is one of a storage. -/
theorem confined_event_iff (h : WatchesPlaced s) {call : ServiceCall}
    (hcall : call ∈ s.serviceCalls w e) {env : Env} (hasks : Asks env call) :
    BelowRoot (file call) ↔
      ∀ node ∈ Inoti.findNode e.wd s.watches, ¬ Under msDbUpdateNotiPath node.name := by
  obtain ⟨node, hnode⟩ := exists_node_of_serviceCalls hcall
  constructor
  · intro hbelow node' hnode' hnoti
    refine not_belowRoot_of_noti ?_ hbelow
    exact builtBelow_of_serviceCalls (goesDown_under (by decide)) hnode' hnoti hcall hasks
  · intro hout
    refine belowRoot_of_ofStorage ?_
    have hstorage : OfStorage node.name :=
      (h node (mem_of_findNode hnode)).resolve_left (hout node hnode)
    exact builtBelow_of_serviceCalls goesDown_ofStorage hnode hstorage hcall hasks

theorem stepConfined_iff (h : WatchesPlaced s) (l : StorageLabel) :
    StepConfined s l ↔ FromStorage s l := by
  cases l with
  | datagram received beyond env =>
      cases received with
      | none => exact iff_of_true nofun nofun
      | some data =>
          refine (confined_plugInCalls_iff env (.register (recvString data beyond))).trans ?_
          exact ⟨fun h data' hdata => Option.some.inj hdata ▸ h, fun h => h data rfl⟩
  | event w e env =>
      rw [StepConfined, stepCalls, FromStorage]
      have hflat : ∀ trace : List (ServiceCall × Nat),
          Confined (trace.flatMap fun x => plugInCalls (env x.2) x.1) ↔
            ∀ x ∈ trace, Confined (plugInCalls (env x.2) x.1) :=
        fun trace => List.forall_mem_flatMap
      simp only [hflat, confined_plugInCalls_iff]
      constructor
      · rintro hconfined ⟨x, hx, hasks⟩
        have hcall := List.fst_mem_of_mem_zipIdx hx
        exact (confined_event_iff h hcall hasks).mp (hconfined x hx hasks)
      · intro hout x hx hasks
        have hcall := List.fst_mem_of_mem_zipIdx hx
        exact (confined_event_iff h hcall hasks).mpr (hout ⟨x, hx, hasks⟩)
  | addWatch w path => exact iff_of_true nofun trivial
  | removeWatches keep => exact iff_of_true nofun trivial

end Runs

/-- Through every run, what comes to the plug-ins is media under a storage root exactly as
long as the datagrams and the events are about files there. -/
theorem media_confined_iff (labels : List StorageLabel) :
    Run.EachStep storageStep StepConfined {} labels ↔
      Run.EachStep storageStep FromStorage {} labels :=
  Run.eachStep_congr_of_step (I := WatchesPlaced)
    (fun _ _ _ h hstep => storageStep_watchesPlaced h hstep)
    (fun _ l h => stepConfined_iff h l) nofun

/-- A plug-in that takes every file, and knows none. -/
def newPlugIn : PlugIn where
  checkItem := fun _ _ => 0
  answer := fun call => if call.asks then -1 else 0

/-- A client registers a file of a directory whose name only begins like that of the storage,
or a file is moved into the directory that tells the end of a file operation. -/
theorem outside_inserted :
    let env : Env := { plugIns := [newPlugIn], outside := { mime := fun _ => some [] } }
    let world : World := { closedWorld with inotifyAddWatch := fun _ => 1 }
    let movedTo : Event :=
      { wd := 1, mask := inMovedTo, cookie := 0, len := 16, name := "a.mp3".toList
        terminated := .inl (by decide) }
    ¬ Run.EachStep storageStep StepConfined {}
        [.datagram (some "/opt/media.old/a.mp3".toList) [] env] ∧
      ¬ Run.EachStep storageStep StepConfined {}
        [.addWatch world msDbUpdateNotiPath, .event world movedTo fun _ => env] := by
  decide

end MediaServer.DbSvc
