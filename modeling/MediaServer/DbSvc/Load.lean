import MediaServer.Foundation.Bytes
import MediaServer.Types

/-!
# The table of the plug-ins

`ms_load_functions` reads the names of the libraries from a file, opens them, and fills
`func_array` with what they export under the names of the entries. `lib_num` is set as soon
as the names are known, so a library that does not open leaves the loops of the other
functions with indices and without a table. The answers of `dlsym` are stored as they are.

The linker is given by what it answers for each index.
-/

namespace MediaServer.DbSvc

/-- `enum func_list`. -/
inductive FuncList where
  | check
  | connect
  | disconnect
  | exist
  | insertBegin
  | insertEnd
  | insertBatch
  | insert
  | moveBegin
  | moveEnd
  | move
  | setAllValidity
  | setValidityBegin
  | setValidityEnd
  | setValidity
  | delete
  | deleteAll
  | deleteInvalidItems
  | updateBegin
  | updateEnd
  | refreshItem
deriving DecidableEq, Repr

/-- `func_list`, in the order of the entries. -/
def funcList : List Text :=
  ["check_item", "connect", "disconnect", "check_item_exist", "insert_item_begin",
    "insert_item_end", "insert_item", "insert_item_immediately", "move_item_begin",
    "move_item_end", "move_item", "set_all_storage_items_validity", "set_item_validity_begin",
    "set_item_validity_end", "set_item_validity", "delete_item", "delete_all_items_in_storage",
    "delete_all_invalid_items_in_storage", "update_begin", "update_end",
    "refresh_item"].map String.toList

/-- The number of an entry. -/
def FuncList.index (entry : FuncList) : Nat := entry.ctorIdx

theorem FuncList.index_lt (entry : FuncList) : entry.index < funcList.length := by
  cases entry <;> decide

/-- The name under which a library exports an entry. -/
def FuncList.symbol (entry : FuncList) : Text := funcList.get ⟨entry.index, entry.index_lt⟩

/-- `EXT`. -/
def ext : Text := ".so".toList

/-- `_ms_token_data`: the buffer up to the end of the first `EXT` in it. -/
def msTokenData (buf : Text) : Option Text :=
  (buf.tails.findIdx? fun pos => ext.isPrefixOf pos).map fun pos => buf.take (pos + ext.length)

/-- The loop of `_ms_load_config`. -/
def loadConfigLoop : Text → List Text
  | [] => []
  | b :: bytes =>
      let buf := (Bytes.fgets 255 (b :: bytes)).1
      (msTokenData (buf.takeWhile (· ≠ Bytes.nul))).toList ++
        loadConfigLoop (Bytes.fgets 255 (b :: bytes)).2
termination_by content => content.length
decreasing_by exact Bytes.length_fgets_cons 254 b bytes

/-- `_ms_load_config`, with the content of the file if it opens. -/
def msLoadConfig (config : Option Text) : List Text := config.elim [] loadConfigLoop

/-- The globals. Of `func_handle` the slots that have been filled. -/
structure PlugInTable (Handle Fn : Type) where
  soArray : List Text := []
  libNum : Nat := 0
  funcHandle : List Handle := []
  funcArray : Option (List (List (Option Fn))) := none

section Loading

variable {Handle Fn : Type} (dlopen : Nat → Text → Option Handle)
variable (dlsym : Nat → Handle → Text → Option Fn)

/-- The loop over the names, and whether it gets through. -/
def openLoop : Nat → List Text → List Handle × Bool
  | _, [] => ([], true)
  | libIndex, name :: names =>
      match dlopen libIndex name with
      | none => ([], false)
      | some handle =>
          let (handles, ok) := openLoop (libIndex + 1) names
          (handle :: handles, ok)

/-- The loops that fill the table. -/
def addFunctions : Nat → List Handle → List (List (Option Fn))
  | _, [] => []
  | libIndex, handle :: handles =>
      funcList.map (dlsym libIndex handle) :: addFunctions (libIndex + 1) handles

def msLoadFunctions (config : Option Text) : Int × PlugInTable Handle Fn :=
  let soArray := msLoadConfig config
  if soArray = [] then (-1, { soArray })
  else
    let libNum := soArray.length
    let (funcHandle, ok) := openLoop dlopen 0 soArray
    if ok then
      (msErrNone,
        { soArray, libNum, funcHandle, funcArray := some (addFunctions dlsym 0 funcHandle) })
    else (-1, { soArray, libNum, funcHandle })

/-- Every library that the file names opens, and exports every entry. -/
def Complete (config : Option Text) : Prop :=
  ∀ i name, (msLoadConfig config)[i]? = some name →
    ∃ handle, dlopen i name = some handle ∧ ∀ entry : FuncList,
      (dlsym i handle entry.symbol).isSome

end Loading

/-- What a loop over the plug-ins does with one of them: which entries it calls, by the
answers of those before, and whether it goes on with the next. -/
inductive LoopBody where
  | call (entry : FuncList) (next : Int → LoopBody)
  | goOn
  | leave

section Loops

variable {Handle Fn σ : Type} (t : PlugInTable Handle Fn)

namespace PlugInTable

/-- `func_array[index][entry]`, if there is such a slot and it is not `NULL`. -/
def slot (index : Nat) (entry : FuncList) : Option Fn :=
  ((t.funcArray.bind (·[index]?)).bind (·[entry.index]?)).join

variable (invoke : Nat → Fn → σ → Int × σ)

/-- The calls into one plug-in; `none` when one goes through no function. -/
def runBody (libIndex : Nat) : LoopBody → σ → Option (Bool × σ)
  | .call entry next, s =>
      match t.slot libIndex entry with
      | none => none
      | some fn =>
          let (ret, s) := invoke libIndex fn s
          runBody libIndex (next ret) s
  | .goOn, s => some (true, s)
  | .leave, s => some (false, s)

/-- The loop with so many plug-ins left. -/
def runLoop (body : LoopBody) : Nat → Nat → σ → Option σ
  | 0, _, s => some s
  | n + 1, libIndex, s =>
      match t.runBody invoke libIndex body s with
      | none => none
      | some (true, s) => runLoop body n (libIndex + 1) s
      | some (false, s) => some s

/-- `for (lib_index = 0; lib_index < lib_num; lib_index++)`. -/
def loop (body : LoopBody) (s : σ) : Option σ := t.runLoop invoke body t.libNum 0 s

end PlugInTable

end Loops

/-- The functions with a loop over the plug-ins. -/
inductive PlugInLoop where
  | connectDb
  | disconnectDb
  | validateItem
  | invalidateAllItems
  /-- The second existence check of `ms_register_file`. -/
  | registerFile
  | insertItemBatch
  | insertItem
  | deleteItem
  | moveItem
  | deleteAllItems
  | deleteInvalidItems
  | refreshItem
  | checkExist
  | registerStart
  | registerEnd
  | validateStart
  | validateEnd
  | moveStart
  | moveEnd
deriving DecidableEq, Repr

/-- A call that ends the loop if it fails. -/
def untilFailure (entry : FuncList) : LoopBody :=
  .call entry fun ret => if ret ≠ 0 then .leave else .goOn

def always (entry : FuncList) : LoopBody := .call entry fun _ => .goOn

/-- `_ms_check_category` in front of the calls. -/
def ifTaken (body : LoopBody) : LoopBody :=
  .call .check fun ret => if ret ≠ 0 then .goOn else body

def PlugInLoop.body : PlugInLoop → LoopBody
  | .connectDb => untilFailure .connect
  | .disconnectDb => untilFailure .disconnect
  | .validateItem => ifTaken <|
      .call .exist fun ret => always (if ret ≠ 0 then .insertBatch else .setValidity)
  | .invalidateAllItems => always .setAllValidity
  | .registerFile => ifTaken (always .exist)
  | .insertItemBatch => ifTaken (always .insertBatch)
  | .insertItem => ifTaken (always .insert)
  | .deleteItem => .call .exist fun ret => if ret = 0 then always .delete else .goOn
  | .moveItem => ifTaken (always .move)
  | .deleteAllItems => untilFailure .deleteAll
  | .deleteInvalidItems => untilFailure .deleteInvalidItems
  | .refreshItem => ifTaken (always .refreshItem)
  | .checkExist => untilFailure .exist
  | .registerStart => always .insertBegin
  | .registerEnd => always .insertEnd
  | .validateStart => always .setValidityBegin
  | .validateEnd => always .setValidityEnd
  | .moveStart => always .moveBegin
  | .moveEnd => always .moveEnd

/-- There is a function behind every index and entry, and no loop calls through anything
else. -/
structure PlugInTable.Usable {Handle Fn : Type} (t : PlugInTable Handle Fn) : Prop where
  slots : ∀ index < t.libNum, ∀ entry, (t.slot index entry).isSome
  loops : ∀ (σ : Type) (invoke : Nat → Fn → σ → Int × σ) (l : PlugInLoop) (s : σ),
    (t.loop invoke l.body s).isSome

section Loops

variable {Handle Fn σ : Type} {t : PlugInTable Handle Fn} {invoke : Nat → Fn → σ → Int × σ}

theorem isSome_runBody {libIndex : Nat} (h : ∀ entry, (t.slot libIndex entry).isSome)
    (body : LoopBody) (s : σ) : (t.runBody invoke libIndex body s).isSome := by
  induction body generalizing s with
  | call entry next ih =>
      rw [PlugInTable.runBody]
      obtain ⟨fn, hfn⟩ := Option.isSome_iff_exists.mp (h entry)
      rw [hfn]
      exact ih _ _
  | goOn => rfl
  | leave => rfl

theorem isSome_runLoop (body : LoopBody) (n libIndex : Nat) (s : σ)
    (h : ∀ i, libIndex ≤ i → i < libIndex + n → ∀ entry, (t.slot i entry).isSome) :
    (t.runLoop invoke body n libIndex s).isSome := by
  induction n generalizing libIndex s with
  | zero => rfl
  | succ n ih =>
      rw [PlugInTable.runLoop]
      have hbody : (t.runBody invoke libIndex body s).isSome :=
        isSome_runBody (h libIndex (by omega) (by omega)) body s
      split
      next hnone =>
        rw [hnone] at hbody
        cases hbody
      next => exact ih _ _ fun i hle hlt => h i (by omega) (by omega)
      next => rfl

theorem PlugInTable.usable_iff :
    t.Usable ↔ ∀ index < t.libNum, ∀ entry, (t.slot index entry).isSome := by
  refine ⟨fun h => h.slots, fun h => ⟨h, fun σ invoke l s => ?_⟩⟩
  refine isSome_runLoop l.body t.libNum 0 s fun i _ hlt => h i ?_
  rwa [Nat.zero_add] at hlt

end Loops

section Loading

variable {Handle Fn : Type} {dlopen : Nat → Text → Option Handle}
variable {dlsym : Nat → Handle → Text → Option Fn}

theorem getElem?_openLoop {libIndex : Nat} {names : List Text}
    (h : (openLoop dlopen libIndex names).2 = true) (k : Nat) :
    (openLoop dlopen libIndex names).1[k]? = names[k]?.bind (dlopen (libIndex + k)) := by
  induction names generalizing libIndex k with
  | nil => rfl
  | cons name names ih =>
      rw [openLoop] at h ⊢
      cases hopen : dlopen libIndex name with
      | none =>
          rw [hopen] at h
          cases h
      | some handle =>
          rw [hopen] at h
          cases k with
          | zero => exact hopen.symm
          | succ k =>
              have htail := ih h k
              rw [Nat.add_assoc, Nat.add_comm 1] at htail
              exact htail

theorem exists_of_openLoop {libIndex : Nat} {names : List Text}
    (h : (openLoop dlopen libIndex names).2 = false) :
    ∃ k name, names[k]? = some name ∧ dlopen (libIndex + k) name = none := by
  induction names generalizing libIndex with
  | nil => cases h
  | cons name names ih =>
      rw [openLoop] at h
      cases hopen : dlopen libIndex name with
      | none => exact ⟨0, name, rfl, hopen⟩
      | some handle =>
          rw [hopen] at h
          obtain ⟨k, other, hother, hnone⟩ := ih h
          rw [Nat.add_assoc, Nat.add_comm 1] at hnone
          exact ⟨k + 1, other, hother, hnone⟩

theorem getElem?_addFunctions (libIndex : Nat) (handles : List Handle) (k : Nat) :
    (addFunctions dlsym libIndex handles)[k]? =
      handles[k]?.map fun handle => funcList.map (dlsym (libIndex + k) handle) := by
  induction handles generalizing libIndex k with
  | nil => rfl
  | cons handle handles ih =>
      rw [addFunctions]
      cases k with
      | zero => rfl
      | succ k =>
          have htail := ih (libIndex + 1) k
          rw [Nat.add_assoc, Nat.add_comm 1] at htail
          exact htail

/-- The names of the table are in the order of the enumeration. -/
theorem getElem?_funcList (entry : FuncList) : funcList[entry.index]? = some entry.symbol :=
  List.getElem?_eq_getElem entry.index_lt

/-- What the table holds when every library has opened. -/
theorem slot_of_opened {names : List Text} (h : (openLoop dlopen 0 names).2 = true) (index : Nat)
    (entry : FuncList) :
    PlugInTable.slot
        { soArray := names
          libNum := names.length
          funcHandle := (openLoop dlopen 0 names).1
          funcArray := some (addFunctions dlsym 0 (openLoop dlopen 0 names).1) } index entry =
      (names[index]?.bind (dlopen index)).bind fun handle => dlsym index handle entry.symbol := by
  rw [PlugInTable.slot, Option.bind_some, getElem?_addFunctions, getElem?_openLoop h,
    Nat.zero_add]
  cases names[index]?.bind (dlopen index) with
  | none => rfl
  | some handle =>
      rw [Option.map_some, Option.bind_some, List.getElem?_map, getElem?_funcList]
      rfl

/-- The table is usable exactly if every library opens and has all the entries, which is so
if the file names none. -/
theorem usable_iff_complete (dlopen : Nat → Text → Option Handle)
    (dlsym : Nat → Handle → Text → Option Fn) (config : Option Text) :
    (msLoadFunctions dlopen dlsym config).2.Usable ↔ Complete dlopen dlsym config := by
  rw [PlugInTable.usable_iff, Complete, msLoadFunctions]
  generalize msLoadConfig config = names
  simp only
  split
  next hnil =>
    rw [hnil]
    exact ⟨fun _ => nofun, fun _ => nofun⟩
  next hnonempty =>
    split
    next hopened =>
      simp only [slot_of_opened hopened]
      constructor
      · intro h i name hname
        have hslots := h i (List.getElem?_eq_some_iff.mp hname).1
        simp only [hname, Option.bind_some] at hslots
        obtain ⟨handle, hopen⟩ : ∃ handle, dlopen i name = some handle := by
          obtain ⟨fn, hfn⟩ := Option.isSome_iff_exists.mp (hslots .check)
          obtain ⟨handle, hopen, -⟩ := Option.bind_eq_some_iff.mp hfn
          exact ⟨handle, hopen⟩
        rw [hopen] at hslots
        exact ⟨handle, hopen, hslots⟩
      · intro h index hlt entry
        obtain ⟨handle, hopen, hexports⟩ := h index names[index] (List.getElem?_eq_getElem hlt)
        rw [List.getElem?_eq_getElem hlt, Option.bind_some, hopen]
        exact hexports entry
    next hfailed =>
      refine iff_of_false (fun h => ?_) (fun h => ?_)
      · have hslot := h 0 (List.length_pos_of_ne_nil hnonempty) .check
        cases hslot
      · obtain ⟨k, name, hname, hnone⟩ := exists_of_openLoop (Bool.eq_false_iff.mpr hfailed)
        obtain ⟨handle, hopen, -⟩ := h k name hname
        rw [Nat.zero_add, hopen] at hnone
        cases hnone

/-- The only library does not open, and the first loop of `main` finds no table. -/
theorem connects_without_table :
    ¬ (msLoadFunctions (fun _ _ => (none : Option Unit)) (fun _ _ _ => some ())
      (some "a.so".toList)).2.Usable := by
  have hnames : msLoadConfig (some "a.so".toList) = ["a.so".toList] := by
    show loadConfigLoop ('a' :: ".so".toList) = _
    have hrest : (Bytes.fgets 255 ('a' :: ".so".toList)).2 = [] := by decide
    rw [loadConfigLoop, hrest, loadConfigLoop]
    decide
  intro h
  have hconnect := h.loops Unit (fun _ _ s => (0, s)) .connectDb ()
  rw [msLoadFunctions, hnames] at hconnect
  exact absurd hconnect (by decide)

end Loading

end MediaServer.DbSvc
