import MediaServer.Foundation.Refinement
import MediaServer.Register.HandOver
import Mathlib.Data.List.InsertIdx

/-!
# The list under its two mutexes

`reg_list` is an array of pointers to strings of its own. `_ms_find_reg_list`,
`_ms_insert_reg_list` and `_ms_delete_reg_list` take `list_mutex` around their loops, but
read the length of the array before that. They are called with `queue_mutex` held.

Below, each access to the array, to a string, to `soc_queue` or to a mutex is a step of its
own. The critical sections of `ms_register_file` are then seen to act as the single steps of
`registerStep`, no string is touched after it has been freed, and none is lost.
-/

namespace MediaServer.Register

/-- Where the holder of `queue_mutex` is: the statement that is next, with the local
variables. -/
inductive Place where
  /-- `int len = reg_list->len` of `_ms_find_reg_list`. -/
  | findLen (path : Text)
  | findLock (path : Text) (len : Nat)
  /-- The head of the loop; behind its end `list_mutex` is unlocked. -/
  | findNext (path : Text) (len listIndex : Nat) (res : Bool)
  /-- `soc_queue = queue`. -/
  | setQueue (path : Text)
  /-- `strdup` of `_ms_insert_reg_list`. -/
  | insertDup (path : Text)
  | insertLock (path : Text) (regPath : Nat)
  | insertAppend (path : Text) (regPath : Nat)
  | insertUnlock (path : Text)
  /-- `int len = reg_list->len` of `_ms_delete_reg_list`. -/
  | deleteLen (path : Text) (res : Int)
  | deleteLock (path : Text) (res : Int) (len : Nat)
  | deleteNext (path : Text) (res : Int) (len listIndex : Nat)
  | deleteFree (path : Text) (res : Int) (listIndex : Nat)
  | deleteRemove (res : Int) (listIndex : Nat)
  | deleteUnlock (res : Int)
  /-- The test of `soc_queue` with its push. -/
  | push (res : Int)
  /-- `soc_queue = NULL`. -/
  | clear
  /-- `queue_mutex` is unlocked, and the thread goes on there. -/
  | unlock (pc : Pc)
deriving DecidableEq, Repr

/-- The state with the array in place of the list of paths; the `regList` of `shared` is not
used. A freed string is `none` in the heap. -/
structure RegList where
  shared : Shared
  regList : List Nat := []
  heap : Nat → Option Text := fun _ => none
  /-- The next address that `strdup` returns. -/
  next : Nat := 0
  queueMutex : Option (Tid × Place) := none
  listMutex : Bool := false
  /-- A string has been read or freed that is not there. -/
  fault : Bool := false

inductive RegListLabel where
  /-- A step of `ms_register_file` outside its critical sections. -/
  | act (t : Tid) (act : Act)
  /-- The thread gets `queue_mutex`. -/
  | lock (t : Tid)
  /-- The next statement of its holder. -/
  | advance
deriving DecidableEq, Repr

/-- The two steps that are critical sections. -/
def Act.critical : Act → Bool
  | .enter | .leave => true
  | _ => false

namespace RegList

def atPlace (s : RegList) (t : Tid) (place : Place) : RegList :=
  { s with queueMutex := some (t, place) }

/-- The string at an index of the array. -/
def deref (s : RegList) (listIndex : Nat) : Option Text := s.regList[listIndex]?.bind s.heap

/-- What follows the search. -/
def afterFind (t : Tid) (path : Text) (res : Bool) : Place :=
  if res then
    match t with
    | .socket => .setQueue path
    | .inotify => .unlock .idle
  else .insertDup path

def advance (s : RegList) (t : Tid) : Place → Option RegList
  | .findLen path => some (s.atPlace t (.findLock path s.regList.length))
  | .findLock path len =>
      if s.listMutex then none
      else some { s.atPlace t (.findNext path len 0 false) with listMutex := true }
  | .findNext path len listIndex res =>
      if listIndex < len then
        match s.deref listIndex with
        | none => some { s with fault := true }
        | some data =>
            some (s.atPlace t (.findNext path len (listIndex + 1) (data = path || res)))
      else some { s.atPlace t (afterFind t path res) with listMutex := false }
  | .setQueue path =>
      some
        { s.atPlace t (.unlock (.waiting path)) with
          shared := { s.shared with socQueue := true } }
  | .insertDup path =>
      some
        { s.atPlace t (.insertLock path s.next) with
          heap := Function.update s.heap s.next (some path)
          next := s.next + 1 }
  | .insertLock path regPath =>
      if s.listMutex then none
      else some { s.atPlace t (.insertAppend path regPath) with listMutex := true }
  | .insertAppend path regPath =>
      some { s.atPlace t (.insertUnlock path) with regList := s.regList ++ [regPath] }
  | .insertUnlock path =>
      some { s.atPlace t (.unlock (.inserting path 0 msErrNone)) with listMutex := false }
  | .deleteLen path res => some (s.atPlace t (.deleteLock path res s.regList.length))
  | .deleteLock path res len =>
      if s.listMutex then none
      else some { s.atPlace t (.deleteNext path res len 0) with listMutex := true }
  | .deleteNext path res len listIndex =>
      if listIndex < len then
        match s.deref listIndex with
        | none => some { s with fault := true }
        | some data =>
            some
              (s.atPlace t
                (if data = path then .deleteFree path res listIndex
                else .deleteNext path res len (listIndex + 1)))
      else some { s.atPlace t (.push res) with listMutex := false }
  | .deleteFree _ res listIndex =>
      match s.regList[listIndex]? with
      | none => some { s with fault := true }
      | some data =>
          match s.heap data with
          | none => some { s with fault := true }
          | some _ =>
              some
                { s.atPlace t (.deleteRemove res listIndex) with
                  heap := Function.update s.heap data none }
  | .deleteRemove res listIndex =>
      some { s.atPlace t (.deleteUnlock res) with regList := s.regList.eraseIdx listIndex }
  | .deleteUnlock res => some { s.atPlace t (.push res) with listMutex := false }
  | .push res =>
      some
        { s.atPlace t .clear with
          shared :=
            if s.shared.socQueue then
              { s.shared with retQueue := s.shared.retQueue ++ [pushed res] }
            else s.shared }
  | .clear =>
      some { s.atPlace t (.unlock .idle) with shared := { s.shared with socQueue := false } }
  | .unlock pc => some { s with queueMutex := none, shared := s.shared.goto t pc }

end RegList

def regListStep (s : RegList) : RegListLabel → Option RegList
  | .act t act =>
      if act.critical then none
      else (registerStep s.shared (t, act)).map fun shared => { s with shared }
  | .lock t =>
      match s.queueMutex, s.shared.pc t with
      | none, .entering path => some (s.atPlace t (.findLen path))
      | none, .leaving path res => some (s.atPlace t (.deleteLen path res))
      | _, _ => none
  | .advance =>
      match s.queueMutex with
      | some (t, place) => s.advance t place
      | none => none

/-! ### What the sections come to -/

namespace Place

/-- The array without the pointer to a string that is already freed. -/
def listed (regList : List Nat) : Place → List Nat
  | .deleteRemove _ listIndex => regList.eraseIdx listIndex
  | _ => regList

/-- The strings that there are. -/
def owned (regList : List Nat) : Place → List Nat
  | .insertLock _ regPath | .insertAppend _ regPath => regList ++ [regPath]
  | .deleteRemove _ listIndex => regList.eraseIdx listIndex
  | _ => regList

/-- Whether `list_mutex` is held. -/
def holdsList : Place → Bool
  | .findNext .. | .insertAppend .. | .insertUnlock _ | .deleteNext .. | .deleteFree ..
  | .deleteRemove .. | .deleteUnlock _ => true
  | _ => false

/-- What is left to do of a section that has already taken effect. -/
def finish (t : Tid) (s : Shared) : Place → Shared
  | .insertUnlock path => s.goto t (.inserting path 0 msErrNone)
  | .deleteRemove res _ | .deleteUnlock res | .push res =>
      { s.goto t .idle with
        retQueue := if s.socQueue then s.retQueue ++ [pushed res] else s.retQueue
        socQueue := false }
  | .clear => { s.goto t .idle with socQueue := false }
  | .unlock pc => s.goto t pc
  | _ => s

end Place

namespace RegList

def texts (heap : Nat → Option Text) (pointers : List Nat) : List Text :=
  pointers.map fun p => (heap p).getD []

/-- The strings that have to be there. -/
def owned (s : RegList) : List Nat :=
  match s.queueMutex with
  | none => s.regList
  | some (_, place) => place.owned s.regList

/-- The state with the paths that some pointers lead to. -/
def withList (s : RegList) (pointers : List Nat) : Shared :=
  { s.shared with regList := texts s.heap pointers }

/-- The state as the single steps see it. -/
def abs (s : RegList) : Shared :=
  match s.queueMutex with
  | none => s.withList s.regList
  | some (t, place) => place.finish t (s.withList (place.listed s.regList))

end RegList

/-! ### Every string is in its place -/

/-- Inside a section the program counter of `registerStep` waits. -/
def Pc.Waits (pc : Pc) : Prop := ∃ path, pc = .entering path ∨ ∃ res, pc = .leaving path res

namespace RegList

/-- What the holder knows at its place. -/
def Fits (s : RegList) (t : Tid) : Place → Prop
  | .findLen path => s.shared.pc t = .entering path
  | .findLock path len => s.shared.pc t = .entering path ∧ len = s.regList.length
  | .findNext path len listIndex res =>
      s.shared.pc t = .entering path ∧ len = s.regList.length ∧
        (res = true ↔ path ∈ texts s.heap (s.regList.take listIndex))
  | .setQueue path =>
      s.shared.pc t = .entering path ∧ t = .socket ∧ path ∈ texts s.heap s.regList
  | .insertDup path => s.shared.pc t = .entering path ∧ path ∉ texts s.heap s.regList
  | .insertLock path regPath | .insertAppend path regPath =>
      s.shared.pc t = .entering path ∧ path ∉ texts s.heap s.regList ∧ s.heap regPath = some path
  | .insertUnlock path => s.shared.pc t = .entering path
  | .deleteLen path res => s.shared.pc t = .leaving path res
  | .deleteLock path res len => s.shared.pc t = .leaving path res ∧ len = s.regList.length
  | .deleteNext path res len listIndex =>
      s.shared.pc t = .leaving path res ∧ len = s.regList.length ∧
        path ∉ texts s.heap (s.regList.take listIndex)
  | .deleteFree path res listIndex =>
      s.shared.pc t = .leaving path res ∧ s.deref listIndex = some path ∧
        path ∉ texts s.heap (s.regList.take listIndex)
  | .deleteRemove .. | .deleteUnlock _ | .push _ | .clear | .unlock _ => (s.shared.pc t).Waits

/-- The strings that there are belong to the array, or to the thread that is about to append
one or has just freed one. -/
structure Safe (s : RegList) : Prop where
  noFault : s.fault = false
  locked : s.listMutex = s.queueMutex.any fun x => x.2.holdsList
  nodup : s.owned.Nodup
  exact : ∀ p, (s.heap p).isSome = true ↔ p ∈ s.owned
  fresh : ∀ p ∈ s.owned, p < s.next
  fits : ∀ t place, s.queueMutex = some (t, place) → s.Fits t place

variable {s s' : RegList} {t : Tid} {place place' : Place}

theorem Fits.waits (h : s.Fits t place) : (s.shared.pc t).Waits := by
  cases place with
  | findLen path | insertUnlock path => exact ⟨path, .inl h⟩
  | findLock path | findNext path | setQueue path | insertDup path | insertLock path
  | insertAppend path => exact ⟨path, .inl h.1⟩
  | deleteLen path res => exact ⟨path, .inr ⟨res, h⟩⟩
  | deleteLock path res | deleteNext path res | deleteFree path res =>
      exact ⟨path, .inr ⟨res, h.1⟩⟩
  | deleteRemove | deleteUnlock | push | clear | unlock => exact h

/-- The holder goes on, and no string is allocated or freed. -/
theorem Safe.move (h : s.Safe) (hq : s.queueMutex = some (t, place))
    (hq' : s'.queueMutex = some (t, place')) (hlock : s'.listMutex = place'.holdsList)
    (howned : place'.owned s'.regList = place.owned s.regList) (hheap : s'.heap = s.heap)
    (hnext : s'.next = s.next) (hfault : s'.fault = s.fault) (hfits : s'.Fits t place') :
    s'.Safe := by
  have hsame : s'.owned = s.owned := by
    rw [owned, owned, hq, hq']
    exact howned
  constructor
  · rw [hfault]
    exact h.noFault
  · rw [hlock, hq']
    rfl
  · rw [hsame]
    exact h.nodup
  · rw [hsame, hheap]
    exact h.exact
  · rw [hsame, hnext]
    exact h.fresh
  · intro u place hu
    obtain ⟨rfl, rfl⟩ := Prod.mk.inj (Option.some.inj (hq'.symm.trans hu))
    exact hfits

/-- A pointer of the array leads to its string. -/
theorem Safe.deref_eq (h : s.Safe) (howned : s.owned = s.regList) {i : Nat}
    (hi : i < s.regList.length) :
    ∃ data, s.deref i = some data ∧ texts s.heap (s.regList.take (i + 1)) =
      texts s.heap (s.regList.take i) ++ [data] := by
  have hmem : s.regList[i] ∈ s.owned := by
    rw [howned]
    exact List.getElem_mem hi
  obtain ⟨data, hdata⟩ := Option.isSome_iff_exists.mp ((h.exact _).mpr hmem)
  refine ⟨data, by rw [deref, List.getElem?_eq_getElem hi]; exact hdata, ?_⟩
  rw [List.take_succ_eq_append_getElem hi, texts, List.map_append, List.map_singleton, hdata]
  rfl

theorem texts_update_of_notMem {heap : Nat → Option Text} {p : Nat} {value : Option Text}
    {pointers : List Nat} (hp : p ∉ pointers) :
    texts (Function.update heap p value) pointers = texts heap pointers := by
  refine List.map_congr_left fun q hq => ?_
  rw [Function.update_of_ne]
  rintro rfl
  exact hp hq

theorem owned_eq (hq : s.queueMutex = some (t, place)) :
    s.owned = place.owned s.regList := by
  rw [owned, hq]

/-- The search. -/
theorem Safe.findNext (h : s.Safe) {path : Text} {len i : Nat} {res : Bool}
    (hq : s.queueMutex = some (t, .findNext path len i res))
    (hstep : s.advance t (.findNext path len i res) = some s') : s'.Safe := by
  obtain ⟨hpc, hlen, hres⟩ := h.fits t _ hq
  have hlock : s.listMutex = true := by rw [h.locked, hq]; rfl
  simp only [advance] at hstep
  split at hstep
  next hi =>
    obtain ⟨data, hdata, htake⟩ := h.deref_eq (owned_eq hq) (hlen ▸ hi)
    rw [hdata] at hstep
    obtain rfl := Option.some.inj hstep
    refine h.move hq rfl hlock rfl rfl rfl rfl ⟨hpc, hlen, ?_⟩
    show _ ↔ path ∈ texts s.heap (s.regList.take (i + 1))
    rw [htake, List.mem_append, List.mem_singleton, ← hres]
    rw [Bool.or_eq_true, decide_eq_true_iff, or_comm, @eq_comm _ data path]
  next hi =>
    obtain rfl := Option.some.inj hstep
    have hall : s.regList.take i = s.regList := List.take_of_length_le (by omega)
    rw [hall] at hres
    cases res with
    | true =>
        cases t with
        | socket => exact h.move hq rfl rfl rfl rfl rfl rfl ⟨hpc, rfl, hres.mp rfl⟩
        | inotify => exact h.move hq rfl rfl rfl rfl rfl rfl ⟨path, .inl hpc⟩
    | false =>
        exact h.move hq rfl rfl rfl rfl rfl rfl
          ⟨hpc, fun hmem => Bool.false_ne_true (hres.mpr hmem)⟩

/-- `strdup`. -/
theorem Safe.insertDup (h : s.Safe) {path : Text}
    (hq : s.queueMutex = some (t, .insertDup path)) :
    Safe
      { s.atPlace t (.insertLock path s.next) with
        heap := Function.update s.heap s.next (some path)
        next := s.next + 1 } := by
  obtain ⟨hpc, hnot⟩ := h.fits t _ hq
  have howned := owned_eq hq
  have hnew : s.next ∉ s.regList := by
    intro hmem
    exact Nat.lt_irrefl _ (h.fresh s.next (howned ▸ hmem))
  have htexts : texts (Function.update s.heap s.next (some path)) s.regList =
      texts s.heap s.regList := texts_update_of_notMem hnew
  constructor
  · exact h.noFault
  · have hlock : s.listMutex = false := by rw [h.locked, hq]; rfl
    exact hlock
  · exact (howned ▸ h.nodup).append (List.nodup_singleton _) (List.disjoint_singleton.mpr hnew)
  · intro p
    have hp := h.exact p
    rw [howned] at hp
    by_cases heq : p = s.next
    · subst heq
      simp [owned, atPlace, Place.owned]
    · simpa [owned, atPlace, Place.owned, heq, Function.update_of_ne heq] using hp
  · intro p hp
    rcases List.mem_append.mp hp with hp | hp
    · exact Nat.lt_succ_of_lt (h.fresh p (howned ▸ hp))
    · obtain rfl := List.mem_singleton.mp hp
      exact Nat.lt_succ_self _
  · rintro u place ⟨⟩
    exact ⟨hpc, htexts ▸ hnot, Function.update_self ..⟩

/-- The search for the string to delete. -/
theorem Safe.deleteNext (h : s.Safe) {path : Text} {res : Int} {len i : Nat}
    (hq : s.queueMutex = some (t, .deleteNext path res len i))
    (hstep : s.advance t (.deleteNext path res len i) = some s') : s'.Safe := by
  obtain ⟨hpc, hlen, hnot⟩ := h.fits t _ hq
  have hlock : s.listMutex = true := by rw [h.locked, hq]; rfl
  simp only [advance] at hstep
  split at hstep
  next hi =>
    obtain ⟨data, hdata, htake⟩ := h.deref_eq (owned_eq hq) (hlen ▸ hi)
    rw [hdata] at hstep
    obtain rfl := Option.some.inj hstep
    split
    next hpath => exact h.move hq rfl hlock rfl rfl rfl rfl ⟨hpc, hpath ▸ hdata, hnot⟩
    next hpath =>
      refine h.move hq rfl hlock rfl rfl rfl rfl ⟨hpc, hlen, ?_⟩
      show path ∉ texts s.heap (s.regList.take (i + 1))
      rw [htake, List.mem_append, List.mem_singleton]
      exact not_or.mpr ⟨hnot, fun heq => hpath heq.symm⟩
  next hi =>
    obtain rfl := Option.some.inj hstep
    exact h.move hq rfl rfl rfl rfl rfl rfl ⟨path, .inr ⟨res, hpc⟩⟩

/-- The string is freed, and its pointer is still in the array. -/
theorem Safe.deleteFree (h : s.Safe) {path : Text} {res : Int} {i : Nat}
    (hq : s.queueMutex = some (t, .deleteFree path res i))
    (hstep : s.advance t (.deleteFree path res i) = some s') :
    s'.Safe ∧ ∃ data, s.regList[i]? = some data ∧
      s' = { s.atPlace t (.deleteRemove res i) with heap := Function.update s.heap data none } := by
  obtain ⟨hpc, hderef, -⟩ := h.fits t _ hq
  obtain ⟨data, hdata, hheap⟩ := Option.bind_eq_some_iff.mp hderef
  have howned : s.owned = s.regList := owned_eq hq
  have hnodup : s.regList.Nodup := howned ▸ h.nodup
  simp only [advance, hdata, hheap] at hstep
  obtain rfl := Option.some.inj hstep
  refine ⟨?_, data, hdata, rfl⟩
  obtain ⟨hi, rfl⟩ := List.getElem?_eq_some_iff.mp hdata
  have hrest : ∀ p, p ∈ s.regList.eraseIdx i ↔ p ≠ s.regList[i] ∧ p ∈ s.regList := by
    intro p
    rw [← hnodup.erase_getElem i hi, hnodup.mem_erase_iff]
  constructor
  · exact h.noFault
  · have hlock : s.listMutex = true := by rw [h.locked, hq]; rfl
    exact hlock
  · exact hnodup.sublist (List.eraseIdx_sublist _ _)
  · intro p
    have hp := h.exact p
    rw [howned] at hp
    show ((Function.update s.heap s.regList[i] none) p).isSome = true ↔ p ∈ s.regList.eraseIdx i
    rw [hrest, Function.update_apply]
    split
    next heq => simp [heq]
    next heq => simp [heq, hp]
  · intro p hp
    exact h.fresh p (howned ▸ ((hrest p).mp hp).2)
  · rintro u place ⟨⟩
    exact ⟨path, .inr ⟨res, hpc⟩⟩

theorem Safe.unlock (h : s.Safe) {pc : Pc} (hq : s.queueMutex = some (t, .unlock pc)) :
    Safe { s with queueMutex := none, shared := s.shared.goto t pc } := by
  have howned : s.owned = s.regList := owned_eq hq
  constructor
  · exact h.noFault
  · have hlock : s.listMutex = false := by rw [h.locked, hq]; rfl
    exact hlock
  · exact howned ▸ h.nodup
  · exact howned ▸ h.exact
  · exact howned ▸ h.fresh
  · rintro u place ⟨⟩

theorem Safe.advance (h : s.Safe) (hq : s.queueMutex = some (t, place))
    (hstep : s.advance t place = some s') : s'.Safe := by
  have hfits := h.fits t _ hq
  have hlock : s.listMutex = place.holdsList := by rw [h.locked, hq]; rfl
  cases place with
  | findNext => exact h.findNext hq hstep
  | deleteNext => exact h.deleteNext hq hstep
  | deleteFree => exact (h.deleteFree hq hstep).1
  | insertDup => exact Option.some.inj hstep ▸ h.insertDup hq
  | unlock => exact Option.some.inj hstep ▸ h.unlock hq
  | findLen path =>
      obtain rfl := Option.some.inj hstep
      exact h.move hq rfl hlock rfl rfl rfl rfl ⟨hfits, rfl⟩
  | findLock path len =>
      obtain ⟨-, hstep⟩ := Option.ite_none_left_eq_some.mp hstep
      obtain rfl := Option.some.inj hstep
      refine h.move hq rfl rfl rfl rfl rfl rfl ⟨hfits.1, hfits.2, ?_⟩
      rw [List.take_zero]
      exact iff_of_false Bool.false_ne_true List.not_mem_nil
  | setQueue path =>
      obtain rfl := Option.some.inj hstep
      exact h.move hq rfl hlock rfl rfl rfl rfl ⟨path, .inl hfits.1⟩
  | insertLock path regPath =>
      obtain ⟨-, hstep⟩ := Option.ite_none_left_eq_some.mp hstep
      obtain rfl := Option.some.inj hstep
      exact h.move hq rfl rfl rfl rfl rfl rfl hfits
  | insertAppend path regPath =>
      obtain rfl := Option.some.inj hstep
      exact h.move hq rfl hlock rfl rfl rfl rfl hfits.1
  | insertUnlock path =>
      obtain rfl := Option.some.inj hstep
      exact h.move hq rfl rfl rfl rfl rfl rfl ⟨path, .inl hfits⟩
  | deleteLen path res =>
      obtain rfl := Option.some.inj hstep
      exact h.move hq rfl hlock rfl rfl rfl rfl ⟨hfits, rfl⟩
  | deleteLock path res len =>
      obtain ⟨-, hstep⟩ := Option.ite_none_left_eq_some.mp hstep
      obtain rfl := Option.some.inj hstep
      exact h.move hq rfl rfl rfl rfl rfl rfl ⟨hfits.1, hfits.2, List.not_mem_nil⟩
  | deleteRemove res i =>
      obtain rfl := Option.some.inj hstep
      exact h.move hq rfl hlock rfl rfl rfl rfl hfits
  | deleteUnlock res =>
      obtain rfl := Option.some.inj hstep
      exact h.move hq rfl rfl rfl rfl rfl rfl hfits
  | push res =>
      obtain rfl := Option.some.inj hstep
      refine h.move hq rfl hlock rfl rfl rfl rfl ?_
      show ((if s.shared.socQueue then
        { s.shared with retQueue := s.shared.retQueue ++ [pushed res] } else s.shared).pc t).Waits
      split <;> exact hfits
  | clear =>
      obtain rfl := Option.some.inj hstep
      exact h.move hq rfl hlock rfl rfl rfl rfl hfits

/-! ### The sections are single steps -/

theorem registerStep_enter {shared : Shared} {path : Text} (hpc : shared.pc t = .entering path) :
    registerStep shared (t, .enter) = some (shared.enter t path) := by
  simp only [registerStep, hpc]

theorem registerStep_leave {shared : Shared} {path : Text} {res : Int}
    (hpc : shared.pc t = .leaving path res) :
    registerStep shared (t, .leave) = some (shared.leave t path res) := by
  simp only [registerStep, hpc]

/-- The first path of the kind is the one that goes. -/
theorem erase_eq_eraseIdx {paths : List Text} {path : Text} {i : Nat}
    (hi : paths[i]? = some path) (hnot : path ∉ paths.take i) :
    paths.erase path = paths.eraseIdx i := by
  obtain ⟨hlt, hget⟩ := List.getElem?_eq_some_iff.mp hi
  have hsplit : paths = paths.take i ++ path :: paths.drop (i + 1) := by
    rw [← hget, List.cons_getElem_drop_succ, List.take_append_drop]
  rw [List.eraseIdx_eq_take_drop_succ]
  conv_lhs => rw [hsplit]
  rw [List.erase_append_right _ hnot, List.erase_cons_head]

theorem abs_eq (hq : s.queueMutex = some (t, place)) :
    s.abs = place.finish t (s.withList (place.listed s.regList)) := by
  rw [abs, hq]

/-- The first section takes effect, on the list as it is. -/
theorem abs_enter {path : Text} (hpc : s.shared.pc t = .entering path)
    (habs : s.abs = s.withList s.regList)
    (habs' : s'.abs = (s.withList s.regList).enter t path) :
    ∃ act, registerStep s.abs (t, act) = some s'.abs := by
  refine ⟨.enter, ?_⟩
  rw [habs, habs']
  exact registerStep_enter hpc

/-- So does the last one. -/
theorem abs_leave {path : Text} {res : Int} (hpc : s.shared.pc t = .leaving path res)
    (habs : s.abs = s.withList s.regList)
    (habs' : s'.abs = (s.withList s.regList).leave t path res) :
    ∃ act, registerStep s.abs (t, act) = some s'.abs := by
  refine ⟨.leave, ?_⟩
  rw [habs, habs']
  exact registerStep_leave hpc

/-- The search has come to its end. -/
theorem Safe.abs_findNext (h : s.Safe) {path : Text} {len i : Nat} {res : Bool}
    (hq : s.queueMutex = some (t, .findNext path len i res))
    (hstep : s.advance t (.findNext path len i res) = some s') :
    s'.abs = s.abs ∨ ∃ act, registerStep s.abs (t, act) = some s'.abs := by
  obtain ⟨hpc, hlen, hres⟩ := h.fits t _ hq
  have habs : s.abs = s.withList s.regList := abs_eq hq
  simp only [RegList.advance] at hstep
  split at hstep
  next hi =>
    obtain ⟨data, hdata, -⟩ := h.deref_eq (owned_eq hq) (hlen ▸ hi)
    rw [hdata] at hstep
    obtain rfl := Option.some.inj hstep
    exact .inl habs.symm
  next hi =>
    obtain rfl := Option.some.inj hstep
    rw [List.take_of_length_le (by omega)] at hres
    cases res with
    | false => exact .inl habs.symm
    | true =>
        cases t with
        | socket => exact .inl habs.symm
        | inotify =>
            have hmem : path ∈ (s.withList s.regList).regList := hres.mp rfl
            refine .inr (abs_enter hpc habs ?_)
            rw [Shared.enter.eq_def, if_pos hmem]
            rfl

theorem Safe.abs_deleteNext (h : s.Safe) {path : Text} {res : Int} {len i : Nat}
    (hq : s.queueMutex = some (t, .deleteNext path res len i))
    (hstep : s.advance t (.deleteNext path res len i) = some s') :
    s'.abs = s.abs ∨ ∃ act, registerStep s.abs (t, act) = some s'.abs := by
  obtain ⟨hpc, hlen, hnot⟩ := h.fits t _ hq
  have habs : s.abs = s.withList s.regList := abs_eq hq
  simp only [RegList.advance] at hstep
  split at hstep
  next hi =>
    obtain ⟨data, hdata, -⟩ := h.deref_eq (owned_eq hq) (hlen ▸ hi)
    rw [hdata] at hstep
    obtain rfl := Option.some.inj hstep
    split <;> exact .inl habs.symm
  next hi =>
    obtain rfl := Option.some.inj hstep
    rw [List.take_of_length_le (by omega)] at hnot
    have herase : (s.withList s.regList).regList.erase path = (s.withList s.regList).regList :=
      List.erase_of_not_mem hnot
    refine .inr (abs_leave hpc habs ?_)
    rw [Shared.leave, herase]
    rfl

theorem Safe.abs_deleteFree (h : s.Safe) {path : Text} {res : Int} {i : Nat}
    (hq : s.queueMutex = some (t, .deleteFree path res i))
    (hstep : s.advance t (.deleteFree path res i) = some s') :
    ∃ act, registerStep s.abs (t, act) = some s'.abs := by
  obtain ⟨hpc, hderef, hnot⟩ := h.fits t _ hq
  obtain ⟨-, data, hdata, rfl⟩ := h.deleteFree hq hstep
  have hnodup : s.regList.Nodup := by
    have hown : s.owned = s.regList := owned_eq hq
    rw [← hown]
    exact h.nodup
  have hout : data ∉ s.regList.eraseIdx i := by
    obtain ⟨hi, rfl⟩ := List.getElem?_eq_some_iff.mp hdata
    rw [← hnodup.erase_getElem i hi]
    exact hnodup.not_mem_erase
  have hget : (texts s.heap s.regList)[i]? = some path := by
    have hheap : s.heap data = some path := by
      rw [deref, hdata] at hderef
      exact hderef
    rw [texts, List.getElem?_map, hdata, Option.map_some, hheap]
    rfl
  have herase : (s.withList s.regList).regList.erase path =
      texts (Function.update s.heap data none) (s.regList.eraseIdx i) := by
    show (texts s.heap s.regList).erase path = _
    rw [texts_update_of_notMem hout, erase_eq_eraseIdx hget (by rwa [texts, ← List.map_take]),
      texts, texts, List.eraseIdx_map]
  refine abs_leave hpc (abs_eq hq) ?_
  rw [Shared.leave, herase]
  rfl

/-- Either nothing has happened as the single steps see it, or one of the two sections. -/
theorem Safe.abs_advance (h : s.Safe) (hq : s.queueMutex = some (t, place))
    (hstep : s.advance t place = some s') :
    s'.abs = s.abs ∨ ∃ act, registerStep s.abs (t, act) = some s'.abs := by
  have hfits := h.fits t _ hq
  have habs := abs_eq hq
  cases place with
  | findNext => exact h.abs_findNext hq hstep
  | deleteNext => exact h.abs_deleteNext hq hstep
  | deleteFree => exact .inr (h.abs_deleteFree hq hstep)
  | findLen | insertUnlock | deleteLen | deleteRemove | deleteUnlock | clear | unlock =>
      obtain rfl := Option.some.inj hstep
      exact .inl habs.symm
  | findLock | insertLock | deleteLock =>
      obtain ⟨-, hstep⟩ := Option.ite_none_left_eq_some.mp hstep
      obtain rfl := Option.some.inj hstep
      exact .inl habs.symm
  | setQueue path =>
      obtain rfl := Option.some.inj hstep
      obtain ⟨hpc, rfl, hmem⟩ := hfits
      have hlisted : path ∈ (s.withList s.regList).regList := hmem
      refine .inr (abs_enter hpc habs ?_)
      rw [Shared.enter.eq_def, if_pos hlisted]
      rfl
  | insertDup path =>
      obtain rfl := Option.some.inj hstep
      refine .inl ?_
      have hnew : s.next ∉ s.regList := by
        have hown : s.owned = s.regList := owned_eq hq
        exact fun hmem => Nat.lt_irrefl _ (h.fresh s.next (hown ▸ hmem))
      have htexts : texts (Function.update s.heap s.next (some path)) s.regList =
          texts s.heap s.regList := texts_update_of_notMem hnew
      rw [habs, RegList.abs]
      exact congrArg (fun regList => { s.shared with regList }) htexts
  | insertAppend path regPath =>
      obtain rfl := Option.some.inj hstep
      obtain ⟨hpc, hnot, hheap⟩ := hfits
      have hlisted : path ∉ (s.withList s.regList).regList := hnot
      have htexts : texts s.heap (s.regList ++ [regPath]) = texts s.heap s.regList ++ [path] := by
        rw [texts, List.map_append, List.map_singleton, hheap]
        rfl
      refine .inr (abs_enter hpc habs ?_)
      rw [Shared.enter.eq_def, if_neg hlisted]
      exact congrArg
        (fun regList => Shared.goto { s.shared with regList } t (.inserting path 0 msErrNone))
        htexts
  | push res =>
      obtain rfl := Option.some.inj hstep
      refine .inl ?_
      rw [habs]
      cases hqueue : s.shared.socQueue <;>
        simp [RegList.abs, RegList.atPlace, Place.finish, Place.listed, withList, hqueue,
          Shared.goto]

/-! ### The other steps -/

section Commute

variable {u : Tid} {shared shared' : Shared} {act : Act}

theorem finish_pc (hne : t ≠ u) : (place.finish u shared).pc t = shared.pc t := by
  cases place <;> simp [Place.finish, Shared.goto_pc, hne]

theorem finish_held : (place.finish u shared).held = shared.held ∧
    (place.finish u shared).libNum = shared.libNum := by
  cases place <;> exact ⟨rfl, rfl⟩

theorem finish_allHold {path : Text} :
    (place.finish u shared).AllHold path ↔ shared.AllHold path := by
  rw [Shared.AllHold, Shared.AllHold, finish_held.1, finish_held.2]

theorem finish_goto (hne : t ≠ u) (pc : Pc) :
    place.finish u (shared.goto t pc) = (place.finish u shared).goto t pc := by
  cases place <;> simp [Place.finish, Shared.goto, Function.update_comm hne] <;> rfl

theorem finish_insert (hne : t ≠ u) (path : Text) (k : Nat) (ret : Int) (outcome : InsertOutcome) :
    place.finish u (shared.insert t path k ret outcome) =
      (place.finish u shared).insert t path k ret outcome := by
  cases outcome <;> cases place <;>
    simp [Place.finish, Shared.insert, Shared.goto, Function.update_comm hne] <;> rfl

/-- What the handler has been left stays at the head of its queue. -/
theorem finish_retQueue (place : Place) (hne : t ≠ u) {v : Int} {rest : List Int}
    (hqueue : shared.retQueue = v :: rest) :
    ∃ rest', (place.finish u shared).retQueue = v :: rest' ∧
      place.finish u { shared.goto t .idle with retQueue := rest } =
        { (place.finish u shared).goto t .idle with retQueue := rest' } := by
  cases place with
  | deleteRemove res | deleteUnlock res | push res =>
      refine ⟨if shared.socQueue then rest ++ [pushed res] else rest, ?_, ?_⟩
      · cases hsoc : shared.socQueue <;> simp [Place.finish, hsoc, hqueue]
      · simp [Place.finish, Shared.goto, Function.update_comm hne]
        rfl
  | _ =>
      refine ⟨rest, hqueue, ?_⟩
      simp [Place.finish, Shared.goto, Function.update_comm hne]

/-- What one thread does outside the sections does not depend on where the other one is in
them. -/
theorem registerStep_finish (place : Place) (hne : t ≠ u) (hact : act.critical = false)
    (hstep : registerStep shared (t, act) = some shared') :
    registerStep (place.finish u shared) (t, act) = some (place.finish u shared') := by
  have hpc' : (place.finish u shared).pc t = shared.pc t := finish_pc hne
  cases registerStep_cases hstep with
  | call path hpc =>
      rw [finish_goto hne]
      simp only [registerStep, hpc', hpc]
  | known path fails hpc hall =>
      have hfails : ¬ fails := not_fails_of_idle hpc hstep
      rw [finish_goto hne]
      simp only [registerStep, hpc', hpc, if_pos (And.intro (finish_allHold.mpr hall) hfails)]
  | missing path fails hpc hall =>
      rw [finish_goto hne]
      have hall' : ¬ ((place.finish u shared).AllHold path ∧ ¬ fails) := by
        rwa [finish_allHold]
      simp only [registerStep, hpc', hpc, if_neg hall']
  | enter | leave => cases hact
  | noMime path hpc =>
      rw [finish_goto hne]
      simp only [registerStep, hpc', hpc, finish_held.2, and_self, if_true]
  | insert path k ret outcome hpc hk =>
      rw [finish_insert hne]
      simp only [registerStep, hpc', hpc, finish_held.2, if_pos hk]
  | recheck path k ret res hpc hk =>
      rw [finish_goto hne]
      simp only [registerStep, hpc', hpc, finish_held.2, if_neg hk]
  | receive path v rest hpc hqueue =>
      obtain ⟨rest', hrest', hfinish⟩ := finish_retQueue place hne hqueue
      rw [hfinish]
      simp only [registerStep, hpc', hpc, hrest']

/-- Nor on the list. -/
theorem registerStep_regList (regList : List Text) (hact : act.critical = false)
    (hstep : registerStep shared (t, act) = some shared') :
    registerStep { shared with regList } (t, act) = some { shared' with regList } := by
  cases registerStep_cases hstep with
  | call path hpc | noMime path hpc =>
      simp only [registerStep, hpc]
      rfl
  | known path fails hpc hall =>
      have hfails : ¬ fails := not_fails_of_idle hpc hstep
      simp only [registerStep, hpc]
      exact if_pos ⟨hall, hfails⟩
  | missing path fails hpc hall =>
      simp only [registerStep, hpc]
      exact if_neg hall
  | enter | leave => cases hact
  | insert path k ret outcome hpc hk =>
      simp only [registerStep, hpc, if_pos hk]
      cases outcome <;> rfl
  | recheck path k ret res hpc hk =>
      simp only [registerStep, hpc, if_neg hk]
      rfl
  | receive path v rest hpc hqueue =>
      simp only [registerStep, hpc, hqueue]
      rfl

end Commute

/-- A thread inside a section takes no other step. -/
theorem not_waits_of_step {shared shared' : Shared} {act : Act} (hact : act.critical = false)
    (hstep : registerStep shared (t, act) = some shared') : ¬ (shared.pc t).Waits := by
  rintro ⟨path, hpc | ⟨res, hpc⟩⟩ <;> cases act <;> simp_all [registerStep, Act.critical]

theorem Safe.act (h : s.Safe) {act : Act} {shared : Shared} (hact : act.critical = false)
    (hstep : registerStep s.shared (t, act) = some shared) : Safe { s with shared } where
  noFault := h.noFault
  locked := h.locked
  nodup := h.nodup
  exact := h.exact
  fresh := h.fresh
  fits u place hq := by
    have hfits := h.fits u place hq
    have hne : u ≠ t := by
      rintro rfl
      exact not_waits_of_step hact hstep hfits.waits
    have hpc : shared.pc u = s.shared.pc u := pc_of_ne (registerStep_cases hstep) hne
    cases place <;> simpa only [Fits, deref, hpc] using hfits

theorem Safe.abs_act (h : s.Safe) {act : Act} {shared : Shared} (hact : act.critical = false)
    (hstep : registerStep s.shared (t, act) = some shared) :
    registerStep s.abs (t, act) = some (RegList.abs { s with shared }) := by
  cases hq : s.queueMutex with
  | none =>
      have hstep' := registerStep_regList (texts s.heap s.regList) hact hstep
      simpa only [RegList.abs, hq, withList] using hstep'
  | some x =>
      obtain ⟨u, place⟩ := x
      have hne : t ≠ u := by
        rintro rfl
        exact not_waits_of_step hact hstep (h.fits t place hq).waits
      have hstep' := registerStep_finish place hne hact
        (registerStep_regList (texts s.heap (place.listed s.regList)) hact hstep)
      simpa only [RegList.abs, hq, withList] using hstep'

theorem Safe.lock (h : s.Safe) (hq : s.queueMutex = none)
    (howned : place.owned s.regList = s.regList) (hholds : place.holdsList = false)
    (hfits : (s.atPlace t place).Fits t place) : (s.atPlace t place).Safe := by
  have hsame : (s.atPlace t place).owned = s.owned := by
    rw [owned, owned, hq]
    exact howned
  constructor
  · exact h.noFault
  · have hlock : s.listMutex = false := by rw [h.locked, hq]; rfl
    exact hlock.trans hholds.symm
  · rw [hsame]
    exact h.nodup
  · rw [hsame]
    exact h.exact
  · rw [hsame]
    exact h.fresh
  · rintro u place ⟨⟩
    exact hfits

theorem Safe.step (h : s.Safe) {l : RegListLabel} (hstep : regListStep s l = some s') :
    s'.Safe := by
  cases l with
  | act t act =>
      obtain ⟨hact, hstep⟩ := Option.ite_none_left_eq_some.mp hstep
      obtain ⟨shared, hshared, rfl⟩ := Option.map_eq_some_iff.mp hstep
      exact h.act (by simpa using hact) hshared
  | lock t =>
      simp only [regListStep] at hstep
      split at hstep
      next path hq hpc => exact Option.some.inj hstep ▸ h.lock hq rfl rfl hpc
      next path res hq hpc => exact Option.some.inj hstep ▸ h.lock hq rfl rfl hpc
      next => cases hstep
  | advance =>
      simp only [regListStep] at hstep
      split at hstep
      next t place hq => exact h.advance hq hstep
      next => cases hstep

theorem refines : Run.Refines regListStep registerStep Safe abs := by
  intro s l s' h hstep
  cases l with
  | act t act =>
      obtain ⟨hact, hstep⟩ := Option.ite_none_left_eq_some.mp hstep
      obtain ⟨shared, hshared, rfl⟩ := Option.map_eq_some_iff.mp hstep
      exact Run.refines_one (h.abs_act (by simpa using hact) hshared)
  | lock t =>
      refine Run.refines_stutter ?_
      simp only [regListStep] at hstep
      split at hstep
      next path hq hpc =>
        obtain rfl := Option.some.inj hstep
        rw [abs, abs, hq]
        rfl
      next path res hq hpc =>
        obtain rfl := Option.some.inj hstep
        rw [abs, abs, hq]
        rfl
      next => cases hstep
  | advance =>
      simp only [regListStep] at hstep
      split at hstep
      next t place hq =>
        rcases h.abs_advance hq hstep with hsame | ⟨act, hact⟩
        · exact Run.refines_stutter hsame
        · exact Run.refines_one hact
      next => cases hstep

theorem safe_start (shared : Shared) : Safe { shared } where
  noFault := rfl
  locked := rfl
  nodup := List.nodup_nil
  exact _ := iff_of_false Bool.false_ne_true List.not_mem_nil
  fresh := List.forall_mem_nil _
  fits _ _ hq := by cases hq

/-- `list_mutex` is free whenever the holder of `queue_mutex` wants it. -/
theorem Safe.advances (h : s.Safe) (hq : s.queueMutex = some (t, place)) :
    (s.advance t place).isSome = true := by
  have hlock : s.listMutex = place.holdsList := by rw [h.locked, hq]; rfl
  cases place with
  | findLock | insertLock | deleteLock => simp [RegList.advance, hlock, Place.holdsList]
  | findNext | deleteNext =>
      simp only [RegList.advance]
      split <;> [split; skip] <;> rfl
  | deleteFree =>
      simp only [RegList.advance]
      split <;> [skip; split] <;> rfl
  | findLen | setQueue | insertDup | insertAppend | insertUnlock | deleteLen | deleteRemove
  | deleteUnlock | push | clear | unlock => rfl

/-- A run of the threads is one of the observed threads. -/
theorem exists_observed {labels : List Label} {o : Observed} {shared : Shared}
    (hexec : Run.exec registerStep o.shared labels = some shared) :
    ∃ o', Run.exec observedStep o labels = some o' ∧ o'.shared = shared := by
  induction labels generalizing o with
  | nil => exact ⟨o, rfl, Option.some.inj hexec⟩
  | cons l labels ih =>
      obtain ⟨middle, hstep, hrest⟩ := Option.bind_eq_some_iff.mp hexec
      obtain ⟨o', ho', hshared⟩ := ih
        (o := ⟨middle, if l = (.socket, .enter) then [] else o.completed ++ completes o.shared l⟩)
        hrest
      refine ⟨o', ?_, hshared⟩
      rw [Run.exec_cons, observedStep, hstep]
      exact ho'

/-- When both threads are outside `ms_register_file`, no string is left. -/
theorem Safe.heap_eq_none (h : s.Safe) (hidle : ∀ t, s.shared.pc t = .idle)
    {completed : List (Text × Int)} (hhandOver : HandOver { shared := s.abs, completed })
    (p : Nat) : s.heap p = none := by
  have hq : s.queueMutex = none := by
    cases hq : s.queueMutex with
    | none => rfl
    | some x =>
        obtain ⟨path, hpc | ⟨res, hpc⟩⟩ := (h.fits x.1 x.2 hq).waits <;> rw [hidle] at hpc <;>
          cases hpc
  have habs : s.abs = s.withList s.regList := by rw [abs, hq]
  rw [habs] at hhandOver
  have hlist : (s.withList s.regList).regList = [] := by
    refine List.eq_nil_iff_forall_not_mem.mpr fun path hpath => ?_
    obtain ⟨t, ht⟩ := (hhandOver.listed path).mp hpath
    have hpc : (s.withList s.regList).pc t = .idle := hidle t
    rw [hpc] at ht
    cases ht
  have hempty : s.regList = [] := List.map_eq_nil_iff.mp hlist
  rw [← Option.not_isSome_iff_eq_none, h.exact, owned, hq, hempty]
  exact List.not_mem_nil

end RegList

/-- Every run with the array and the mutexes is, section by section, a run of `registerStep`.
The thread in a section is never stopped, no string is read or freed that is not there, and
those that are there are the ones that the array or the thread in a section points to: none
is left when no registration is under way. -/
theorem reg_list_refines (libNum : Nat) (held : List (Nat × Text)) (labels : List RegListLabel)
    {s : RegList}
    (hexec : Run.exec regListStep { shared := Shared.start libNum held } labels = some s) :
    (∃ coarse, Run.exec registerStep (Shared.start libNum held) coarse = some s.abs) ∧
      s.fault = false ∧ (s.queueMutex ≠ none → (regListStep s .advance).isSome = true) ∧
      (∀ p, (s.heap p).isSome = true ↔ p ∈ s.owned) ∧
      ((∀ t, s.shared.pc t = .idle) → ∀ p, s.heap p = none) := by
  have hstart := RegList.safe_start (Shared.start libNum held)
  have hsafe : s.Safe :=
    (Run.always_of_step (fun _ _ _ h hstep => h.step hstep) hstart).of_exec hexec
  obtain ⟨coarse, hcoarse⟩ :=
    RegList.refines.exec (fun _ _ _ h hstep => h.step hstep) hstart hexec
  refine ⟨⟨coarse, hcoarse⟩, hsafe.noFault, fun hq => ?_, hsafe.exact, fun hidle => ?_⟩
  · obtain ⟨⟨t, place⟩, hq⟩ := Option.ne_none_iff_exists'.mp hq
    simp only [regListStep, hq]
    exact hsafe.advances hq
  · obtain ⟨⟨shared, completed⟩, hobserved, rfl⟩ :=
      RegList.exists_observed (o := { shared := Shared.start libNum held }) hcoarse
    exact hsafe.heap_eq_none hidle ((handOver_always libNum held coarse).of_exec hobserved)

theorem reg_list_refines_contended :
    let labels : List RegListLabel :=
      [.act .inotify (.call ['a']), .act .inotify (.check false), .lock .inotify, .advance,
        .advance, .advance, .act .socket (.call ['a']), .advance, .act .socket (.check false),
        .advance, .advance, .advance, .advance, .lock .socket, .advance, .advance, .advance]
    ∃ s coarse, Run.exec regListStep { shared := Shared.start 1 [] } labels = some s ∧
      Run.exec registerStep (Shared.start 1 []) coarse = some s.abs := by
  intro labels
  obtain ⟨⟨coarse, hcoarse⟩, -⟩ := reg_list_refines 1 [] labels rfl
  exact ⟨_, coarse, rfl, hcoarse⟩

end MediaServer.Register
