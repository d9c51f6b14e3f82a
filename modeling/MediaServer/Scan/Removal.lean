import MediaServer.Foundation.Run
import MediaServer.Scan.Equivalence

/-!
# A removed card

`ms_mmc_vconf_cb` sets `mmc_state` and pushes a request for the card: one that
invalidates its items when the card is gone, a scan when it is mounted. The scan thread
may be anywhere in an earlier request. Whatever it has pending, the invalidation is the
last of the requests for the card to be carried out.

Nothing fails, and only the scan thread inserts and validates items. A test of
`mmc_state` and the call behind it are separate in the code, so a step of the thread may
go by a status that is no longer current. The request for a mounted card that `main`
pushes at its start is the same as that of the callback.
-/

namespace MediaServer.Scan

structure CardServed where
  thread : Thread := {}
  plugIns : List PlugIn
  /-- The last delivered status. -/
  last : Option MmcStatus := none
  /-- The callback has set `mmc_state`, and its request is not pushed yet. -/
  pushing : Bool := false

inductive RemovalLabel where
  /-- `ms_mmc_vconf_cb` is called and sets `mmc_state`. -/
  | mmcVconfCb (status : MmcStatus)
  /-- It pushes its request; `full` is the answer of `ms_get_mmc_state`. -/
  | push (id : Nat) (full : Bool)
  /-- A request for the internal storage. -/
  | internal (id : Nat) (full : Bool)
  | thread (seen : MmcStatus) (a : ThreadAct)

/-- The request of the callback for a status. -/
def cardRequest (id : Nat) (full : Bool) (status : MmcStatus) : ScanData :=
  { id
    path := some msRootPathExternal
    storageType := .external
    scanType := if status = .mounted then if full then .all else .part else .invalid }

/-- What a step of the thread does to the items. -/
def afterAct (plugIns : List PlugIn) (d : ScanData) : ThreadAct → List PlugIn
  | .deleteAllItems _ => plugIns.map fun p => p.deleteAllItems d.storageType
  | .scanFile path => scanFile d.scanType plugIns path
  | .invalidateAllItems => plugIns.map fun p => p.invalidateAllItems d.storageType
  | .deleteInvalidItems _ => plugIns.map fun p => p.deleteInvalidItems d.storageType
  | _ => plugIns

/-- Nothing fails, and a file that is handed over lies below the path of the request. -/
def Succeeds (d : ScanData) : ThreadAct → Prop
  | .connectDb ok | .deleteAllItems ok | .deleteInvalidItems ok => ok
  | .scanFile path => ∃ root ∈ d.path, Under root path
  | _ => True

instance (root path : Text) : Decidable (Under root path) :=
  inferInstanceAs (Decidable (_ ∨ _))

instance (d : ScanData) : DecidablePred (Succeeds d)
  | .connectDb ok | .deleteAllItems ok | .deleteInvalidItems ok =>
      inferInstanceAs (Decidable (ok = true))
  | .scanFile path => inferInstanceAs (Decidable (∃ root ∈ d.path, Under root path))
  | .receive | .take | .setUpdating | .invalidateAllItems | .scanReturn | .testPowerOff
  | .setUpdated | .updateMmcInfo | .release | .exit => isTrue trivial

namespace CardServed

variable (s : CardServed)

def push (d : ScanData) : CardServed :=
  { s with thread := { s.thread with queue := s.thread.queue ++ [d] } }

end CardServed

def removalStep (s : CardServed) : RemovalLabel → Option CardServed
  | .mmcVconfCb status =>
      if s.pushing then none else some { s with last := some status, pushing := true }
  | .push id full =>
      match s.pushing, s.last with
      | true, some status => some ({ s with pushing := false }.push (cardRequest id full status))
      | _, _ => none
  | .internal id full =>
      some (s.push {
        id
        path := some msRootPathInternal
        storageType := .internal
        scanType := if full then .all else .part })
  | .thread seen a =>
      (threadStep { mmcState := seen } s.thread a).bind fun thread =>
        match s.thread.pc.current with
        | [] => some { s with thread }
        | d :: _ =>
            if Succeeds d a then some { s with thread, plugIns := afterAct s.plugIns d a }
            else none

/-- No item of the card is valid. -/
def CardInvalid (plugIns : List PlugIn) : Prop :=
  ∀ p ∈ plugIns, ∀ i ∈ p.itemsOf .external, ¬ i.valid

/-- The last status says that the card is gone, and its callback has returned. -/
def CardServed.Gone (s : CardServed) : Prop :=
  s.pushing = false ∧ ∃ status ∈ s.last, status ≠ .mounted

/-- When the card is gone and the thread has nothing to do, no item of it is valid. -/
def Settled (s : CardServed) : Prop :=
  s.Gone → s.thread.queue = [] → s.thread.array = [] → s.thread.pc = .top → CardInvalid s.plugIns

/-- The requests for the card. -/
def external (ds : List ScanData) : List ScanData :=
  ds.filter fun d => d.storageType = .external

/-- Every request for the card is an invalidation. -/
def OnlyInvalidates (ds : List ScanData) : Prop :=
  ∀ d ∈ ds, d.storageType = .external → d.scanType = .invalid

/-- The thread has an invalidation at hand that it has not carried out. -/
def Pc.invalidates : Pc → Bool
  | .connectDb d | .updating d | .dirScan d =>
      d.storageType = .external && d.scanType = .invalid
  | _ => false

/-- The invalidation is in the queue, behind the other requests for the card; or in the
array, where it has replaced them; or it has been taken, or even carried out. -/
inductive Settling (th : Thread) (plugIns : List PlugIn) : Prop where
  | queued (d : ScanData) (last : (external th.queue).getLast? = some d)
      (invalid : d.scanType = .invalid)
  | pending (queue : external th.queue = []) (array : OnlyInvalidates th.array)
      (d : ScanData) (mem : d ∈ th.array) (card : d.storageType = .external)
  | taken (queue : external th.queue = []) (array : OnlyInvalidates th.array)
      (current : OnlyInvalidates th.pc.current) (invalidates : th.pc.invalidates = true)
  | done (queue : external th.queue = []) (array : OnlyInvalidates th.array)
      (current : OnlyInvalidates th.pc.current) (invalid : CardInvalid plugIns)

/-- The request has the path of its storage, and is no power-off. -/
structure StorageRequest (d : ScanData) : Prop where
  plain : d.scanType ≠ .powerOff
  root : ∃ root ∈ d.path, StorageRoot d.storageType root

structure RemovalInv (s : CardServed) : Prop where
  requests : ∀ d ∈ s.thread.objects, StorageRequest d
  settling : s.Gone → Settling s.thread s.plugIns

section Items

variable {plugIns : List PlugIn} {d : ScanData} {a : ThreadAct}

theorem cardInvalid_map {f : PlugIn → PlugIn} (h : CardInvalid plugIns)
    (hf : ∀ p, ∀ i ∈ (f p).itemsOf .external, (∃ j ∈ p.itemsOf .external, j.valid = i.valid) ∨
      ¬ i.valid) : CardInvalid (plugIns.map f) := by
  intro q hq i hi
  obtain ⟨p, hp, rfl⟩ := List.mem_map.mp hq
  rcases hf p i hi with ⟨j, hj, hvalid⟩ | hnot
  · rw [← hvalid]
    exact h p hp j hj
  · exact hnot

/-- The items of the card become valid only in a scan of the card. -/
theorem cardInvalid_afterAct (h : CardInvalid plugIns)
    (hfile : ∀ path, a = .scanFile path → msGetStorageTypeByFull path = d.storageType)
    (hscan : ∀ path, a = .scanFile path → d.storageType ≠ .external) :
    CardInvalid (afterAct plugIns d a) := by
  have hsame : ∀ {f : PlugIn → PlugIn}, (∀ p, (f p).itemsOf .external = p.itemsOf .external) →
      CardInvalid (plugIns.map f) :=
    fun hf => cardInvalid_map h fun p i hi => .inl ⟨i, hf p ▸ hi, rfl⟩
  by_cases hcard : d.storageType = .external
  · cases a with
    | scanFile path => exact absurd hcard (hscan path rfl)
    | deleteAllItems ok =>
        refine cardInvalid_map h fun p i hi => ?_
        rw [hcard, PlugIn.itemsOf_deleteAllItems] at hi
        cases hi
    | invalidateAllItems =>
        refine cardInvalid_map h fun p i hi => .inr ?_
        rw [hcard, PlugIn.itemsOf_invalidateAllItems] at hi
        obtain ⟨j, -, rfl⟩ := List.mem_map.mp hi
        exact Bool.false_ne_true
    | deleteInvalidItems ok =>
        refine cardInvalid_map h fun p i hi => .inl ⟨i, ?_, rfl⟩
        rw [hcard, PlugIn.itemsOf_deleteInvalidItems] at hi
        exact List.mem_of_mem_filter hi
    | _ => exact h
  · have hne : StorageType.external ≠ d.storageType := Ne.symm hcard
    cases a with
    | scanFile path =>
        have hpath := hfile path rfl
        refine hsame fun p => ?_
        split
        · exact PlugIn.itemsOf_validateItem_of_ne hpath hne
        · exact PlugIn.itemsOf_insertItemBatch_of_ne hpath hne
    | deleteAllItems ok => exact hsame fun p => PlugIn.itemsOf_deleteAllItems_of_ne hne
    | invalidateAllItems => exact hsame fun p => PlugIn.itemsOf_invalidateAllItems_of_ne hne
    | deleteInvalidItems ok => exact hsame fun p => PlugIn.itemsOf_deleteInvalidItems_of_ne hne
    | _ => exact h

/-- An invalidation leaves no valid item of the card. -/
theorem cardInvalid_of_invalidate (hcard : d.storageType = .external) :
    CardInvalid (afterAct plugIns d .invalidateAllItems) := by
  intro q hq i hi
  obtain ⟨p, -, rfl⟩ := List.mem_map.mp hq
  rw [hcard, PlugIn.itemsOf_invalidateAllItems] at hi
  obtain ⟨j, -, rfl⟩ := List.mem_map.mp hi
  exact Bool.false_ne_true

end Items

section Requests

variable {array queue : List ScanData} {d : ScanData}

theorem external_cons_of_eq (h : d.storageType = .external) :
    external (d :: queue) = d :: external queue := by
  simp [external, h]

theorem external_cons_of_ne (h : d.storageType ≠ .external) :
    external (d :: queue) = external queue := by
  simp [external, h]

/-- An invalidation lets only others of its kind stand. -/
theorem invalid_of_not_supersedes {e : ScanData} (hplain : e.scanType ≠ .powerOff)
    (hstorage : e.storageType = d.storageType) (hinvalid : d.scanType = .invalid)
    (h : supersedes d e = false) : e.scanType = .invalid := by
  rw [supersedes, hinvalid, decide_eq_true hplain, decide_eq_true hstorage] at h
  cases htype : e.scanType with
  | invalid => rfl
  | powerOff => exact absurd htype hplain
  | part | all =>
      rw [htype] at h
      cases h

/-- An invalidation replaces what is pending for the card. -/
theorem onlyInvalidates_insertArray (hplain : ∀ e ∈ array, e.scanType ≠ .powerOff)
    (hcard : d.storageType = .external) (hinvalid : d.scanType = .invalid) :
    OnlyInvalidates (insertArray array d) := by
  intro e he hecard
  have hstands : ∀ x ∈ array, x.storageType = .external → supersedes d x = false →
      x.scanType = .invalid :=
    fun x hx hxcard => invalid_of_not_supersedes (hplain x hx) (hxcard.trans hcard.symm) hinvalid
  rw [insertArray_eq array (by rw [hinvalid]; nofun)] at he
  split at he
  next =>
    obtain ⟨x, hx, rfl⟩ := List.mem_map.mp he
    rw [replaced] at hecard ⊢
    cases hsuper : supersedes d x with
    | true => exact hinvalid
    | false =>
        rw [hsuper] at hecard
        exact hstands x hx hecard hsuper
  next hnone =>
    cases List.mem_append.mp he with
    | inl he =>
        refine hstands e he hecard ?_
        by_contra hsuper
        exact hnone (List.any_eq_true.mpr ⟨e, he, by simpa using hsuper⟩)
    | inr he =>
        rw [List.mem_singleton.mp he]
        exact hinvalid

/-- A request for the other storage replaces nothing of the card. -/
theorem onlyInvalidates_insertArray_of_ne (h : OnlyInvalidates array)
    (hcard : d.storageType ≠ .external) : OnlyInvalidates (insertArray array d) := by
  intro e he hecard
  rcases eq_or_mem_of_mem_insertArray he with rfl | hmem
  · exact absurd hecard hcard
  · exact h e hmem hecard

theorem mem_insertArray_of_ne {e : ScanData} (he : e ∈ array) (hcard : e.storageType = .external)
    (hne : d.storageType ≠ .external) : e ∈ insertArray array d := by
  cases mem_insertArray_or_displaced he with
  | inl hin => exact hin
  | inr hdisplaced =>
      have hsuper := (supersedes_of_mem_displaced hdisplaced).2
      simp only [supersedes, Bool.and_eq_true, decide_eq_true_eq] at hsuper
      exact absurd (hsuper.1.2.symm.trans hcard) hne

end Requests

theorem eq_of_mem_current {pc : Pc} {d e : ScanData} (hd : d ∈ pc.current)
    (he : e ∈ pc.current) : d = e := by
  cases pc with
  | top | returned => cases hd
  | _ => exact (List.mem_singleton.mp hd).trans (List.mem_singleton.mp he).symm

/-- What lies below the path of a request belongs to its storage. -/
theorem StorageRequest.storageType {d : ScanData} {root path : Text} (h : StorageRequest d)
    (hroot : root ∈ d.path) (hunder : Under root path) :
    msGetStorageTypeByFull path = d.storageType := by
  obtain ⟨root', hroot', hstorage⟩ := h.root
  obtain rfl := Option.mem_unique hroot hroot'
  exact msGetStorageTypeByFull_of_under hstorage hunder

section Preservation

variable {th th' : Thread} {plugIns : List PlugIn} {f : Flags} {a : ThreadAct}

/-- The thread moves the head of the queue into the array. -/
theorem Settling.receive {d : ScanData} {queue : List ScanData} (h : Settling th plugIns)
    (hrequests : ∀ e ∈ th.objects, StorageRequest e) (hqueue : th.queue = d :: queue) :
    Settling { th with queue, array := insertArray th.array d } plugIns := by
  have harray : ∀ e ∈ th.array, e.scanType ≠ .powerOff := fun e he =>
    (hrequests e (List.mem_append_left _ (List.mem_append_right _ he))).plain
  by_cases hcard : d.storageType = .external
  · have hext : external th.queue = d :: external queue := by
      rw [hqueue, external_cons_of_eq hcard]
    cases h with
    | queued e hlast hinvalid =>
        rw [hext] at hlast
        cases hrest : external queue with
        | nil =>
            rw [hrest] at hlast
            obtain rfl := Option.some.inj hlast
            exact .pending hrest (onlyInvalidates_insertArray harray hcard hinvalid) d
              (self_mem_insertArray th.array d) hcard
        | cons x rest =>
            rw [hrest, List.getLast?_cons_cons, ← hrest] at hlast
            exact .queued e hlast hinvalid
    | pending hnil | taken hnil | done hnil =>
        rw [hext] at hnil
        cases hnil
  · have hext : external queue = external th.queue := by
      rw [hqueue, external_cons_of_ne hcard]
    cases h with
    | queued e hlast hinvalid => exact .queued e (hext ▸ hlast) hinvalid
    | pending hnil honly e he hecard =>
        exact .pending (hext.trans hnil) (onlyInvalidates_insertArray_of_ne honly hcard) e
          (mem_insertArray_of_ne he hecard hcard) hecard
    | taken hnil honly hcurrent hinv =>
        exact .taken (hext.trans hnil) (onlyInvalidates_insertArray_of_ne honly hcard) hcurrent hinv
    | done hnil honly hcurrent hinvalid =>
        exact .done (hext.trans hnil) (onlyInvalidates_insertArray_of_ne honly hcard) hcurrent
          hinvalid

/-- The thread takes the first request of the array. -/
theorem Settling.take {d : ScanData} {array : List ScanData} {pc : Pc} (h : Settling th plugIns)
    (hqueue : th.queue = []) (harray : th.array = d :: array) (htop : th.pc = .top)
    (hpc : pc = .connectDb d) : Settling { th with array, pc } plugIns := by
  have hnil : external th.queue = [] := by
    rw [hqueue]
    rfl
  have honly : OnlyInvalidates th.array → OnlyInvalidates array ∧
      (d.storageType = .external → d.scanType = .invalid) := fun honly =>
    ⟨fun e he => honly e (harray ▸ List.mem_cons_of_mem _ he),
      honly d (harray ▸ List.mem_cons_self)⟩
  cases h with
  | queued e hlast =>
      rw [hnil] at hlast
      cases hlast
  | pending _ hold e he hecard =>
      rw [harray] at he
      obtain ⟨hrest, hd⟩ := honly hold
      rcases List.mem_cons.mp he with rfl | he
      · refine .taken hnil hrest ?_ ?_
        · rw [hpc]
          intro x hx hxcard
          rw [List.mem_singleton.mp hx]
          exact hd hecard
        · rw [hpc, Pc.invalidates, decide_eq_true hecard, decide_eq_true (hd hecard)]
          rfl
      · exact .pending hnil hrest e he hecard
  | taken _ _ _ hinv =>
      rw [htop] at hinv
      cases hinv
  | done _ hold _ hinvalid =>
      obtain ⟨hrest, hd⟩ := honly hold
      refine .done hnil hrest ?_ hinvalid
      rw [hpc]
      intro x hx hxcard
      rw [List.mem_singleton.mp hx] at hxcard ⊢
      exact hd hxcard

/-- The thread goes on with its request. -/
theorem Settling.goOn {plugIns' : List PlugIn} (h : Settling th plugIns)
    (hqueue : th'.queue = th.queue) (harray : th'.array = th.array)
    (hcurrent : ∀ d ∈ th'.pc.current, d ∈ th.pc.current)
    (hinvalidates : th.pc.invalidates → th'.pc.invalidates ∨ CardInvalid plugIns')
    (hitems : OnlyInvalidates th.pc.current → CardInvalid plugIns → CardInvalid plugIns') :
    Settling th' plugIns' := by
  have hkeeps : OnlyInvalidates th.pc.current → OnlyInvalidates th'.pc.current :=
    fun honly d hd => honly d (hcurrent d hd)
  cases h with
  | queued d hlast hinvalid => exact .queued d (hqueue ▸ hlast) hinvalid
  | pending hnil honly d hd hcard =>
      exact .pending (hqueue ▸ hnil) (harray ▸ honly) d (harray ▸ hd) hcard
  | taken hnil honly hcur hinv =>
      cases hinvalidates hinv with
      | inl hinv => exact .taken (hqueue ▸ hnil) (harray ▸ honly) (hkeeps hcur) hinv
      | inr hinvalid => exact .done (hqueue ▸ hnil) (harray ▸ honly) (hkeeps hcur) hinvalid
  | done hnil honly hcur hinvalid =>
      exact .done (hqueue ▸ hnil) (harray ▸ honly) (hkeeps hcur) (hitems hcur hinvalid)

/-- Every step of the thread keeps the invalidation the last of the requests. -/
theorem Settling.step {plugIns' : List PlugIn} (h : Settling th plugIns)
    (hrequests : ∀ e ∈ th.objects, StorageRequest e) (hth : threadStep f th a = some th')
    (hidle : th.pc.current = [] → plugIns' = plugIns)
    (hbusy : ∀ d ∈ th.pc.current, Succeeds d a ∧ plugIns' = afterAct plugIns d a) :
    Settling th' plugIns' := by
  have hitems : ∀ d, th.pc.current = [d] → (∀ path, a = .scanFile path → d.scanType ≠ .invalid) →
      OnlyInvalidates th.pc.current → CardInvalid plugIns → CardInvalid plugIns' := by
    intro d hcurrent hscan honly hinvalid
    have hd : d ∈ th.pc.current := by
      rw [hcurrent]
      exact List.mem_singleton_self d
    obtain ⟨hsucceeds, rfl⟩ := hbusy d hd
    refine cardInvalid_afterAct hinvalid ?_
      fun path hpath hcard => hscan path hpath (honly d hd hcard)
    rintro path rfl
    obtain ⟨root, hroot, hunder⟩ := hsucceeds
    exact (hrequests d (List.mem_append_right _ hd)).storageType hroot hunder
  have hgo : ∀ {d : ScanData} {pc pc' : Pc}, th.pc = pc → pc.current = [d] →
      (∀ e ∈ pc'.current, e ∈ pc.current) → (∀ path, a ≠ .scanFile path) →
      (pc.invalidates → pc'.invalidates ∨ CardInvalid plugIns') →
      Settling { th with pc := pc' } plugIns' := by
    rintro d pc pc' rfl hcurrent hsub hnot hinv
    exact h.goOn rfl rfl hsub hinv
      (hitems d hcurrent fun path hpath => absurd hpath (hnot path))
  cases threadStep_cases hth with
  | receive hpc hqueue =>
      obtain rfl := hidle (by rw [hpc]; rfl)
      exact h.receive hrequests hqueue
  | takePowerOff hpc hqueue harray htype =>
      refine absurd htype (hrequests _ ?_).plain
      rw [Thread.objects, harray]
      simp
  | take hpc hqueue harray _ =>
      obtain rfl := hidle (by rw [hpc]; rfl)
      exact h.take hqueue harray hpc rfl
  | connected hpc | updating hpc => exact hgo hpc rfl (fun _ he => he) (by rintro _ ⟨⟩) .inl
  | connectFailed hpc =>
      have hfails := (hbusy _ (by rw [hpc]; exact List.mem_singleton_self _)).1
      cases hfails
  | updatingAll hpc htype =>
      refine hgo hpc rfl (fun _ he => he) (by rintro _ ⟨⟩) ?_
      rw [Pc.invalidates, htype]
      simp
  | @scanFile d path hpc htype =>
      exact h.goOn rfl rfl (fun e he => he) .inl (hitems d (by rw [hpc]; rfl) fun _ _ => htype)
  | @invalidate d hpc htype =>
      refine hgo hpc rfl (fun _ he => he) (by rintro _ ⟨⟩) fun hinv => ?_
      rw [Pc.invalidates, Bool.and_eq_true, decide_eq_true_eq] at hinv
      obtain ⟨-, rfl⟩ := hbusy d (by rw [hpc]; exact List.mem_singleton_self d)
      exact .inr (cardInvalid_of_invalidate hinv.1)
  | scanReturn hpc htype =>
      refine hgo hpc rfl (fun _ he => he) (by rintro _ ⟨⟩) ?_
      rw [Pc.invalidates, decide_eq_false htype, Bool.and_false]
      rintro ⟨⟩
  | stopped hpc | scannedPart hpc | scanned hpc | deleteInvalid hpc | updatedCard hpc
  | updated hpc | updateMmcInfo hpc | deleteAll hpc =>
      exact hgo hpc rfl (fun _ he => he) (by rintro _ ⟨⟩) (by rintro ⟨⟩)
  | release hpc | exit hpc =>
      exact hgo hpc rfl (List.forall_mem_nil _) (by rintro _ ⟨⟩) (by rintro ⟨⟩)

end Preservation

section Run

variable {s t : CardServed} {d : ScanData}

theorem objects_push : (s.push d).thread.objects =
    s.thread.queue ++ [d] ++ s.thread.array ++ s.thread.pc.current := rfl

theorem requests_push (h : ∀ e ∈ s.thread.objects, StorageRequest e) (hd : StorageRequest d) :
    ∀ e ∈ (s.push d).thread.objects, StorageRequest e := by
  intro e he
  simp only [objects_push, List.mem_append, List.mem_singleton] at he
  rcases he with ((he | rfl) | he) | he
  · exact h e (List.mem_append_left _ (List.mem_append_left _ he))
  · exact hd
  · exact h e (List.mem_append_left _ (List.mem_append_right _ he))
  · exact h e (List.mem_append_right _ he)

theorem storageRequest_cardRequest (id : Nat) (full : Bool) (status : MmcStatus) :
    StorageRequest (cardRequest id full status) where
  plain := by
    rw [cardRequest]
    split
    · split <;> nofun
    · nofun
  root := ⟨msRootPathExternal, rfl, .inr ⟨rfl, rfl⟩⟩

/-- An invalidation that is pushed is the last request for the card. -/
theorem Settling.push_invalid {plugIns : List PlugIn} (hcard : d.storageType = .external)
    (hinvalid : d.scanType = .invalid) : Settling (s.push d).thread plugIns := by
  refine .queued d ?_ hinvalid
  have hqueue : external (s.push d).thread.queue = external s.thread.queue ++ [d] := by
    simp [CardServed.push, external, hcard]
  rw [hqueue, List.getLast?_concat]

/-- A request for the other storage changes nothing for the card. -/
theorem Settling.push_of_ne {plugIns : List PlugIn} (h : Settling s.thread plugIns)
    (hcard : d.storageType ≠ .external) : Settling (s.push d).thread plugIns := by
  have hqueue : external (s.push d).thread.queue = external s.thread.queue := by
    simp [CardServed.push, external, hcard]
  cases h with
  | queued e hlast hinvalid => exact .queued e (hqueue ▸ hlast) hinvalid
  | pending hnil honly e he hecard => exact .pending (hqueue ▸ hnil) honly e he hecard
  | taken hnil honly hcurrent hinv => exact .taken (hqueue ▸ hnil) honly hcurrent hinv
  | done hnil honly hcurrent hinvalid => exact .done (hqueue ▸ hnil) honly hcurrent hinvalid

theorem RemovalInv.start (plugIns : List PlugIn) : RemovalInv { plugIns } where
  requests d hd := by cases hd
  settling := by
    rintro ⟨-, status, hlast, -⟩
    cases hlast

theorem RemovalInv.step {a : RemovalLabel} (h : RemovalInv s) (ht : removalStep s a = some t) :
    RemovalInv t := by
  cases a with
  | mmcVconfCb status =>
      rw [removalStep] at ht
      split at ht
      · cases ht
      · obtain rfl := Option.some.inj ht
        exact ⟨h.requests, fun hgone => nomatch hgone.1⟩
  | push id full =>
      rw [removalStep] at ht
      split at ht
      next status hpushing hlast =>
        obtain rfl := Option.some.inj ht
        refine ⟨requests_push (s := { s with pushing := false }) h.requests
          (storageRequest_cardRequest id full status), ?_⟩
        rintro ⟨-, status', hstatus', hne⟩
        obtain rfl := Option.mem_unique hlast hstatus'
        exact Settling.push_invalid rfl (if_neg hne)
      next => cases ht
  | internal id full =>
      obtain rfl := Option.some.inj ht
      refine ⟨requests_push h.requests ⟨?_, msRootPathInternal, rfl, .inl ⟨rfl, rfl⟩⟩,
        fun hgone => (h.settling hgone).push_of_ne nofun⟩
      cases full <;> nofun
  | thread seen a =>
      obtain ⟨thread, hthread, ht⟩ := Option.bind_eq_some_iff.mp ht
      have hrequests : ∀ e ∈ thread.objects, StorageRequest e :=
        fun e he => h.requests e (threadStep_objects hthread e he)
      split at ht
      next hcurrent =>
        obtain rfl := Option.some.inj ht
        refine ⟨hrequests, fun hgone => (h.settling hgone).step h.requests hthread
          (fun _ => rfl) fun d hd => ?_⟩
        rw [hcurrent] at hd
        cases hd
      next d rest hcurrent =>
        split at ht
        next hsucceeds =>
          obtain rfl := Option.some.inj ht
          refine ⟨hrequests, fun hgone => (h.settling hgone).step h.requests hthread
            (fun hnil => ?_) fun e he => ?_⟩
          · rw [hcurrent] at hnil
            cases hnil
          · obtain rfl := eq_of_mem_current he (hcurrent ▸ List.mem_cons_self)
            exact ⟨hsucceeds, rfl⟩
        next => cases ht

/-- With the thread at rest, the invalidation has been carried out. -/
theorem RemovalInv.settled (h : RemovalInv s) : Settled s := by
  intro hgone hqueue harray htop
  cases h.settling hgone with
  | queued d hlast =>
      rw [hqueue] at hlast
      cases hlast
  | pending _ _ d hd =>
      rw [harray] at hd
      cases hd
  | taken _ _ _ hinv =>
      rw [htop] at hinv
      cases hinv
  | done _ _ _ hinvalid => exact hinvalid

end Run

/-- A removed card leaves no valid item. -/
theorem removed_card_invalid (plugIns : List PlugIn) (labels : List RemovalLabel) :
    Run.Always removalStep Settled { plugIns } labels :=
  (Run.always_of_step (fun _ _ _ => RemovalInv.step) (RemovalInv.start plugIns)).mono
    fun _ => RemovalInv.settled

/-- The card is removed while its scan is under way. -/
example :
    let path := msRootPathExternal ++ "/a.mp3".toList
    (Run.exec removalStep { plugIns := [{ accepts := fun _ => true }] }
      [.mmcVconfCb .mounted, .push 1 false, .thread .mounted .receive, .thread .mounted .take,
        .thread .mounted (.connectDb true), .thread .mounted .setUpdating,
        .thread .mounted (.scanFile path), .mmcVconfCb .removed, .push 2 false,
        .thread .removed .scanReturn, .thread .removed .testPowerOff,
        .thread .removed (.deleteInvalidItems true), .thread .removed .setUpdated,
        .thread .removed .release, .thread .removed .receive, .thread .removed .take,
        .thread .removed (.connectDb true), .thread .removed .setUpdating,
        .thread .removed .invalidateAllItems]).map (fun s => s.plugIns.map PlugIn.db) =
      some [[⟨path, false⟩]] := by
  decide

end MediaServer.Scan
