import MediaServer.Foundation.Run
import MediaServer.Scan.Thread

/-!
# Which card the items came from

The key `MS_MMC_INFO_KEY` holds the cid of the last card that was scanned in
full. When a card with that cid is mounted, `ms_get_mmc_state` asks for a partial
scan, which keeps the items of the database. The key and the items are written
at different moments: a full scan deletes the items first and saves the cid last,
reading it again from sysfs.

The cid of a card cannot be read when a directory of its host, or its file, does not open;
then the empty string is compared and saved. vconf can fail, too.

Cards form an arbitrary type; a missing cid stands for the empty string. An item
records the card that was mounted when it was inserted, which no step reads.
-/

namespace MediaServer.Scan

inductive Slot (Card : Type) where
  | empty
  /-- Visible in sysfs only. -/
  | inserted (card : Card)
  | mounted (card : Card)
deriving DecidableEq, Repr

/-- The card that sysfs shows. -/
def Slot.cid {Card : Type} : Slot Card → Option Card
  | .empty => none
  | .inserted c | .mounted c => some c

/-- An item of the external storage. -/
structure Item (Card : Type) where
  path : Text
  card : Card
  valid : Bool
deriving DecidableEq, Repr

/-- The main thread: not running, in its loop, or about to call
`ms_get_mmc_state` in `main` or `ms_mmc_vconf_cb`. -/
inductive MainLoop where
  | off
  | idle
  | mounting
deriving DecidableEq, Repr

/-- The slot, the database and the key survive a crash. -/
structure CardServer (Card : Type) where
  slot : Slot Card
  /-- The directory of the host and the cid file open. -/
  readable : Bool := true
  /-- `ms_config_get_str` and `ms_config_set_str` get through. -/
  vconf : Bool := true
  items : List (Item Card) := []
  saved : Option (Option Card) := none
  main : MainLoop := .off
  thread : Thread := {}
  flags : Flags := {}
deriving DecidableEq, Repr

inductive CardLabel (Card : Type) where
  | slot (slot : Slot Card)
  | sysfs (readable : Bool)
  | vconf (vconf : Bool)
  /-- `_db_clear` and the rest of `main`, up to the request for the card. -/
  | boot (mmcInserted : Bool)
  | mmcVconfCb (id : Nat) (status : MmcStatus)
  | getMmcState (id : Nat)
  | powerOff (id : Nat) (storageType : StorageType)
  | thread (a : ThreadAct)
  | crash
deriving DecidableEq, Repr

variable {Card : Type}

/-- `ms_insert_item_batch`, and `ms_validate_item` in a partial scan. A path has
one item. -/
def recordItem (items : List (Item Card)) (scanType : ScanType) (path : Text) (card : Card) :
    List (Item Card) :=
  if ∃ i ∈ items, i.path = path then
    if scanType = .part then
      items.map fun i => if i.path = path then { i with valid := true } else i
    else items
  else items ++ [{ path, card, valid := true }]

namespace CardServer

def push (s : CardServer Card) (d : ScanData) : CardServer Card :=
  { s with thread := { s.thread with queue := s.thread.queue ++ [d] } }

def cardRequest (id : Nat) (scanType : ScanType) : ScanData :=
  { id, path := some msRootPathExternal, storageType := .external, scanType }

/-- `_ms_get_mmc_info`: the cid that it leaves in the buffer. -/
def msGetMmcInfo (s : CardServer Card) : Option Card := if s.readable then s.slot.cid else none

/-- `ms_get_mmc_state`. -/
def msGetMmcState [DecidableEq Card] (s : CardServer Card) : ScanType :=
  if s.vconf ∧ s.saved = some s.msGetMmcInfo then .part else .all

/-- The effect of a step for an external request on the items and the key. A file
can only be read from the mounted card. -/
def afterThread (s : CardServer Card) (d : ScanData) : ThreadAct → Option (CardServer Card)
  | .deleteAllItems ok => some { s with items := if ok then [] else s.items }
  | .scanFile path =>
      match s.slot with
      | .mounted c => some { s with items := recordItem s.items d.scanType path c }
      | _ => none
  | .invalidateAllItems =>
      some { s with items := s.items.map fun i => { i with valid := false } }
  | .deleteInvalidItems ok =>
      some { s with items := if ok then s.items.filter (·.valid) else s.items }
  | .updateMmcInfo => some (if s.vconf then { s with saved := some s.msGetMmcInfo } else s)
  | _ => some s

end CardServer

/-- The external request that the thread handles. -/
def Pc.external? (pc : Pc) : Option ScanData :=
  pc.current.find? fun d => d.storageType = .external

def cardStep [DecidableEq Card] (s : CardServer Card) : CardLabel Card → Option (CardServer Card)
  | .slot slot => some { s with slot }
  | .sysfs readable => some { s with readable }
  | .vconf vconf => some { s with vconf }
  | .boot mmcInserted =>
      if s.main = .off then
        some { s with
          items := s.items.map fun i => { i with valid := false }
          main := if mmcInserted then .mounting else .idle
          flags := if mmcInserted then { s.flags with mmcState := .mounted } else s.flags }
      else none
  | .mmcVconfCb id status =>
      if s.main = .idle then
        let s := { s with flags := { s.flags with mmcState := status } }
        some (if status = .mounted then { s with main := .mounting }
          else s.push (CardServer.cardRequest id .invalid))
      else none
  | .getMmcState id =>
      if s.main = .mounting then
        some ({ s with main := .idle }.push (CardServer.cardRequest id s.msGetMmcState))
      else none
  | .powerOff id storageType =>
      if s.main = .idle then
        some ({ s with flags := { s.flags with powerOff := true } }.push
          { id, path := none, storageType, scanType := .powerOff })
      else none
  | .thread a =>
      if s.main = .off then none
      else
        (threadStep s.flags s.thread a).bind fun thread =>
          match s.thread.pc.external? with
          | none => some { s with thread }
          | some d => (s.afterThread d a).map fun t => { t with thread }
  | .crash =>
      some
        { slot := s.slot
          readable := s.readable
          vconf := s.vconf
          items := s.items
          saved := s.saved }

/-- When the present card is answered with a partial scan, every external item
was inserted from it. -/
def CardIdentified [DecidableEq Card] (s : CardServer Card) : CardLabel Card → Prop
  | .getMmcState _ => ∀ c ∈ s.slot.cid, s.msGetMmcState = .part → ∀ i ∈ s.items, i.card = c
  | _ => True

/-- The items are those of the card whose cid is saved. -/
def Tied (s : CardServer Card) : Prop :=
  ∀ key ∈ s.saved, ∀ c ∈ key, ∀ i ∈ s.items, i.card = c

/-- The items come from one card, and no other card is present. -/
def Uniform (s : CardServer Card) : Prop :=
  (∀ i ∈ s.items, ∀ j ∈ s.items, i.card = j.card) ∧ ∀ c ∈ s.slot.cid, ∀ i ∈ s.items, i.card = c

/-- A full scan of the card is between its deletion of the items and the saving
of the cid. -/
def Pc.cardScan : Pc → Bool
  | .dirScan d | .scanned d | .updated d | .updateMmcInfo d =>
      d.storageType = .external && d.scanType = .all
  | _ => false

instance [DecidableEq Card] (s : CardServer Card) : Decidable (Tied s) :=
  inferInstanceAs (Decidable (∀ key ∈ s.saved, ∀ c ∈ key, ∀ i ∈ s.items, i.card = c))

instance [DecidableEq Card] (s : CardServer Card) : Decidable (Uniform s) :=
  inferInstanceAs (Decidable ((∀ i ∈ s.items, ∀ j ∈ s.items, i.card = j.card) ∧
    ∀ c ∈ s.slot.cid, ∀ i ∈ s.items, i.card = c))

instance [DecidableEq Card] (s : CardServer Card) : (l : CardLabel Card) →
    Decidable (CardIdentified s l)
  | .getMmcState _ => inferInstanceAs (Decidable (∀ c ∈ s.slot.cid, _ → ∀ i ∈ s.items, i.card = c))
  | .slot _ | .sysfs _ | .vconf _ | .boot _ | .mmcVconfCb .. | .powerOff .. | .thread _
  | .crash => isTrue trivial

/-- What the cards, the power and the plug-ins must not do. During a full scan no
card but the scanned one is put in, and the scan is cut off by neither a
power-off nor a crash while the key names another card than the items come from;
its deletion does not fail over the items of another card. Neither does the saving of the
cid fail while the key names another card. A partial scan finds new files on the card of the
saved cid only. A card whose cid cannot be read does not meet an empty key over the items of
another card. -/
def CardOk (s : CardServer Card) : CardLabel Card → Prop
  | .slot slot => s.thread.pc.cardScan → ∀ c ∈ slot.cid, ∀ i ∈ s.items, i.card = c
  | .thread (.deleteAllItems false) => s.thread.pc.external?.isSome → Uniform s
  | .thread (.scanFile path) =>
      ¬ s.thread.pc.cardScan → s.thread.pc.external?.isSome → (∃ i ∈ s.items, i.path = path) ∨
        ∀ key ∈ s.saved, ∀ c ∈ key, s.slot.cid = some c
  | .thread .testPowerOff => s.thread.pc.cardScan → s.flags.powerOff → Tied s
  | .thread .updateMmcInfo => s.thread.pc.cardScan → ¬ s.vconf → Tied s
  | .getMmcState _ =>
      s.vconf → ¬ s.readable → s.saved = some none → ∀ c ∈ s.slot.cid, ∀ i ∈ s.items, i.card = c
  | .crash => s.thread.pc.cardScan → Tied s
  | _ => True

instance [DecidableEq Card] (s : CardServer Card) : (l : CardLabel Card) → Decidable (CardOk s l)
  | .slot slot => inferInstanceAs (Decidable (_ → ∀ c ∈ slot.cid, ∀ i ∈ s.items, i.card = c))
  | .thread (.deleteAllItems false) => inferInstanceAs (Decidable (_ → Uniform s))
  | .thread (.scanFile path) =>
      inferInstanceAs (Decidable (¬ _ → _ → (∃ i ∈ s.items, i.path = path) ∨
        ∀ key ∈ s.saved, ∀ c ∈ key, s.slot.cid = some c))
  | .thread .testPowerOff => inferInstanceAs (Decidable (_ → _ → Tied s))
  | .thread .updateMmcInfo => inferInstanceAs (Decidable (_ → ¬ _ → Tied s))
  | .getMmcState _ =>
      inferInstanceAs (Decidable (_ → ¬ _ → s.saved = some none →
        ∀ c ∈ s.slot.cid, ∀ i ∈ s.items, i.card = c))
  | .crash => inferInstanceAs (Decidable (_ → Tied s))
  | .sysfs _ | .vconf _ | .boot _ | .mmcVconfCb .. | .powerOff .. | .thread .receive
  | .thread .take | .thread (.connectDb _) | .thread .setUpdating
  | .thread (.deleteAllItems true) | .thread .invalidateAllItems | .thread .scanReturn
  | .thread (.deleteInvalidItems _) | .thread .setUpdated | .thread .release | .thread .exit =>
      isTrue trivial

/-- The types of the requests that reach the last steps of the thread. -/
structure PcTyped (pc : Pc) : Prop where
  pruning : ∀ d, pc = .deleteInvalid d → d.scanType = .part
  saving : ∀ d, pc = .updateMmcInfo d → pc.cardScan = true

theorem threadStep_typed {f : Flags} {th th' : Thread} {a : ThreadAct} (h : PcTyped th.pc)
    (hth : threadStep f th a = some th') : PcTyped th'.pc := by
  cases threadStep_cases hth with
  | receive => exact h
  | scanFile => exact h
  | scannedPart _ _ htype => exact ⟨by rintro d ⟨⟩; exact htype, by rintro d ⟨⟩⟩
  | updatedCard _ hstorage htype =>
      exact ⟨by rintro d ⟨⟩, by rintro d ⟨⟩; simp [Pc.cardScan, hstorage, htype]⟩
  | _ => exact ⟨by rintro d ⟨⟩, by rintro d ⟨⟩⟩

/-- A full scan of the card begins with its deletion of the items. -/
theorem cardScan_begins {f : Flags} {th th' : Thread} {a : ThreadAct} (h : PcTyped th.pc)
    (hth : threadStep f th a = some th') (before : th.pc.cardScan = false)
    (after : th'.pc.cardScan = true) :
    ∃ d ok, th.pc.external? = some d ∧ a = .deleteAllItems ok := by
  cases threadStep_cases hth with
  | @deleteAll d ok hpc =>
      simp only [Pc.cardScan, Bool.and_eq_true, decide_eq_true_eq] at after
      exact ⟨d, ok, by simp [Pc.external?, hpc, Pc.current, after.1], rfl⟩
  | updating _ htype => simp [Pc.cardScan, htype] at after
  | deleteInvalid hpc => simp [Pc.cardScan, h.pruning _ hpc] at after
  | receive | scanFile => rw [before] at after; cases after
  | updatedCard hpc | invalidate hpc | scanReturn hpc | scanned hpc =>
      rw [hpc] at before
      exact absurd (before.symm.trans after) nofun
  | _ => cases after

/-- It ends with the saving of the cid, or with a power-off. -/
theorem cardScan_ends {f : Flags} {th th' : Thread} {a : ThreadAct}
    (hth : threadStep f th a = some th') (before : th.pc.cardScan = true)
    (after : th'.pc.cardScan = false) :
    a = .updateMmcInfo ∨ (a = .testPowerOff ∧ f.powerOff = true) := by
  cases threadStep_cases hth with
  | updateMmcInfo => exact .inl rfl
  | stopped _ hoff => exact .inr ⟨rfl, hoff⟩
  | scannedPart hpc _ htype => simp [hpc, Pc.cardScan, htype] at before
  | updated hpc hcard =>
      rw [hpc] at before
      exact absurd (by simpa [Pc.cardScan] using before) hcard
  | receive | scanFile => rw [before] at after; cases after
  | updatedCard hpc | invalidate hpc | scanReturn hpc | scanned hpc =>
      rw [hpc] at before
      exact absurd (before.symm.trans after) nofun
  | takePowerOff hpc | take hpc | connected hpc | connectFailed hpc | updatingAll hpc
  | updating hpc | deleteAll hpc | deleteInvalid hpc | release hpc | exit hpc =>
      rw [hpc] at before
      cases before

structure CardInv (s : CardServer Card) : Prop where
  scanning : s.thread.pc.cardScan = true → Uniform s
  resting : s.thread.pc.cardScan = false → Tied s
  typed : PcTyped s.thread.pc

section Preservation

variable {s t : CardServer Card}

/-- No new card among the items. -/
def CardsFrom (t s : CardServer Card) : Prop := ∀ i ∈ t.items, ∃ j ∈ s.items, j.card = i.card

theorem cardsFrom_of_eq (h : t.items = s.items) : CardsFrom t s :=
  fun i hi => ⟨i, h ▸ hi, rfl⟩

theorem Tied.mono (h : Tied s) (items : CardsFrom t s) (saved : t.saved = s.saved) : Tied t := by
  intro key hkey c hc i hi
  obtain ⟨j, hj, hcard⟩ := items i hi
  exact hcard ▸ h key (saved ▸ hkey) c hc j hj

theorem Uniform.mono (h : Uniform s) (items : CardsFrom t s) (slot : t.slot = s.slot) :
    Uniform t := by
  refine ⟨fun i hi j hj => ?_, fun c hc i hi => ?_⟩
  · obtain ⟨i', hi', hcard⟩ := items i hi
    obtain ⟨j', hj', hcard'⟩ := items j hj
    rw [← hcard, ← hcard', h.1 i' hi' j' hj']
  · obtain ⟨i', hi', hcard⟩ := items i hi
    exact hcard ▸ h.2 c (slot ▸ hc) i' hi'

/-- Steps that add no item and touch neither the card nor the key. -/
theorem CardInv.mono (h : CardInv s) (items : CardsFrom t s) (slot : t.slot = s.slot)
    (saved : t.saved = s.saved) (pc : t.thread.pc = s.thread.pc) : CardInv t where
  scanning hscan := (h.scanning (pc ▸ hscan)).mono items slot
  resting hrest := (h.resting (pc ▸ hrest)).mono items saved
  typed := pc ▸ h.typed

/-- What is read is the card in the slot. -/
theorem mem_slot_of_info {c : Card} (h : c ∈ s.msGetMmcInfo) : c ∈ s.slot.cid := by
  rw [CardServer.msGetMmcInfo] at h
  split at h
  next => exact h
  next => cases h

/-- The full scan has saved the cid that it read. -/
theorem Uniform.tied (h : Uniform s) : Tied { s with saved := some s.msGetMmcInfo } := by
  intro key hkey c hc i hi
  obtain rfl := Option.mem_some_iff.mp hkey
  exact h.2 c (mem_slot_of_info hc) i hi

theorem cardsFrom_map {f : Item Card → Item Card} (hf : ∀ i, (f i).card = i.card)
    (h : t.items = s.items.map f) : CardsFrom t s := by
  intro i hi
  rw [h] at hi
  obtain ⟨j, hj, rfl⟩ := List.mem_map.mp hi
  exact ⟨j, hj, (hf j).symm⟩

/-- A recorded file is an item of before or one of the present card. -/
theorem mem_recordItem {items : List (Item Card)} {scanType : ScanType} {path : Text} {card : Card}
    {i : Item Card} (hi : i ∈ recordItem items scanType path card) :
    (∃ j ∈ items, j.card = i.card) ∨ (i.card = card ∧ ¬ ∃ j ∈ items, j.path = path) := by
  rw [recordItem] at hi
  split at hi
  next =>
    split at hi
    next =>
      obtain ⟨j, hj, rfl⟩ := List.mem_map.mp hi
      exact .inl ⟨j, hj, by split <;> rfl⟩
    next => exact .inl ⟨i, hi, rfl⟩
  next hnew =>
    cases List.mem_append.mp hi with
    | inl hold => exact .inl ⟨i, hold, rfl⟩
    | inr hadded =>
        obtain rfl := List.mem_singleton.mp hadded
        exact .inr ⟨rfl, hnew⟩

theorem Uniform.recordItem (h : Uniform s) {c : Card} (hslot : s.slot = .mounted c)
    (scanType : ScanType) (path : Text) :
    Uniform { s with items := recordItem s.items scanType path c } := by
  have hcard : ∀ i ∈ Scan.recordItem s.items scanType path c, i.card = c := by
    intro i hi
    rcases mem_recordItem hi with ⟨j, hj, hcard⟩ | ⟨hcard, -⟩
    · exact hcard ▸ h.2 c (by rw [hslot]; rfl) j hj
    · exact hcard
  refine ⟨fun i hi j hj => (hcard i hi).trans (hcard j hj).symm, fun b hb i hi => ?_⟩
  obtain rfl : c = b := by simpa [hslot, Slot.cid] using hb
  exact hcard i hi

theorem Tied.recordItem (h : Tied s) {c : Card} (hslot : s.slot = .mounted c) {path : Text}
    (hsaved : (∃ i ∈ s.items, i.path = path) ∨ ∀ key ∈ s.saved, ∀ b ∈ key, s.slot.cid = some b)
    (scanType : ScanType) : Tied { s with items := recordItem s.items scanType path c } := by
  intro key hkey b hb i hi
  rcases mem_recordItem hi with ⟨j, hj, hcard⟩ | ⟨hcard, hnew⟩
  · exact hcard ▸ h key hkey b hb j hj
  · have hpresent := (hsaved.resolve_left hnew) key hkey b hb
    rw [hslot] at hpresent
    exact hcard.trans (Option.some.inj hpresent)

end Preservation

section Thread

variable {s t : CardServer Card} {thread : Thread} {a : ThreadAct} {d : ScanData}

theorem afterThread_thread (ht : s.afterThread d a = some t) : t.thread = s.thread := by
  rw [CardServer.afterThread.eq_def] at ht
  cases a
  case scanFile path =>
    simp only at ht
    split at ht
    next => exact Option.some.inj ht ▸ rfl
    next => cases ht
  case updateMmcInfo =>
    obtain rfl := Option.some.inj ht
    split <;> rfl
  all_goals exact Option.some.inj ht ▸ rfl

/-- What a step does to the items and the key, before the thread moves on. -/
theorem afterThread_inv (h : CardInv s) (good : CardOk s (.thread a))
    (hth : threadStep s.flags s.thread a = some thread)
    (hd : s.thread.pc.external? = some d) (ht : s.afterThread d a = some t) : CardInv t := by
  cases a
  case deleteAllItems ok =>
    obtain rfl := Option.some.inj ht
    cases ok with
    | true => exact h.mono nofun rfl rfl rfl
    | false => exact h
  case scanFile path =>
    simp only [CardServer.afterThread] at ht
    split at ht
    next c hslot =>
      obtain rfl := Option.some.inj ht
      refine ⟨fun hscan => (h.scanning hscan).recordItem hslot _ _, fun hrest => ?_, h.typed⟩
      exact (h.resting hrest).recordItem hslot
        (good (by simpa using hrest) (by rw [hd]; rfl)) _
    next => cases ht
  case invalidateAllItems =>
    obtain rfl := Option.some.inj ht
    exact h.mono (cardsFrom_map (f := fun i => { i with valid := false }) (fun _ => rfl) rfl)
      rfl rfl rfl
  case deleteInvalidItems ok =>
    obtain rfl := Option.some.inj ht
    refine h.mono (fun i hi => ⟨i, ?_, rfl⟩) rfl rfl rfl
    cases ok with
    | true => exact List.mem_of_mem_filter hi
    | false => exact hi
  case updateMmcInfo =>
    obtain rfl := Option.some.inj ht
    cases threadStep_cases hth with
    | updateMmcInfo hpc =>
        have hscan := h.typed.saving _ hpc
        split
        next =>
          exact ⟨fun _ => h.scanning hscan, fun hrest => absurd hscan (by simpa using hrest),
            h.typed⟩
        next => exact h
  all_goals exact Option.some.inj ht ▸ h

theorem threadStep_cardInv (h : CardInv s) (good : CardOk s (.thread a))
    (hth : threadStep s.flags s.thread a = some thread)
    (hd : s.thread.pc.external? = some d) (ht : s.afterThread d a = some t) :
    CardInv { t with thread } := by
  have hinv := afterThread_inv h good hth hd ht
  have hsame := afterThread_thread ht
  have htyped := threadStep_typed h.typed hth
  refine ⟨fun hafter => ?_, fun hafter => ?_, htyped⟩
  · cases hbefore : s.thread.pc.cardScan with
    | true => exact hinv.scanning (hsame ▸ hbefore)
    | false =>
        obtain ⟨-, ok, -, rfl⟩ := cardScan_begins h.typed hth hbefore hafter
        obtain rfl := Option.some.inj ht
        cases ok with
        | true => exact ⟨nofun, nofun⟩
        | false => exact good (by rw [hd]; rfl)
  · cases hbefore : s.thread.pc.cardScan with
    | false => exact hinv.resting (hsame ▸ hbefore)
    | true =>
        rcases cardScan_ends hth hbefore hafter with rfl | ⟨rfl, hoff⟩
        · obtain rfl := Option.some.inj ht
          split
          next => exact (h.scanning hbefore).tied
          next hvconf => exact good hbefore hvconf
        · obtain rfl := Option.some.inj ht
          exact good hbefore hoff

/-- A request for another storage has no effect here. -/
theorem threadStep_cardInv_internal (h : CardInv s)
    (hth : threadStep s.flags s.thread a = some thread) (hd : s.thread.pc.external? = none) :
    CardInv { s with thread } := by
  have hbefore : s.thread.pc.cardScan = false := by
    cases hpc : s.thread.pc with
    | dirScan e | scanned e | updated e | updateMmcInfo e =>
        have hstorage : ¬ e.storageType = .external := by
          simpa [hpc, Pc.external?, Pc.current] using hd
        simp [Pc.cardScan, hstorage]
    | _ => rfl
  refine ⟨fun hafter => ?_, fun _ => h.resting hbefore, threadStep_typed h.typed hth⟩
  obtain ⟨d, -, hsome, -⟩ := cardScan_begins h.typed hth hbefore hafter
  rw [hd] at hsome
  cases hsome

end Thread

theorem cardStep_inv [DecidableEq Card] {s t : CardServer Card} {l : CardLabel Card}
    (h : CardInv s) (good : CardOk s l) (hstep : cardStep s l = some t) : CardInv t := by
  cases l with
  | slot slot =>
      obtain rfl := Option.some.inj hstep
      exact ⟨fun hscan => ⟨(h.scanning hscan).1, good hscan⟩, h.resting, h.typed⟩
  | sysfs | vconf => exact Option.some.inj hstep ▸ h.mono (cardsFrom_of_eq rfl) rfl rfl rfl
  | boot mmcInserted =>
      simp only [cardStep] at hstep
      split at hstep
      next =>
        obtain rfl := Option.some.inj hstep
        exact h.mono (cardsFrom_map (f := fun i => { i with valid := false }) (fun _ => rfl) rfl)
          rfl rfl rfl
      next => cases hstep
  | mmcVconfCb id status =>
      simp only [cardStep] at hstep
      split at hstep
      next =>
        obtain rfl := Option.some.inj hstep
        split
        · exact h.mono (cardsFrom_of_eq rfl) rfl rfl rfl
        · exact h.mono (cardsFrom_of_eq rfl) rfl rfl rfl
      next => cases hstep
  | getMmcState id =>
      simp only [cardStep] at hstep
      split at hstep
      next =>
        obtain rfl := Option.some.inj hstep
        exact h.mono (cardsFrom_of_eq rfl) rfl rfl rfl
      next => cases hstep
  | powerOff id storageType =>
      simp only [cardStep] at hstep
      split at hstep
      next =>
        obtain rfl := Option.some.inj hstep
        exact h.mono (cardsFrom_of_eq rfl) rfl rfl rfl
      next => cases hstep
  | thread a =>
      simp only [cardStep] at hstep
      split at hstep
      next => cases hstep
      next =>
        obtain ⟨thread, hth, heffect⟩ := Option.bind_eq_some_iff.mp hstep
        split at heffect
        next hd => exact Option.some.inj heffect ▸ threadStep_cardInv_internal h hth hd
        next d hd =>
          obtain ⟨u, hu, rfl⟩ := Option.map_eq_some_iff.mp heffect
          exact threadStep_cardInv h good hth hd hu
  | crash =>
      obtain rfl := Option.some.inj hstep
      refine ⟨nofun, fun _ => ?_, ⟨nofun, nofun⟩⟩
      cases hscan : s.thread.pc.cardScan with
      | true => exact good hscan
      | false => exact h.resting hscan

/-- In every run whose steps meet `CardOk`, from a database without external
items, a partial scan is asked for only over items of the present card. -/
theorem card_identified [DecidableEq Card] (slot : Slot Card) (saved : Option (Option Card))
    (labels : List (CardLabel Card))
    (good : Run.EachStep cardStep CardOk { slot, saved } labels) :
    Run.EachStep cardStep CardIdentified { slot, saved } labels := by
  refine Run.eachStep_of_eachStep (I := CardInv) (G := CardOk)
    (fun _ _ _ h hg hstep => cardStep_inv h hg hstep) ?_ ?_ good
  · intro s l t h hg hstep
    cases l with
    | getMmcState id =>
        intro c hc hpart i hi
        cases hscan : s.thread.pc.cardScan with
        | true => exact (h.scanning hscan).2 c hc i hi
        | false =>
            rw [CardServer.msGetMmcState] at hpart
            split at hpart
            next hsame =>
              obtain ⟨hvconf, hsaved⟩ := hsame
              rw [CardServer.msGetMmcInfo] at hsaved
              split at hsaved
              next => exact h.resting hscan _ hsaved c hc i hi
              next hunread => exact hg hvconf hunread hsaved c hc i hi
            next => cases hpart
    | _ => trivial
  · refine ⟨nofun, fun _ key _ c _ i hi => ?_, ⟨nofun, nofun⟩⟩
    cases hi

/-- A boot with a card, whose scan request is taken up to its deletion. -/
def bootAndScan (Card : Type) : List (CardLabel Card) :=
  [.boot true, .getMmcState 0, .thread .receive, .thread .take, .thread (.connectDb true),
    .thread .setUpdating, .thread (.deleteAllItems true), .thread (.scanFile "song".toList)]

/-- The scan of a card runs to its end, and the card is mounted again; another card, whose
cid cannot be read, does not pass for it. -/
theorem card_identified_again :
    Run.EachStep cardStep CardIdentified { slot := .mounted 0, saved := none }
      (bootAndScan Nat ++ [.thread .scanReturn, .thread .testPowerOff, .thread .setUpdated,
        .thread .updateMmcInfo, .thread .release, .slot .empty, .mmcVconfCb 1 .removed,
        .slot (.mounted 0), .mmcVconfCb 2 .mounted, .getMmcState 3, .slot .empty,
        .mmcVconfCb 4 .removed, .slot (.mounted 1), .sysfs false, .mmcVconfCb 5 .mounted,
        .getMmcState 6]) :=
  card_identified _ _ _ (by decide)

/-- The scan of card 1 is cut off by a power-off while the key names card 0,
which is in the slot at the next boot. -/
theorem card_misidentified :
    ¬ Run.EachStep cardStep CardIdentified { slot := .mounted 1, saved := some (some 0) }
      (bootAndScan Nat ++ [.powerOff 1 .internal, .thread .scanReturn, .thread .testPowerOff,
        .thread .exit, .crash, .slot (.mounted 0), .boot true, .getMmcState 2]) := by
  decide

end MediaServer.Scan
