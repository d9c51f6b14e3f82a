import MediaServer.Scan.Array

/-!
# The scan thread

`ms_scan_thread` takes requests from `scan_queue` into its array, and handles
the first pending one when the queue is empty. One step below is one statement
of the loop that another party can notice: it writes a persistent key, calls
into the plug-ins, or reads a flag that another thread sets. The calls that only
open or close a plug-in's bundle commit are part of the step before them.

The thread runs inside several systems, which give its steps their effect: the
persistent status, the items of the memory card, the request objects.
-/

namespace MediaServer.Scan

/-- `VCONFKEY_SYSMAN_MMC_STATUS` and its copy `mmc_state`. -/
inductive MmcStatus where
  | removed
  | mounted
  | insertedNotMounted
deriving DecidableEq, Repr

/-- The global flags that the thread reads. -/
structure Flags where
  powerOff : Bool := false
  mmcState : MmcStatus := .removed
deriving DecidableEq, Repr

/-- The two tests at every entry of `_ms_dir_scan`. -/
def Flags.stops (f : Flags) (d : ScanData) : Bool :=
  f.powerOff || (f.mmcState ≠ .mounted && d.storageType = .external)

/-- The place in `ms_scan_thread`, with the request being handled. -/
inductive Pc where
  /-- The head of the loop. -/
  | top
  | connectDb (d : ScanData)
  /-- `ms_set_db_status(MS_DB_UPDATING)` is next. -/
  | updating (d : ScanData)
  | deleteAll (d : ScanData)
  /-- Inside `_ms_dir_scan`. -/
  | dirScan (d : ScanData)
  /-- The test of `power_off` behind it. -/
  | scanned (d : ScanData)
  | deleteInvalid (d : ScanData)
  /-- `ms_set_db_status(MS_DB_UPDATED)` is next. -/
  | updated (d : ScanData)
  | updateMmcInfo (d : ScanData)
  /-- The two frees at the end of an iteration. -/
  | release (d : ScanData)
  /-- The label `POWER_OFF`. -/
  | powerOff (d : ScanData)
  | returned
deriving DecidableEq, Repr

/-- The object that `scan_data` points to while a request is handled. -/
def Pc.current : Pc → List ScanData
  | .connectDb d | .updating d | .deleteAll d | .dirScan d | .scanned d | .deleteInvalid d
  | .updated d | .updateMmcInfo d | .release d | .powerOff d => [d]
  | .top | .returned => []

/-- What a step of the thread does. The outcomes of plug-in calls and the entries
that `readdir_r` returns belong to the step. -/
inductive ThreadAct where
  /-- Move the head of the queue into the array. -/
  | receive
  /-- Take the first pending request; the queue is empty. -/
  | take
  | connectDb (ok : Bool)
  | setUpdating
  | deleteAllItems (ok : Bool)
  /-- Hand one regular file to `ms_validate_item` or `ms_insert_item_batch`. -/
  | scanFile (path : Text)
  /-- `ms_invalidate_all_items` for a request of type `MS_SCAN_INVALID`. -/
  | invalidateAllItems
  /-- `_ms_dir_scan` returns, having run to its end or been stopped. -/
  | scanReturn
  | testPowerOff
  | deleteInvalidItems (ok : Bool)
  | setUpdated
  | updateMmcInfo
  | release
  | exit
deriving DecidableEq, Repr

structure Thread where
  queue : List ScanData := []
  array : List ScanData := []
  pc : Pc := .top
deriving DecidableEq, Repr

/-- One step of the thread, `none` where the program counter does not allow it. -/
def threadStep (f : Flags) (th : Thread) : ThreadAct → Option Thread
  | .receive =>
      match th.pc, th.queue with
      | .top, d :: queue => some { th with queue, array := insertArray th.array d }
      | _, _ => none
  | .take =>
      match th.pc, th.queue, th.array with
      | .top, [], d :: array =>
          some { th with array, pc := if d.scanType = .powerOff then .powerOff d else .connectDb d }
      | _, _, _ => none
  | .connectDb ok =>
      match th.pc with
      | .connectDb d => some { th with pc := if ok then .updating d else .top }
      | _ => none
  | .setUpdating =>
      match th.pc with
      | .updating d =>
          some { th with pc := if d.scanType = .all then .deleteAll d else .dirScan d }
      | _ => none
  | .deleteAllItems _ =>
      match th.pc with
      | .deleteAll d => some { th with pc := .dirScan d }
      | _ => none
  | .scanFile _ =>
      match th.pc with
      | .dirScan d => if d.scanType ≠ .invalid ∧ ¬ f.stops d then some th else none
      | _ => none
  | .invalidateAllItems =>
      match th.pc with
      | .dirScan d => if d.scanType = .invalid then some { th with pc := .scanned d } else none
      | _ => none
  | .scanReturn =>
      match th.pc with
      | .dirScan d => if d.scanType ≠ .invalid then some { th with pc := .scanned d } else none
      | _ => none
  | .testPowerOff =>
      match th.pc with
      | .scanned d =>
          some { th with
            pc := if f.powerOff then .powerOff d
              else if d.scanType = .part then .deleteInvalid d else .updated d }
      | _ => none
  | .deleteInvalidItems _ =>
      match th.pc with
      | .deleteInvalid d => some { th with pc := .updated d }
      | _ => none
  | .setUpdated =>
      match th.pc with
      | .updated d =>
          some { th with
            pc := if d.storageType = .external ∧ d.scanType = .all then .updateMmcInfo d
              else .release d }
      | _ => none
  | .updateMmcInfo =>
      match th.pc with
      | .updateMmcInfo d => some { th with pc := .release d }
      | _ => none
  | .release =>
      match th.pc with
      | .release _ => some { th with pc := .top }
      | _ => none
  | .exit =>
      match th.pc with
      | .powerOff _ => some { th with pc := .returned }
      | _ => none

/-- Everything a step can do, with the guards it has passed. -/
inductive Stepped (f : Flags) (th : Thread) : ThreadAct → Thread → Prop where
  | receive {d : ScanData} {queue : List ScanData} : th.pc = .top → th.queue = d :: queue →
      Stepped f th .receive { th with queue, array := insertArray th.array d }
  | takePowerOff {d : ScanData} {array : List ScanData} : th.pc = .top → th.queue = [] →
      th.array = d :: array → d.scanType = .powerOff →
      Stepped f th .take { th with array, pc := .powerOff d }
  | take {d : ScanData} {array : List ScanData} : th.pc = .top → th.queue = [] →
      th.array = d :: array → d.scanType ≠ .powerOff →
      Stepped f th .take { th with array, pc := .connectDb d }
  | connected {d : ScanData} : th.pc = .connectDb d →
      Stepped f th (.connectDb true) { th with pc := .updating d }
  | connectFailed {d : ScanData} : th.pc = .connectDb d →
      Stepped f th (.connectDb false) { th with pc := .top }
  | updatingAll {d : ScanData} : th.pc = .updating d → d.scanType = .all →
      Stepped f th .setUpdating { th with pc := .deleteAll d }
  | updating {d : ScanData} : th.pc = .updating d → d.scanType ≠ .all →
      Stepped f th .setUpdating { th with pc := .dirScan d }
  | deleteAll {d : ScanData} {ok : Bool} : th.pc = .deleteAll d →
      Stepped f th (.deleteAllItems ok) { th with pc := .dirScan d }
  | scanFile {d : ScanData} {path : Text} : th.pc = .dirScan d → d.scanType ≠ .invalid →
      f.stops d = false → Stepped f th (.scanFile path) th
  | invalidate {d : ScanData} : th.pc = .dirScan d → d.scanType = .invalid →
      Stepped f th .invalidateAllItems { th with pc := .scanned d }
  | scanReturn {d : ScanData} : th.pc = .dirScan d → d.scanType ≠ .invalid →
      Stepped f th .scanReturn { th with pc := .scanned d }
  | stopped {d : ScanData} : th.pc = .scanned d → f.powerOff = true →
      Stepped f th .testPowerOff { th with pc := .powerOff d }
  | scannedPart {d : ScanData} : th.pc = .scanned d → f.powerOff = false → d.scanType = .part →
      Stepped f th .testPowerOff { th with pc := .deleteInvalid d }
  | scanned {d : ScanData} : th.pc = .scanned d → f.powerOff = false → d.scanType ≠ .part →
      Stepped f th .testPowerOff { th with pc := .updated d }
  | deleteInvalid {d : ScanData} {ok : Bool} : th.pc = .deleteInvalid d →
      Stepped f th (.deleteInvalidItems ok) { th with pc := .updated d }
  | updatedCard {d : ScanData} : th.pc = .updated d → d.storageType = .external →
      d.scanType = .all → Stepped f th .setUpdated { th with pc := .updateMmcInfo d }
  | updated {d : ScanData} : th.pc = .updated d →
      ¬ (d.storageType = .external ∧ d.scanType = .all) →
      Stepped f th .setUpdated { th with pc := .release d }
  | updateMmcInfo {d : ScanData} : th.pc = .updateMmcInfo d →
      Stepped f th .updateMmcInfo { th with pc := .release d }
  | release {d : ScanData} : th.pc = .release d → Stepped f th .release { th with pc := .top }
  | exit {d : ScanData} : th.pc = .powerOff d → Stepped f th .exit { th with pc := .returned }

theorem threadStep_cases {f : Flags} {th th' : Thread} {a : ThreadAct}
    (h : threadStep f th a = some th') : Stepped f th a th' := by
  cases a with
  | receive =>
      simp only [threadStep] at h
      split at h
      next hpc hq => exact Option.some.inj h ▸ .receive hpc hq
      next => cases h
  | take =>
      simp only [threadStep] at h
      split at h
      next d array hpc hq harr =>
        split at h
        next htype => exact Option.some.inj h ▸ .takePowerOff hpc hq harr htype
        next htype => exact Option.some.inj h ▸ .take hpc hq harr htype
      next => cases h
  | connectDb ok =>
      simp only [threadStep] at h
      split at h
      next hpc =>
        cases ok with
        | false => exact Option.some.inj h ▸ .connectFailed hpc
        | true => exact Option.some.inj h ▸ .connected hpc
      next => cases h
  | setUpdating =>
      simp only [threadStep] at h
      split at h
      next hpc =>
        split at h
        next htype => exact Option.some.inj h ▸ .updatingAll hpc htype
        next htype => exact Option.some.inj h ▸ .updating hpc htype
      next => cases h
  | deleteAllItems ok =>
      simp only [threadStep] at h
      split at h
      next hpc => exact Option.some.inj h ▸ .deleteAll hpc
      next => cases h
  | scanFile path =>
      simp only [threadStep] at h
      split at h
      next hpc =>
        split at h
        next hgo => exact Option.some.inj h ▸ .scanFile hpc hgo.1 (by simpa using hgo.2)
        next => cases h
      next => cases h
  | invalidateAllItems =>
      simp only [threadStep] at h
      split at h
      next hpc =>
        split at h
        next htype => exact Option.some.inj h ▸ .invalidate hpc htype
        next => cases h
      next => cases h
  | scanReturn =>
      simp only [threadStep] at h
      split at h
      next hpc =>
        split at h
        next htype => exact Option.some.inj h ▸ .scanReturn hpc htype
        next => cases h
      next => cases h
  | testPowerOff =>
      simp only [threadStep] at h
      split at h
      next hpc =>
        split at h
        next hoff => exact Option.some.inj h ▸ .stopped hpc hoff
        next hoff =>
          split at h
          next htype => exact Option.some.inj h ▸ .scannedPart hpc (by simpa using hoff) htype
          next htype => exact Option.some.inj h ▸ .scanned hpc (by simpa using hoff) htype
      next => cases h
  | deleteInvalidItems ok =>
      simp only [threadStep] at h
      split at h
      next hpc => exact Option.some.inj h ▸ .deleteInvalid hpc
      next => cases h
  | setUpdated =>
      simp only [threadStep] at h
      split at h
      next hpc =>
        split at h
        next hcard => exact Option.some.inj h ▸ .updatedCard hpc hcard.1 hcard.2
        next hcard => exact Option.some.inj h ▸ .updated hpc hcard
      next => cases h
  | updateMmcInfo =>
      simp only [threadStep] at h
      split at h
      next hpc => exact Option.some.inj h ▸ .updateMmcInfo hpc
      next => cases h
  | release =>
      simp only [threadStep] at h
      split at h
      next hpc => exact Option.some.inj h ▸ .release hpc
      next => cases h
  | exit =>
      simp only [threadStep] at h
      split at h
      next hpc => exact Option.some.inj h ▸ .exit hpc
      next => cases h

/-- Every object the thread can still reach. -/
def Thread.objects (th : Thread) : List ScanData := th.queue ++ th.array ++ th.pc.current

/-- The thread invents no requests. -/
theorem threadStep_objects {f : Flags} {th th' : Thread} {a : ThreadAct}
    (h : threadStep f th a = some th') : ∀ d ∈ th'.objects, d ∈ th.objects := by
  intro d hd
  simp only [Thread.objects, List.mem_append] at hd ⊢
  cases threadStep_cases h with
  | receive hpc hqueue =>
      rcases hd with (hq | ha) | hc
      · exact .inl (.inl (hqueue ▸ List.mem_cons_of_mem _ hq))
      · rcases eq_or_mem_of_mem_insertArray ha with rfl | ha
        · exact .inl (.inl (hqueue ▸ List.mem_cons_self))
        · exact .inl (.inr ha)
      · exact .inr hc
  | takePowerOff hpc _ harr | take hpc _ harr =>
      rcases hd with (hq | ha) | hc
      · exact .inl (.inl hq)
      · exact .inl (.inr (harr ▸ List.mem_cons_of_mem _ ha))
      · exact .inl (.inr (List.mem_singleton.mp hc ▸ harr ▸ List.mem_cons_self))
  | scanFile => exact hd
  | connected hpc | updatingAll hpc | updating hpc | deleteAll hpc | invalidate hpc
  | scanReturn hpc | stopped hpc | scannedPart hpc | scanned hpc | deleteInvalid hpc
  | updatedCard hpc | updated hpc | updateMmcInfo hpc =>
      exact hd.imp id fun hc => by rw [hpc]; exact hc
  | connectFailed | release | exit => exact hd.imp id fun hc => nomatch hc

end MediaServer.Scan
