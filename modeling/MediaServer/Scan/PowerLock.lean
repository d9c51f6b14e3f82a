import MediaServer.Inotify.Control
import MediaServer.Scan.DbStatus

/-!
# The announcement of a running scan

`ms_set_db_status` writes the persistent key, tells the other applications that the
database is updated, and takes or gives back the power lock. The scan thread calls it
around every scan. The inotify thread calls it as well, when it is told that a file
operation has ended, and does not look whether a scan is running.

The statements of the two calls interleave one by one. The process has one lock.
-/

namespace MediaServer.Scan

/-- A statement of `ms_set_db_status`. -/
inductive StatusCall where
  | msConfigSetInt (status : DbStatus)
  | msDbusSendNoti
  /-- `_ms_set_power_mode`. -/
  | msSetPowerMode (status : DbStatus)
deriving DecidableEq, Repr

/-- The statements that `ms_set_db_status` executes. -/
def msSetDbStatus : DbStatus → List StatusCall
  | .updating => [.msConfigSetInt .updating, .msSetPowerMode .updating]
  | .updated => [.msConfigSetInt .updated, .msDbusSendNoti, .msSetPowerMode .updated]

/-- What the other processes can see. -/
structure Announcement where
  dbStatus : DbStatus := .updated
  /-- The lock of `pm_lock_state` is held. -/
  powerLock : Bool := false
  /-- The number of `MS_DBUS_DB_UPDATED` notifications sent. -/
  dbUpdated : Nat := 0
deriving DecidableEq, Repr

def StatusCall.apply (a : Announcement) : StatusCall → Announcement
  | .msConfigSetInt dbStatus => { a with dbStatus }
  | .msDbusSendNoti => { a with dbUpdated := a.dbUpdated + 1 }
  | .msSetPowerMode .updating => { a with powerLock := true }
  | .msSetPowerMode .updated => { a with powerLock := false }

/-- The two threads, each with the statements left of the `ms_set_db_status` call that it
is in. -/
structure Threads where
  thread : Thread := {}
  flags : Flags := {}
  scanCalls : List StatusCall := []
  inoti : Inotify.Inoti := {}
  inotiCalls : List StatusCall := []
  announcement : Announcement := {}
  /-- `dbUpdated` at the return of the last `ms_set_db_status(MS_DB_UPDATING)`. No step
  reads it. -/
  dbUpdatedBefore : Nat := 0
deriving DecidableEq

inductive ThreadsLabel where
  /-- A request arrives in `scan_queue`. -/
  | push (d : ScanData)
  | mmcStatus (status : MmcStatus)
  /-- A statement of the scan thread outside `ms_set_db_status`. -/
  | scan (a : ThreadAct)
  /-- A statement of the scan thread inside it. -/
  | scanCall
  /-- The inotify thread handles an event. -/
  | event (w : Inotify.World) (e : Inotify.Event)
  /-- A statement of the inotify thread inside `ms_set_db_status`. -/
  | inotiCall

/-- The `ms_set_db_status` call that a statement of the scan thread is. -/
def statusCalls : ThreadAct → List StatusCall
  | .setUpdating => msSetDbStatus .updating
  | .setUpdated => msSetDbStatus .updated
  | _ => []

/-- The scan thread has called `ms_set_db_status(MS_DB_UPDATING)` and not yet
`ms_set_db_status(MS_DB_UPDATED)`. -/
def Pc.inScan : Pc → Bool
  | .deleteAll _ | .dirScan _ | .scanned _ | .deleteInvalid _ | .updated _ => true
  | _ => false

/-- The scan thread is between the two calls. -/
def Threads.scanning (s : Threads) : Bool := s.thread.pc.inScan && s.scanCalls.isEmpty

def threadsStep (s : Threads) : ThreadsLabel → Option Threads
  | .push d =>
      if d.scanType = .powerOff then none
      else some { s with thread := { s.thread with queue := s.thread.queue ++ [d] } }
  | .mmcStatus status => some { s with flags := { s.flags with mmcState := status } }
  | .scan a =>
      match s.scanCalls with
      | [] =>
          (threadStep s.flags s.thread a).map fun thread =>
            { s with thread, scanCalls := statusCalls a }
      | _ :: _ => none
  | .scanCall =>
      match s.scanCalls with
      | [] => none
      | call :: rest =>
          let announcement := call.apply s.announcement
          some { s with
            scanCalls := rest
            announcement
            dbUpdatedBefore :=
              if call = .msSetPowerMode .updating then announcement.dbUpdated
              else s.dbUpdatedBefore }
  | .event w e =>
      match s.inotiCalls with
      | [] =>
          if w.powerOff then none
          else
            some { s with
              inoti := s.inoti.event w e
              inotiCalls :=
                if Inotify.announces w s.inoti e then msSetDbStatus .updated else [] }
      | _ :: _ => none
  | .inotiCall =>
      match s.inotiCalls with
      | [] => none
      | call :: rest =>
          some { s with inotiCalls := rest, announcement := call.apply s.announcement }

/-- A scan that is running holds the lock, and no notification has been sent since it
began. -/
def Announced (s : Threads) : Prop :=
  s.scanning →
    s.announcement.powerLock = true ∧ s.announcement.dbUpdated = s.dbUpdatedBefore

instance : DecidablePred Announced := fun _ => inferInstanceAs (Decidable (_ → _))

/-- The inotify thread sends no notification and gives back no lock while a scan runs. -/
def LeavesScans (s : Threads) : ThreadsLabel → Prop
  | .inotiCall =>
      s.scanning → ∀ call ∈ s.inotiCalls.head?, ∃ status, call = .msConfigSetInt status
  | _ => True

structure ThreadsInv (s : Threads) : Prop where
  announced : Announced s
  scanCalls : s.scanCalls <:+ msSetDbStatus (if s.thread.pc.inScan then .updating else .updated)
  inotiCalls : s.inotiCalls <:+ msSetDbStatus .updated

/-- The first call opens the scan and the second one closes it. -/
theorem inScan_of_threadStep {f : Flags} {th th' : Thread} {a : ThreadAct}
    (h : threadStep f th a = some th') :
    th'.pc.inScan = true ∧ a = .setUpdating ∨ th'.pc.inScan = false ∧ a = .setUpdated ∨
      statusCalls a = [] ∧ (th'.pc.inScan = true → th.pc.inScan = true) := by
  cases threadStep_cases h with
  | updatingAll | updating => exact .inl ⟨rfl, rfl⟩
  | updatedCard | updated => exact .inr (.inl ⟨rfl, rfl⟩)
  | receive | scanFile => exact .inr (.inr ⟨rfl, id⟩)
  | takePowerOff | take | connected | connectFailed | stopped | updateMmcInfo | release | exit =>
      exact .inr (.inr ⟨rfl, nofun⟩)
  | deleteAll hpc | invalidate hpc | scanReturn hpc | scannedPart hpc | scanned hpc
  | deleteInvalid hpc => exact .inr (.inr ⟨rfl, fun _ => by rw [hpc]; rfl⟩)

section Preservation

variable {s t : Threads}

/-- Steps that leave both threads' calls and the announcement alone. -/
theorem ThreadsInv.other (h : ThreadsInv s) (hpc : t.thread.pc = s.thread.pc)
    (hscan : t.scanCalls = s.scanCalls) (hinoti : t.inotiCalls = s.inotiCalls)
    (hannouncement : t.announcement = s.announcement)
    (hbefore : t.dbUpdatedBefore = s.dbUpdatedBefore) : ThreadsInv t := by
  refine ⟨?_, ?_, ?_⟩
  · have hannounced := h.announced
    rw [Announced, Threads.scanning] at hannounced ⊢
    rwa [hpc, hscan, hannouncement, hbefore]
  · rw [hpc, hscan]
    exact h.scanCalls
  · rw [hinoti]
    exact h.inotiCalls

theorem ThreadsInv.scan (h : ThreadsInv s) {a : ThreadAct} {thread : Thread}
    (hcalls : s.scanCalls = []) (hstep : threadStep s.flags s.thread a = some thread) :
    ThreadsInv { s with thread, scanCalls := statusCalls a } := by
  cases inScan_of_threadStep hstep with
  | inl hopen =>
      obtain ⟨hin, rfl⟩ := hopen
      refine ⟨fun hscanning => ?_, ?_, h.inotiCalls⟩
      · simp [Threads.scanning, statusCalls, msSetDbStatus] at hscanning
      · simp [hin, statusCalls]
  | inr hrest =>
      cases hrest with
      | inl hclose =>
          obtain ⟨hout, rfl⟩ := hclose
          refine ⟨fun hscanning => ?_, ?_, h.inotiCalls⟩
          · simp [Threads.scanning, hout] at hscanning
          · simp [hout, statusCalls]
      | inr hinside =>
          obtain ⟨hnone, hin⟩ := hinside
          refine ⟨fun hscanning => h.announced ?_, ?_, h.inotiCalls⟩
          · simp only [Threads.scanning, Bool.and_eq_true] at hscanning ⊢
            exact ⟨hin hscanning.1, by rw [hcalls]; rfl⟩
          · rw [hnone]
            exact List.nil_suffix

theorem ThreadsInv.scanCall (h : ThreadsInv s)
    (hstep : threadsStep s .scanCall = some t) : ThreadsInv t := by
  cases hcalls : s.scanCalls with
  | nil => simp [threadsStep, hcalls] at hstep
  | cons call rest =>
      simp only [threadsStep, hcalls] at hstep
      obtain rfl := Option.some.inj hstep
      have hsuffix := h.scanCalls
      rw [hcalls] at hsuffix
      refine ⟨fun hscanning => ?_, (List.suffix_cons call rest).trans hsuffix, h.inotiCalls⟩
      simp only [Threads.scanning, Bool.and_eq_true, List.isEmpty_iff] at hscanning
      obtain ⟨hin, rfl⟩ := hscanning
      -- the statement before the return is the one that takes the lock
      have hlast : call = .msSetPowerMode .updating := by
        simpa [hin, msSetDbStatus, List.suffix_cons_iff] using hsuffix
      subst hlast
      exact ⟨rfl, by simp⟩

theorem ThreadsInv.inotiCall (h : ThreadsInv s) (good : LeavesScans s .inotiCall)
    (hstep : threadsStep s .inotiCall = some t) : ThreadsInv t := by
  cases hcalls : s.inotiCalls with
  | nil => simp [threadsStep, hcalls] at hstep
  | cons call rest =>
      simp only [threadsStep, hcalls] at hstep
      obtain rfl := Option.some.inj hstep
      have hsuffix := h.inotiCalls
      rw [hcalls] at hsuffix
      refine ⟨fun hscanning => ?_, h.scanCalls, (List.suffix_cons call rest).trans hsuffix⟩
      obtain ⟨status, rfl⟩ := good hscanning call (by rw [hcalls]; rfl)
      exact h.announced hscanning

end Preservation

theorem threadsStep_inv {s t : Threads} {l : ThreadsLabel} (h : ThreadsInv s)
    (good : LeavesScans s l) (hstep : threadsStep s l = some t) : ThreadsInv t := by
  cases l with
  | push d =>
      simp only [threadsStep] at hstep
      split at hstep
      next => cases hstep
      next => exact Option.some.inj hstep ▸ h.other rfl rfl rfl rfl rfl
  | mmcStatus status => exact Option.some.inj hstep ▸ h.other rfl rfl rfl rfl rfl
  | scan a =>
      simp only [threadsStep] at hstep
      split at hstep
      next hcalls =>
        obtain ⟨thread, hthread, rfl⟩ := Option.map_eq_some_iff.mp hstep
        exact h.scan hcalls hthread
      next => cases hstep
  | scanCall => exact h.scanCall hstep
  | event w e =>
      simp only [threadsStep] at hstep
      split at hstep
      next =>
        split at hstep
        next => cases hstep
        next =>
          obtain rfl := Option.some.inj hstep
          refine ⟨h.announced, h.scanCalls, ?_⟩
          show (if _ then _ else _) <:+ _
          split
          · exact List.suffix_rfl
          · exact List.nil_suffix
      next => cases hstep
  | inotiCall => exact h.inotiCall good hstep

/-- Each of the two other statements of the call can be noticed at once. -/
theorem not_announced_of_not_leavesScans {s t : Threads} {l : ThreadsLabel} (h : ThreadsInv s)
    (bad : ¬ LeavesScans s l) (hstep : threadsStep s l = some t) : ¬ Announced t := by
  cases l with
  | inotiCall =>
      simp only [LeavesScans, not_forall] at bad
      obtain ⟨hscanning, call, hhead, hcall⟩ := bad
      obtain ⟨rest, hcalls⟩ := List.head?_eq_some_iff.mp hhead
      simp only [threadsStep, hcalls] at hstep
      obtain rfl := Option.some.inj hstep
      obtain ⟨hlock, hcount⟩ := h.announced hscanning
      have hmem : call ∈ msSetDbStatus .updated :=
        h.inotiCalls.subset (hcalls ▸ List.mem_cons_self)
      simp only [msSetDbStatus, List.mem_cons, List.not_mem_nil, or_false] at hmem
      intro hannounced
      have hafter := hannounced hscanning
      rcases hmem with rfl | rfl | rfl
      · exact hcall ⟨.updated, rfl⟩
      · simp only [StatusCall.apply] at hafter
        omega
      · simp [StatusCall.apply] at hafter
  | _ => exact absurd trivial bad

/-- For every interleaving of the threads, every scan is announced as running throughout
if and only if the inotify thread never notifies or unlocks while a scan runs. -/
theorem scan_announced_iff (inoti : Inotify.Inoti) (labels : List ThreadsLabel) :
    Run.Always threadsStep Announced { inoti } labels ↔
      Run.EachStep threadsStep LeavesScans { inoti } labels :=
  Run.always_iff_eachStep (I := ThreadsInv)
    (fun _ _ _ h good hstep => threadsStep_inv h good hstep) (fun _ h => h.announced)
    (fun _ _ _ h bad hstep => not_announced_of_not_leavesScans h bad hstep)
    ⟨nofun, List.nil_suffix, List.nil_suffix⟩

/-- A file operation ends while the internal storage is scanned: the applications are told
that the database is updated, and the scan goes on without the lock. -/
theorem scan_unannounced :
    let event : ThreadsLabel := .event
      { fs := { entries := fun _ => [], opens := fun _ => false }, inotifyAddWatch := fun _ => 0 }
      { wd := 1, mask := Inotify.inCreate ||| Inotify.inIsDir, cookie := 0, len := 32,
        name := "_FILEOPERATION_END".toList, terminated := .inl (by decide) }
    let inoti : Inotify.Inoti := { watches := [⟨msDbUpdateNotiPath, 1⟩] }
    let labels : List ThreadsLabel :=
      [.push phoneScanData, .scan .receive, .scan .take, .scan (.connectDb true),
        .scan .setUpdating, .scanCall, .scanCall, event, .inotiCall, .inotiCall, .inotiCall]
    ¬ Run.Always threadsStep Announced { inoti } labels ∧
      (Run.exec threadsStep { inoti } labels).map
          (fun s => (s.scanning, s.announcement)) =
        some (true, { dbStatus := .updated, powerLock := false, dbUpdated := 1 }) := by
  decide

end MediaServer.Scan
