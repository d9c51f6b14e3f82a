import MediaServer.Foundation.Run
import MediaServer.Scan.Thread

/-!
# The persistent status

`VCONFKEY_FILEMANAGER_DB_STATUS` survives the process. `_db_clear` reads it once
at boot; a server that finds `UPDATING` there knows that its predecessor did not
finish, invalidates the internal items and schedules a full internal scan. Three
parties write the key: `_db_clear` itself, the scan thread around every scan,
and the inotify thread on `_FILEOPERATION_END`.

Every other variable is lost when the server crashes or the power goes off.
-/

namespace MediaServer.Scan

/-- `VCONFKEY_FILEMANAGER_DB_STATUS`. -/
inductive DbStatus where
  | updating
  | updated
deriving DecidableEq, Repr

/-- The place in `main`, with the local variable `need_db_create`. -/
inductive Boot where
  | off
  /-- `_db_clear` invalidates the external items. -/
  | clearExternal
  | readStatus
  | invalidateInternal
  /-- `ms_set_db_status(MS_DB_UPDATED)` at the end of `_db_clear` is next. -/
  | markUpdated (needDbCreate : Bool)
  /-- The threads run and the internal request is to be pushed. -/
  | pushInternal (needDbCreate : Bool)
  /-- The main loop. -/
  | running
deriving DecidableEq, Repr

def Boot.started : Boot → Bool
  | .pushInternal _ | .running => true
  | _ => false

/-- What survives a crash. The last two fields are read by no step: whether an
internal scan has been found necessary or begun and is not complete, and whether
every internal item is present and valid. -/
structure Persistent where
  dbStatus : DbStatus
  due : Bool := false
  intact : Bool := true
deriving DecidableEq, Repr

structure Server where
  disk : Persistent
  boot : Boot := .off
  thread : Thread := {}
  flags : Flags := {}
deriving DecidableEq, Repr

inductive ServerLabel where
  /-- The next statement of `main`. -/
  | main
  /-- `ms_mmc_vconf_cb`, or the request of `main` for a card. -/
  | pushCard (id : Nat) (scanType : ScanType)
  | mmcStatus (status : MmcStatus)
  /-- `_power_off_cb`. -/
  | powerOff (id : Nat) (storageType : StorageType)
  | thread (a : ThreadAct)
  /-- The inotify thread sees `_FILEOPERATION_END`. -/
  | fileOperationEnd
  | crash
deriving DecidableEq, Repr

def phoneScanData : ScanData :=
  { id := 0, path := some msRootPathInternal, storageType := .internal, scanType := .all }

/-- A full scan of the internal storage. -/
def ScanData.internalAll (d : ScanData) : Bool :=
  d.storageType = .internal && d.scanType = .all

namespace Persistent

def setDbStatus (p : Persistent) (dbStatus : DbStatus) : Persistent := { p with dbStatus }

/-- The effect of a step of the scan thread. -/
def afterThread (p : Persistent) (pc : Pc) : ThreadAct → Persistent
  | .setUpdating =>
      { p.setDbStatus .updating with due := p.due || pc.current.any ScanData.internalAll }
  | .deleteAllItems _ =>
      { p with intact := p.intact && !pc.current.any ScanData.internalAll }
  | .invalidateAllItems =>
      { p with intact := p.intact && !pc.current.any fun d => d.storageType = .internal }
  | .setUpdated =>
      let complete := pc.current.any ScanData.internalAll
      { p.setDbStatus .updated with due := p.due && !complete, intact := p.intact || complete }
  | _ => p

end Persistent

namespace Server

def mainStep (s : Server) : Option Server :=
  match s.boot with
  | .off => some { s with boot := .clearExternal }
  | .clearExternal => some { s with boot := .readStatus }
  | .readStatus =>
      if s.disk.dbStatus = .updating then
        some { s with boot := .invalidateInternal, disk := { s.disk with due := true } }
      else some { s with boot := .markUpdated false }
  | .invalidateInternal =>
      some { s with boot := .markUpdated true, disk := { s.disk with intact := false } }
  | .markUpdated needDbCreate =>
      some { s with boot := .pushInternal needDbCreate, disk := s.disk.setDbStatus .updated }
  | .pushInternal needDbCreate =>
      let queue := if needDbCreate then s.thread.queue ++ [phoneScanData] else s.thread.queue
      some { s with boot := .running, thread := { s.thread with queue } }
  | .running => none

def push (s : Server) (d : ScanData) : Server :=
  { s with thread := { s.thread with queue := s.thread.queue ++ [d] } }

end Server

def serverStep (s : Server) : ServerLabel → Option Server
  | .main => s.mainStep
  | .pushCard id scanType =>
      if s.boot = .running ∧ scanType ≠ .powerOff then
        some (s.push
          { id, path := some msRootPathExternal, storageType := .external, scanType })
      else none
  | .mmcStatus status =>
      if s.boot.started then some { s with flags := { s.flags with mmcState := status } } else none
  | .powerOff id storageType =>
      if s.boot = .running then
        some ({ s with flags := { s.flags with powerOff := true } }.push
          { id, path := none, storageType, scanType := .powerOff })
      else none
  | .thread a =>
      if s.boot.started then
        (threadStep s.flags s.thread a).map fun thread =>
          { s with thread, disk := s.disk.afterThread s.thread.pc a }
      else none
  | .fileOperationEnd =>
      if s.boot.started then some { s with disk := s.disk.setDbStatus .updated } else none
  | .crash => some { disk := s.disk }

/-- An internal scan that is due, or internal items that need one, are announced
to the next boot. -/
def RescanAnnounced (s : Server) : Prop :=
  s.disk.due = true ∨ s.disk.intact = false → s.disk.dbStatus = .updating

instance : DecidablePred RescanAnnounced := fun _ => inferInstanceAs (Decidable (_ ∨ _ → _))

/-- `_db_clear` marks the database as updated only when it found it so. -/
def MarksFoundUpdated (s : Server) : ServerLabel → Prop
  | .main => s.boot ≠ .markUpdated true
  | _ => True

/-- Where a boot can be while an internal scan is due. -/
def Boot.early : Boot → Bool
  | .off | .clearExternal | .readStatus | .invalidateInternal | .markUpdated true => true
  | _ => false

structure ServerInv (s : Server) : Prop where
  announced : RescanAnnounced s
  early : s.disk.due = true ∨ s.disk.intact = false → s.boot.early = true
  found : s.boot = .invalidateInternal ∨ s.boot = .markUpdated true → s.disk.due = true
  noNeed : s.boot ≠ .pushInternal true
  external : ∀ d ∈ s.thread.objects, d.scanType = .powerOff ∨ d.storageType = .external

section Preservation

variable {s t : Server} (h : ServerInv s)
include h

theorem ServerInv.calm (hstart : s.boot.started = true) :
    ¬ (s.disk.due = true ∨ s.disk.intact = false) := by
  intro hdue
  have hearly := h.early hdue
  cases hboot : s.boot with
  | pushInternal | running =>
      rw [hboot] at hearly
      cases hearly
  | _ =>
      rw [hboot] at hstart
      cases hstart

/-- Steps after the boot that change neither the need for a scan nor the party
that has it. -/
theorem ServerInv.running (hstart : s.boot.started = true) (hboot : t.boot = s.boot)
    (hdue : t.disk.due = s.disk.due) (hintact : t.disk.intact = s.disk.intact)
    (hobjects : ∀ d ∈ t.thread.objects, d ∈ s.thread.objects ∨
      d.scanType = .powerOff ∨ d.storageType = .external) : ServerInv t := by
  have hcalm : ¬ (t.disk.due = true ∨ t.disk.intact = false) := by
    rw [hdue, hintact]
    exact h.calm hstart
  refine ⟨fun hd => absurd hd hcalm, fun hd => absurd hd hcalm, fun hfound => ?_, ?_, ?_⟩
  · rw [hboot] at hfound
    rcases hfound with hfound | hfound
    all_goals
      rw [hfound] at hstart
      cases hstart
  · rw [hboot]
    exact h.noNeed
  · exact fun d hd => (hobjects d hd).elim (h.external d) id

theorem ServerInv.crash : ServerInv { disk := s.disk } where
  announced := h.announced
  early _ := rfl
  found hfound := by simp at hfound
  noNeed := by simp
  external d hd := by simp [Thread.objects, Pc.current] at hd

theorem mainStep_inv (good : s.boot ≠ .markUpdated true) (hstep : s.mainStep = some t) :
    ServerInv t := by
  rw [Server.mainStep] at hstep
  cases hboot : s.boot with
  | off | clearExternal =>
      rw [hboot] at hstep
      obtain rfl := Option.some.inj hstep
      exact ⟨h.announced, fun _ => rfl, nofun, nofun, h.external⟩
  | readStatus =>
      simp only [hboot] at hstep
      split at hstep
      next hupdating =>
        obtain rfl := Option.some.inj hstep
        exact ⟨fun _ => hupdating, fun _ => rfl, fun _ => rfl, nofun, h.external⟩
      next hupdated =>
        obtain rfl := Option.some.inj hstep
        exact ⟨h.announced, fun hd => absurd (h.announced hd) hupdated, by simp, nofun,
          h.external⟩
  | invalidateInternal =>
      rw [hboot] at hstep
      obtain rfl := Option.some.inj hstep
      have hdue : s.disk.due = true := h.found (.inl hboot)
      exact ⟨fun _ => h.announced (.inl hdue), fun _ => rfl, fun _ => hdue, nofun, h.external⟩
  | markUpdated need =>
      rw [hboot] at hstep
      obtain rfl := Option.some.inj hstep
      cases need with
      | true => exact absurd hboot good
      | false =>
          have hcalm : ¬ (s.disk.due = true ∨ s.disk.intact = false) := fun hd => by
            have hearly := h.early hd
            rw [hboot] at hearly
            cases hearly
          exact ⟨fun hd => absurd hd hcalm, fun hd => absurd hd hcalm, by simp, by simp,
            h.external⟩
  | pushInternal need =>
      rw [hboot] at hstep
      obtain rfl := Option.some.inj hstep
      cases need with
      | true => exact absurd hboot h.noNeed
      | false =>
          have hcalm := h.calm (by rw [hboot]; rfl)
          exact ⟨fun hd => absurd hd hcalm, fun hd => absurd hd hcalm, by simp, by simp,
            h.external⟩
  | running =>
      rw [hboot] at hstep
      cases hstep

theorem ServerInv.push (hboot : s.boot = .running) {d : ScanData} {flags : Flags}
    (hd : d.scanType = .powerOff ∨ d.storageType = .external) :
    ServerInv (({ s with flags } : Server).push d) := by
  refine h.running (by rw [hboot]; rfl) rfl rfl rfl fun e he => ?_
  simp only [Server.push, Thread.objects, List.mem_append, List.mem_singleton] at he ⊢
  rcases he with ((hq | rfl) | ha) | hc
  · exact .inl (.inl (.inl hq))
  · exact .inr hd
  · exact .inl (.inl (.inr ha))
  · exact .inl (.inr hc)

/-- The thread has no internal request, so its effect on the items and on the
need for a scan is nil. -/
theorem ServerInv.thread (hstart : s.boot.started = true) {a : ThreadAct} {thread : Thread}
    (hth : threadStep s.flags s.thread a = some thread) :
    ServerInv { s with thread, disk := s.disk.afterThread s.thread.pc a } := by
  have hexternal : ∀ d ∈ s.thread.pc.current,
      d.scanType = .powerOff ∨ d.storageType = .external :=
    fun d hd => h.external d (List.mem_append_right _ hd)
  have hno : s.thread.pc.current.any ScanData.internalAll = false := by
    refine List.any_eq_false.mpr fun d hd => ?_
    cases hexternal d hd with
    | inl htype => simp [ScanData.internalAll, htype]
    | inr hstorage => simp [ScanData.internalAll, hstorage]
  refine h.running hstart rfl ?_ ?_ fun d hd => .inl (threadStep_objects hth d hd)
  · cases a
    case setUpdating => simp [Persistent.afterThread, hno]
    case setUpdated => simp [Persistent.afterThread, hno]
    all_goals rfl
  · cases threadStep_cases hth with
    | deleteAll => simp [Persistent.afterThread, hno]
    | updatedCard | updated => simp [Persistent.afterThread, Persistent.setDbStatus, hno]
    | @invalidate d hpc htype =>
        have hcurrent : s.thread.pc.current = [d] := congrArg Pc.current hpc
        have hstorage : d.storageType = .external := by
          refine (hexternal d (hcurrent ▸ List.mem_cons_self)).resolve_left ?_
          rw [htype]
          nofun
        simp [Persistent.afterThread, hcurrent, hstorage]
    | _ => rfl

end Preservation

theorem serverStep_inv {s t : Server} {l : ServerLabel} (h : ServerInv s)
    (good : MarksFoundUpdated s l) (hstep : serverStep s l = some t) : ServerInv t := by
  cases l with
  | main => exact mainStep_inv h good hstep
  | pushCard id scanType =>
      simp only [serverStep] at hstep
      split at hstep
      next hok => exact Option.some.inj hstep ▸ h.push hok.1 (.inr rfl)
      next => cases hstep
  | mmcStatus status =>
      simp only [serverStep] at hstep
      split at hstep
      next hstart =>
        obtain rfl := Option.some.inj hstep
        exact h.running hstart rfl rfl rfl fun d hd => .inl hd
      next => cases hstep
  | powerOff id storageType =>
      simp only [serverStep] at hstep
      split at hstep
      next hboot => exact Option.some.inj hstep ▸ h.push hboot (.inl rfl)
      next => cases hstep
  | thread a =>
      simp only [serverStep] at hstep
      split at hstep
      next hstart =>
        obtain ⟨thread, hth, rfl⟩ := Option.map_eq_some_iff.mp hstep
        exact h.thread hstart hth
      next => cases hstep
  | fileOperationEnd =>
      simp only [serverStep] at hstep
      split at hstep
      next hstart =>
        obtain rfl := Option.some.inj hstep
        exact h.running hstart rfl rfl rfl fun d hd => .inl hd
      next => cases hstep
  | crash => exact Option.some.inj hstep ▸ h.crash

/-- For every run of boots, crashes and steps of the threads, the internal scan
stays announced throughout if and only if no boot that found `UPDATING` gets
past the end of `_db_clear`. -/
theorem rescanAnnounced_iff (dbStatus : DbStatus) (labels : List ServerLabel) :
    Run.Always serverStep RescanAnnounced { disk := { dbStatus } } labels ↔
      Run.EachStep serverStep MarksFoundUpdated { disk := { dbStatus } } labels := by
  refine Run.always_iff_eachStep (I := ServerInv)
    (fun _ _ _ h good hstep => serverStep_inv h good hstep) (fun _ h => h.announced) ?_ ?_
  · intro s l t h bad hstep hannounced
    cases l with
    | main =>
        have hboot : s.boot = .markUpdated true := not_not.mp bad
        simp only [serverStep, Server.mainStep, hboot] at hstep
        obtain rfl := Option.some.inj hstep
        exact absurd (hannounced (.inl (h.found (.inr hboot)))) nofun
    | _ => exact bad trivial
  · exact ⟨by simp [RescanAnnounced], by simp, by simp, by simp,
      by simp [Thread.objects, Pc.current]⟩

/-- A boot finds `UPDATING`, crashes behind `_db_clear`, and the next boot
schedules nothing although the internal items are invalid. -/
theorem rescan_forgotten :
    ¬ Run.Always serverStep RescanAnnounced { disk := { dbStatus := .updating } }
        [.main, .main, .main, .main, .main, .crash] ∧
      Run.exec serverStep { disk := { dbStatus := .updating } }
        [.main, .main, .main, .main, .main, .crash, .main, .main, .main, .main, .main] =
        some
          { disk := { dbStatus := .updated, due := true, intact := false }, boot := .running } := by
  decide

end MediaServer.Scan
