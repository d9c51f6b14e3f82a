import MediaServer.Foundation.Progress
import MediaServer.Scan.Thread

/-!
# The end of the server

On the notification of a power-off, `_power_off_cb` sets `power_off`, pushes a request of
type `POWEROFF` for the scan thread, wakes the inotify thread through a directory in
`/opt/media`, and quits the main loop. `main` then joins the two threads.

Each thread has a place where it sleeps until something arrives: the scan thread at the
queue, the inotify thread at `read`. The inotify thread is woken only if the root of the
internal storage is watched and the directory could be made or removed.
-/

namespace MediaServer.Main

open Scan

def powerOffDirName : Text := "_POWER_OFF".toList

/-- The place in `_power_off_cb` and behind `g_main_loop_run`. -/
inductive MainPc where
  | loop
  /-- `power_off` is set, and the request has to be pushed. -/
  | flagged
  /-- `mkdir` and `rmdir` are next. -/
  | pushed
  /-- The callback is over, the loop comes to its end. -/
  | quitting
  | joinInoti
  | joinScan
  | ended
deriving DecidableEq, Repr

/-- The place in `ms_inoti_thread`. -/
inductive InotiPc where
  | connecting
  /-- `read` is next, and blocks while no event is queued. -/
  | reading
  /-- At the head of the inner loop, with the names of the events that are left. -/
  | handling (buffer : List Text)
  /-- The label `POWER_OFF`. -/
  | leaving
  | ended
deriving DecidableEq, Repr

structure Shutdown where
  /-- The kernel watches `/opt/media`. -/
  rootWatched : Bool
  flags : Flags := {}
  main : MainPc := .loop
  scan : Thread := {}
  inoti : InotiPc := .connecting
  /-- The names of the events that the kernel has queued. -/
  events : List Text := []
  /-- The callback has queued an event. -/
  woken : Bool := false
deriving DecidableEq, Repr

inductive ShutdownLabel where
  /-- `power_off = true`. -/
  | notified
  | pushPowerOff (id : Nat) (storageType : StorageType)
  /-- `mkdir` and `rmdir` of `POWEROFF_DIR_PATH`, and what they return. -/
  | wake (made removed : Bool)
  | loopReturns
  | joinInoti
  | joinScan
  | scan (act : ThreadAct)
  | inotiConnect (ok : Bool)
  /-- `read` returns the first `more + 1` events. -/
  | inotiRead (more : Nat)
  | inotiEvent
  /-- The buffer is exhausted. -/
  | inotiNext
  | inotiLeave
  /-- Another callback of the main loop pushes a request. -/
  | push (d : ScanData)
  | setMmcState (mmcState : MmcStatus)
  /-- Something happens in a watched directory. -/
  | event (name : Text)
deriving DecidableEq, Repr

/-- The server moves by itself. -/
def ShutdownLabel.own : ShutdownLabel → Bool
  | .push _ | .setMmcState _ | .event _ => false
  | _ => true

def shutdownStep (s : Shutdown) : ShutdownLabel → Option Shutdown
  | .notified =>
      if s.main = .loop then
        some { s with main := .flagged, flags := { s.flags with powerOff := true } }
      else none
  | .pushPowerOff id storageType =>
      if s.main = .flagged then
        let request : ScanData := { id, path := none, storageType, scanType := .powerOff }
        some { s with main := .pushed, scan := { s.scan with queue := s.scan.queue ++ [request] } }
      else none
  | .wake made removed =>
      if s.main = .pushed then
        let queued := if s.rootWatched then made.toNat + removed.toNat else 0
        some
          { s with
            main := .quitting
            events := s.events ++ List.replicate queued powerOffDirName
            woken := 0 < queued }
      else none
  | .loopReturns => if s.main = .quitting then some { s with main := .joinInoti } else none
  | .joinInoti =>
      if s.main = .joinInoti ∧ s.inoti = .ended then some { s with main := .joinScan } else none
  | .joinScan =>
      if s.main = .joinScan ∧ s.scan.pc = .returned then some { s with main := .ended } else none
  | .scan act => (threadStep s.flags s.scan act).map fun scan => { s with scan }
  | .inotiConnect ok =>
      if s.inoti = .connecting then some { s with inoti := if ok then .reading else .ended }
      else none
  | .inotiRead more =>
      if s.inoti = .reading ∧ s.events ≠ [] then
        some
          { s with
            inoti := .handling (s.events.take (more + 1))
            events := s.events.drop (more + 1) }
      else none
  | .inotiEvent =>
      match s.inoti with
      | .handling (name :: buffer) =>
          some { s with
            inoti := if s.flags.powerOff ∨ name = powerOffDirName then .leaving
              else .handling buffer }
      | _ => none
  | .inotiNext => if s.inoti = .handling [] then some { s with inoti := .reading } else none
  | .inotiLeave => if s.inoti = .leaving then some { s with inoti := .ended } else none
  | .push d =>
      if (s.main = .loop ∨ s.main = .quitting) ∧ d.scanType ≠ .powerOff then
        some { s with scan := { s.scan with queue := s.scan.queue ++ [d] } }
      else none
  | .setMmcState mmcState =>
      if s.main = .loop ∨ s.main = .quitting then
        some { s with flags := { s.flags with mmcState } }
      else none
  | .event name => some { s with events := s.events ++ [name] }

/-- Everything a step can do, with the guards it has passed. -/
inductive ShutdownStepped (s : Shutdown) : ShutdownLabel → Shutdown → Prop where
  | notified : s.main = .loop →
      ShutdownStepped s .notified
        { s with main := .flagged, flags := { s.flags with powerOff := true } }
  | pushPowerOff (id : Nat) (storageType : StorageType) : s.main = .flagged →
      ShutdownStepped s (.pushPowerOff id storageType)
        { s with
          main := .pushed
          scan := { s.scan with
            queue := s.scan.queue ++ [⟨id, none, storageType, .powerOff⟩] } }
  | wake (made removed : Bool) {queued : Nat} : s.main = .pushed →
      (if s.rootWatched then made.toNat + removed.toNat else 0) = queued →
      ShutdownStepped s (.wake made removed)
        { s with
          main := .quitting
          events := s.events ++ List.replicate queued powerOffDirName
          woken := 0 < queued }
  | loopReturns : s.main = .quitting →
      ShutdownStepped s .loopReturns { s with main := .joinInoti }
  | joinInoti : s.main = .joinInoti → s.inoti = .ended →
      ShutdownStepped s .joinInoti { s with main := .joinScan }
  | joinScan : s.main = .joinScan → s.scan.pc = .returned →
      ShutdownStepped s .joinScan { s with main := .ended }
  | scan {act : ThreadAct} {scan : Thread} : threadStep s.flags s.scan act = some scan →
      ShutdownStepped s (.scan act) { s with scan }
  | inotiConnect {ok : Bool} : s.inoti = .connecting →
      ShutdownStepped s (.inotiConnect ok) { s with inoti := if ok then .reading else .ended }
  | inotiRead (more : Nat) {name : Text} {events : List Text} : s.inoti = .reading →
      s.events = name :: events →
      ShutdownStepped s (.inotiRead more)
        { s with inoti := .handling (name :: events.take more), events := events.drop more }
  | inotiEvent {name : Text} {buffer : List Text} : s.inoti = .handling (name :: buffer) →
      ¬ (s.flags.powerOff ∨ name = powerOffDirName) →
      ShutdownStepped s .inotiEvent { s with inoti := .handling buffer }
  | inotiStop {name : Text} {buffer : List Text} : s.inoti = .handling (name :: buffer) →
      s.flags.powerOff ∨ name = powerOffDirName →
      ShutdownStepped s .inotiEvent { s with inoti := .leaving }
  | inotiNext : s.inoti = .handling [] → ShutdownStepped s .inotiNext { s with inoti := .reading }
  | inotiLeave : s.inoti = .leaving → ShutdownStepped s .inotiLeave { s with inoti := .ended }
  | push {d : ScanData} : s.main = .loop ∨ s.main = .quitting → d.scanType ≠ .powerOff →
      ShutdownStepped s (.push d) { s with scan := { s.scan with queue := s.scan.queue ++ [d] } }
  | setMmcState {mmcState : MmcStatus} :
      ShutdownStepped s (.setMmcState mmcState) { s with flags := { s.flags with mmcState } }
  | event {name : Text} :
      ShutdownStepped s (.event name) { s with events := s.events ++ [name] }

theorem shutdownStep_cases {s t : Shutdown} {l : ShutdownLabel} (h : shutdownStep s l = some t) :
    ShutdownStepped s l t := by
  cases l with
  | scan act =>
      obtain ⟨scan, hscan, rfl⟩ := Option.map_eq_some_iff.mp h
      exact .scan hscan
  | inotiEvent =>
      simp only [shutdownStep] at h
      split at h
      next name buffer hinoti =>
        obtain rfl := Option.some.inj h
        split
        next hstop => exact .inotiStop hinoti hstop
        next hgo => exact .inotiEvent hinoti hgo
      next => cases h
  | inotiRead more =>
      obtain ⟨⟨hinoti, hevents⟩, h⟩ := Option.ite_none_right_eq_some.mp h
      obtain rfl := Option.some.inj h
      obtain ⟨name, events, hevents⟩ := List.exists_cons_of_ne_nil hevents
      have hread := ShutdownStepped.inotiRead more hinoti hevents
      simpa [hevents] using hread
  | event name => exact Option.some.inj h ▸ .event
  | notified =>
      obtain ⟨hmain, h⟩ := Option.ite_none_right_eq_some.mp h
      exact Option.some.inj h ▸ .notified hmain
  | pushPowerOff id storageType =>
      obtain ⟨hmain, h⟩ := Option.ite_none_right_eq_some.mp h
      exact Option.some.inj h ▸ .pushPowerOff id storageType hmain
  | wake made removed =>
      obtain ⟨hmain, h⟩ := Option.ite_none_right_eq_some.mp h
      exact Option.some.inj h ▸ .wake made removed hmain rfl
  | loopReturns =>
      obtain ⟨hmain, h⟩ := Option.ite_none_right_eq_some.mp h
      exact Option.some.inj h ▸ .loopReturns hmain
  | joinInoti =>
      obtain ⟨⟨hmain, hinoti⟩, h⟩ := Option.ite_none_right_eq_some.mp h
      exact Option.some.inj h ▸ .joinInoti hmain hinoti
  | joinScan =>
      obtain ⟨⟨hmain, hscan⟩, h⟩ := Option.ite_none_right_eq_some.mp h
      exact Option.some.inj h ▸ .joinScan hmain hscan
  | inotiConnect ok =>
      obtain ⟨hinoti, h⟩ := Option.ite_none_right_eq_some.mp h
      exact Option.some.inj h ▸ .inotiConnect hinoti
  | inotiNext =>
      obtain ⟨hinoti, h⟩ := Option.ite_none_right_eq_some.mp h
      exact Option.some.inj h ▸ .inotiNext hinoti
  | inotiLeave =>
      obtain ⟨hinoti, h⟩ := Option.ite_none_right_eq_some.mp h
      exact Option.some.inj h ▸ .inotiLeave hinoti
  | push d =>
      obtain ⟨⟨hmain, htype⟩, h⟩ := Option.ite_none_right_eq_some.mp h
      exact Option.some.inj h ▸ .push hmain htype
  | setMmcState mmcState =>
      obtain ⟨hmain, h⟩ := Option.ite_none_right_eq_some.mp h
      exact Option.some.inj h ▸ .setMmcState

section Scan

/-- How much the scan thread can still do after the power-off. -/
def Pc.left : Pc → Nat
  | .connectDb _ => 9
  | .updating _ => 8
  | .deleteAll _ => 7
  | .dirScan _ => 6
  | .scanned _ => 5
  | .deleteInvalid _ => 5
  | .updated _ => 4
  | .updateMmcInfo _ => 3
  | .release _ => 2
  | .powerOff _ => 1
  | .top => 1
  | .returned => 0

def scanLeft (th : Thread) : Nat := 11 * th.queue.length + 10 * th.array.length + Pc.left th.pc

theorem length_insertArray_le (garray : List ScanData) (d : ScanData) :
    (insertArray garray d).length ≤ garray.length + 1 := by
  by_cases hd : d.scanType = .powerOff
  · simp [insertArray, hd]
  · rw [insertArray_eq garray hd]
    split
    · simp
    · simp

variable {f : Flags} {th th' : Thread} {act : ThreadAct}

/-- After the power-off each step of the scan thread leaves less to do. -/
theorem scanLeft_lt (hoff : f.powerOff = true) (hstep : threadStep f th act = some th') :
    scanLeft th' < scanLeft th := by
  cases threadStep_cases hstep with
  | @receive d queue hpc hqueue =>
      have hlength := length_insertArray_le th.array d
      simp only [scanLeft, hqueue, List.length_cons]
      omega
  | takePowerOff hpc _ harray | take hpc _ harray =>
      simp only [scanLeft, harray, hpc, List.length_cons, Pc.left]
      omega
  | scanFile hpc _ hgo => simp [Flags.stops, hoff] at hgo
  | scannedPart _ hon | scanned _ hon =>
      rw [hoff] at hon
      cases hon
  | connected hpc | connectFailed hpc | updatingAll hpc | updating hpc | deleteAll hpc
  | invalidate hpc | scanReturn hpc | stopped hpc | deleteInvalid hpc | updatedCard hpc
  | updated hpc | updateMmcInfo hpc | release hpc | exit hpc =>
      simp only [scanLeft, hpc, Pc.left]
      omega

/-- A request for the power-off is pending, or has been taken. -/
def PowerOffPending (th : Thread) : Prop :=
  (∃ d ∈ th.queue ++ th.array, d.scanType = .powerOff) ∨ (∃ d, th.pc = .powerOff d) ∨
    th.pc = .returned

/-- The request for the power-off is not lost. -/
theorem PowerOffPending.step (h : PowerOffPending th) (hstep : threadStep f th act = some th') :
    PowerOffPending th' := by
  cases threadStep_cases hstep with
  | @receive d queue hpc hqueue =>
      refine h.imp_left ?_
      rintro ⟨e, he, htype⟩
      refine ⟨e, ?_, htype⟩
      rw [hqueue, List.cons_append, List.mem_cons, List.mem_append] at he
      refine List.mem_append.mpr ?_
      rcases he with rfl | he | he
      · exact .inr (self_mem_insertArray th.array e)
      · exact .inl he
      · refine .inr ((mem_insertArray_or_displaced he).resolve_right fun hdisplaced => ?_)
        have hsuper := (supersedes_of_mem_displaced hdisplaced).2
        simp [supersedes, htype] at hsuper
  | takePowerOff => exact .inr (.inl ⟨_, rfl⟩)
  | @take d array hpc hqueue harray htype =>
      rcases h with ⟨e, he, hpower⟩ | ⟨e, he⟩ | he
      · rw [hqueue, harray, List.nil_append, List.mem_cons] at he
        rcases he with rfl | he
        · exact absurd hpower htype
        · exact .inl ⟨e, by rwa [hqueue], hpower⟩
      · rw [hpc] at he
        cases he
      · rw [hpc] at he
        cases he
  | scanFile => exact h
  | exit => exact .inr (.inr rfl)
  | stopped => exact .inr (.inl ⟨_, rfl⟩)
  | connected hpc | connectFailed hpc | updatingAll hpc | updating hpc | deleteAll hpc
  | invalidate hpc | scanReturn hpc | scannedPart hpc | scanned hpc | deleteInvalid hpc
  | updatedCard hpc | updated hpc | updateMmcInfo hpc | release hpc =>
      rcases h with hpending | ⟨e, he⟩ | he
      · exact .inl hpending
      · rw [hpc] at he
        cases he
      · rw [hpc] at he
        cases he

/-- With such a request the thread does not sleep at the queue. -/
theorem PowerOffPending.exists_step (h : PowerOffPending th) (hpc : th.pc ≠ .returned) :
    ∃ act, (threadStep f th act).isSome = true := by
  cases hplace : th.pc with
  | top =>
      cases hqueue : th.queue with
      | cons d queue => exact ⟨.receive, by simp [threadStep, hplace, hqueue]⟩
      | nil =>
          rcases h with ⟨e, he, -⟩ | ⟨e, he⟩ | he
          · rw [hqueue, List.nil_append] at he
            obtain ⟨d, array, harray⟩ := List.exists_cons_of_ne_nil (List.ne_nil_of_mem he)
            exact ⟨.take, by simp [threadStep, hplace, hqueue, harray]⟩
          · rw [hplace] at he
            cases he
          · exact absurd he hpc
  | dirScan d =>
      by_cases htype : d.scanType = .invalid
      · exact ⟨.invalidateAllItems, by simp [threadStep, hplace, htype]⟩
      · exact ⟨.scanReturn, by simp [threadStep, hplace, htype]⟩
  | connectDb d => exact ⟨.connectDb true, by simp [threadStep, hplace]⟩
  | updating d => exact ⟨.setUpdating, by simp [threadStep, hplace]⟩
  | deleteAll d => exact ⟨.deleteAllItems true, by simp [threadStep, hplace]⟩
  | scanned d => exact ⟨.testPowerOff, by simp [threadStep, hplace]⟩
  | deleteInvalid d => exact ⟨.deleteInvalidItems true, by simp [threadStep, hplace]⟩
  | updated d => exact ⟨.setUpdated, by simp [threadStep, hplace]⟩
  | updateMmcInfo d => exact ⟨.updateMmcInfo, by simp [threadStep, hplace]⟩
  | release d => exact ⟨.release, by simp [threadStep, hplace]⟩
  | powerOff d => exact ⟨.exit, by simp [threadStep, hplace]⟩
  | returned => exact absurd hplace hpc

end Scan

/-- The thread has no event in its hands. -/
def InotiPc.sleeps : InotiPc → Bool
  | .connecting | .reading | .handling [] => true
  | _ => false

/-- The callback has passed its statements in their order, and whatever sleeps has
something to wake it. -/
structure Awake (s : Shutdown) : Prop where
  off : s.main ≠ .loop → s.flags.powerOff = true
  pending : s.main ≠ .loop → s.main ≠ .flagged → PowerOffPending s.scan
  waking : s.woken = true → s.inoti.sleeps = true → s.events ≠ []
  called : s.woken = true → s.main ≠ .loop ∧ s.main ≠ .flagged ∧ s.main ≠ .pushed

def MainPc.left : MainPc → Nat
  | .quitting => 3
  | .joinInoti => 2
  | .joinScan => 1
  | _ => 0

def InotiPc.left : InotiPc → Nat
  | .connecting | .handling [] => 4
  | .reading => 3
  | .handling (_ :: _) => 2
  | .leaving => 1
  | .ended => 0

/-- What the server has still to do. -/
def Shutdown.left (s : Shutdown) : Nat := s.main.left + s.inoti.left + scanLeft s.scan

/-- A request that is pushed may be started. -/
def ShutdownLabel.cost : ShutdownLabel → Nat
  | .push _ => 11
  | _ => 0

section Step

variable {s t : Shutdown} {l : ShutdownLabel}

theorem PowerOffPending.push {th : Thread} (h : PowerOffPending th) (d : ScanData) :
    PowerOffPending { th with queue := th.queue ++ [d] } := by
  refine h.imp_left ?_
  rintro ⟨e, he, htype⟩
  exact ⟨e, by simpa [or_assoc, or_left_comm] using .inr (List.mem_append.mp he), htype⟩

theorem Awake.step (h : Awake s) (hstep : shutdownStep s l = some t) : Awake t := by
  cases shutdownStep_cases hstep with
  | notified hmain =>
      refine ⟨fun _ => rfl, fun _ hne => absurd rfl hne, h.waking, fun hwoken => ?_⟩
      exact absurd hmain (h.called hwoken).1
  | pushPowerOff id storageType hmain =>
      refine ⟨fun _ => h.off (by rw [hmain]; rintro ⟨⟩), fun _ _ => .inl ?_, h.waking, ?_⟩
      · exact ⟨⟨id, none, storageType, .powerOff⟩, by simp, rfl⟩
      · exact fun hwoken => absurd hmain (h.called hwoken).2.1
  | @wake made removed queued hmain hqueued =>
      refine ⟨fun _ => h.off (by rw [hmain]; rintro ⟨⟩), fun _ _ => ?_, fun hwoken _ => ?_, ?_⟩
      · exact h.pending (by rw [hmain]; rintro ⟨⟩) (by rw [hmain]; rintro ⟨⟩)
      · have hpos : 0 < queued := by simpa using hwoken
        simp [Nat.ne_of_gt hpos]
      · exact fun _ => ⟨by rintro ⟨⟩, by rintro ⟨⟩, by rintro ⟨⟩⟩
  | loopReturns hmain | joinInoti hmain | joinScan hmain =>
      have hloop : s.main ≠ .loop := by rw [hmain]; rintro ⟨⟩
      have hflagged : s.main ≠ .flagged := by rw [hmain]; rintro ⟨⟩
      refine ⟨fun _ => h.off hloop, fun _ _ => h.pending hloop hflagged, h.waking, fun _ => ?_⟩
      exact ⟨by rintro ⟨⟩, by rintro ⟨⟩, by rintro ⟨⟩⟩
  | scan hscan =>
      exact ⟨h.off, fun hloop hflagged => (h.pending hloop hflagged).step hscan, h.waking, h.called⟩
  | inotiConnect hinoti =>
      exact ⟨h.off, h.pending, fun hwoken _ => h.waking hwoken (by rw [hinoti]; rfl), h.called⟩
  | inotiRead more hinoti hevents =>
      exact ⟨h.off, h.pending, fun _ hsleeps => absurd hsleeps Bool.false_ne_true, h.called⟩
  | inotiEvent hinoti hgo =>
      refine ⟨h.off, h.pending, fun hwoken _ => ?_, h.called⟩
      exact absurd (.inl (h.off (h.called hwoken).1)) hgo
  | inotiStop hinoti hstop | inotiLeave hinoti =>
      exact ⟨h.off, h.pending, fun _ hsleeps => absurd hsleeps Bool.false_ne_true, h.called⟩
  | inotiNext hinoti =>
      exact ⟨h.off, h.pending, fun hwoken _ => h.waking hwoken (by rw [hinoti]; rfl), h.called⟩
  | push hmain htype =>
      exact ⟨h.off, fun hloop hflagged => (h.pending hloop hflagged).push _, h.waking, h.called⟩
  | setMmcState => exact ⟨h.off, h.pending, h.waking, h.called⟩
  | event => exact ⟨h.off, h.pending, fun _ _ => by simp, h.called⟩

/-- The events stay queued or are in the thread's hands: once woken, always woken. -/
theorem woken_step (h : Awake s) (hwoken : s.woken = true) (hstep : shutdownStep s l = some t) :
    t.woken = true := by
  cases shutdownStep_cases hstep with
  | wake made removed hmain => exact absurd hmain (h.called hwoken).2.2
  | _ => exact hwoken

theorem descends :
    Run.Descends shutdownStep (fun s => Awake s ∧ s.woken = true) ShutdownLabel.own
      ShutdownLabel.cost Shutdown.left := by
  intro s l t h hstep
  obtain ⟨h, hwoken⟩ := h
  obtain ⟨hloop, hflagged, hpushed⟩ := h.called hwoken
  have hoff := h.off hloop
  cases shutdownStep_cases hstep with
  | notified hmain => exact absurd hmain hloop
  | pushPowerOff id storageType hmain => exact absurd hmain hflagged
  | wake made removed hmain hqueued => exact absurd hmain hpushed
  | loopReturns hmain | joinInoti hmain | joinScan hmain =>
      simp only [Shutdown.left, hmain, MainPc.left, ShutdownLabel.own, ShutdownLabel.cost,
        Bool.toNat_true]
      omega
  | scan hscan =>
      have hless := scanLeft_lt hoff hscan
      simp only [Shutdown.left, ShutdownLabel.own, ShutdownLabel.cost, Bool.toNat_true]
      omega
  | @inotiConnect ok hinoti =>
      have hnext : InotiPc.left (if ok then .reading else .ended) ≤ 3 := by cases ok <;> decide
      simp only [Shutdown.left, hinoti, InotiPc.left, ShutdownLabel.own, ShutdownLabel.cost,
        Bool.toNat_true] at hnext ⊢
      omega
  | inotiRead more hinoti | inotiStop hinoti | inotiNext hinoti | inotiLeave hinoti =>
      simp only [Shutdown.left, hinoti, InotiPc.left, ShutdownLabel.own, ShutdownLabel.cost,
        Bool.toNat_true]
      omega
  | inotiEvent hinoti hgo => exact absurd (.inl hoff) hgo
  | push hmain htype =>
      simp only [Shutdown.left, scanLeft, ShutdownLabel.own, ShutdownLabel.cost,
        Bool.toNat_false, List.length_append, List.length_singleton]
      omega
  | setMmcState | event => exact Nat.le_refl _

/-- Until `main` has ended, somebody can move. -/
theorem lively (h : Awake s) (hwoken : s.woken = true) :
    Run.Lively shutdownStep ShutdownLabel.own (fun s => s.main = .ended) s := by
  have moves : ∀ l : ShutdownLabel, l.own = true → (shutdownStep s l).isSome = true →
      Run.Lively shutdownStep ShutdownLabel.own (fun s => s.main = .ended) s := by
    intro l hown hstep
    obtain ⟨t, ht⟩ := Option.isSome_iff_exists.mp hstep
    exact .inr ⟨l, t, hown, ht⟩
  obtain ⟨hloop, hflagged, hpushed⟩ := h.called hwoken
  cases hmain : s.main with
  | loop => exact absurd hmain hloop
  | flagged => exact absurd hmain hflagged
  | pushed => exact absurd hmain hpushed
  | quitting => exact moves .loopReturns rfl (by simp [shutdownStep, hmain])
  | joinInoti =>
      cases hinoti : s.inoti with
      | connecting => exact moves (.inotiConnect true) rfl (by simp [shutdownStep, hinoti])
      | reading =>
          have hevents : s.events ≠ [] := h.waking hwoken (by rw [hinoti]; rfl)
          exact moves (.inotiRead 0) rfl (by simp [shutdownStep, hinoti, hevents])
      | handling buffer =>
          cases buffer with
          | nil => exact moves .inotiNext rfl (by simp [shutdownStep, hinoti])
          | cons name buffer => exact moves .inotiEvent rfl (by simp [shutdownStep, hinoti])
      | leaving => exact moves .inotiLeave rfl (by simp [shutdownStep, hinoti])
      | ended => exact moves .joinInoti rfl (by simp [shutdownStep, hmain, hinoti])
  | joinScan =>
      by_cases hpc : s.scan.pc = .returned
      · exact moves .joinScan rfl (by simp [shutdownStep, hmain, hpc])
      · obtain ⟨act, hact⟩ := (h.pending hloop hflagged).exists_step (f := s.flags) hpc
        exact moves (.scan act) rfl (by simpa [shutdownStep] using hact)
  | ended => exact .inl hmain

end Step

theorem awake_start (rootWatched : Bool) : Awake { rootWatched } where
  off h := absurd rfl h
  pending h := absurd rfl h
  waking h := absurd h Bool.false_ne_true
  called h := absurd h Bool.false_ne_true

/-- Once `_power_off_cb` has queued an event for the inotify thread, the server ends. In
any continuation it makes no more moves than it had left and new requests pay for, and at
every point of it `main` has ended or some thread can move; with the threads left alone,
`main` ends. -/
theorem shutdown_ends (rootWatched : Bool) (labels : List ShutdownLabel) {s : Shutdown}
    (hexec : Run.exec shutdownStep { rootWatched } labels = some s) (hwoken : s.woken = true) :
    (∀ later t, Run.exec shutdownStep s later = some t →
      later.countP ShutdownLabel.own + t.left ≤ s.left + (later.map ShutdownLabel.cost).sum ∧
        Run.Lively shutdownStep ShutdownLabel.own (fun s => s.main = .ended) t) ∧
      ∃ alone t, (∀ l ∈ alone, l.own = true) ∧ Run.exec shutdownStep s alone = some t ∧
        t.main = .ended := by
  have hawake : Awake s :=
    (Run.always_of_step (fun _ _ _ h hstep => h.step hstep) (awake_start rootWatched)).of_exec hexec
  have preserved : ∀ s l t, Awake s ∧ s.woken = true → shutdownStep s l = some t →
      Awake t ∧ t.woken = true :=
    fun _ _ _ h hstep => ⟨h.1.step hstep, woken_step h.1 h.2 hstep⟩
  constructor
  · intro later t hlater
    refine ⟨Run.countP_add_le preserved descends ⟨hawake, hwoken⟩ hlater, ?_⟩
    have hend : Awake t ∧ t.woken = true :=
      (Run.always_of_step preserved ⟨hawake, hwoken⟩).of_exec hlater
    exact lively hend.1 hend.2
  · refine Run.exists_exec_done preserved descends ?_ (fun s h => lively h.1 h.2) ⟨hawake, hwoken⟩
    intro l hown
    cases l with
    | push d => cases hown
    | _ => rfl

theorem shutdown_ends_idle :
    ∃ alone t, (∀ l ∈ alone, l.own = true) ∧
      Run.exec shutdownStep
        { rootWatched := true
          flags := { powerOff := true }
          main := .quitting
          scan := { queue := [⟨1, none, .internal, .powerOff⟩] }
          inoti := .reading
          events := [powerOffDirName, powerOffDirName]
          woken := true }
        alone = some t ∧ t.main = .ended :=
  (shutdown_ends true [.inotiConnect true, .notified, .pushPowerOff 1 .internal, .wake true true]
    rfl rfl).2

/-- `main` gets past the first join when the inotify thread has ended only. -/
def Joined (s : Shutdown) : Prop := s.main = .joinScan ∨ s.main = .ended → s.inoti = .ended

theorem Joined.step {s t : Shutdown} {l : ShutdownLabel} (h : Joined s)
    (hstep : shutdownStep s l = some t) : Joined t := by
  cases shutdownStep_cases hstep with
  | notified | pushPowerOff | wake | loopReturns => rintro (hmain | hmain) <;> cases hmain
  | joinInoti _ hinoti => exact fun _ => hinoti
  | joinScan hmain => exact fun _ => h (.inl hmain)
  | inotiConnect hpc | inotiRead _ hpc | inotiEvent hpc | inotiStop hpc | inotiNext hpc
  | inotiLeave hpc =>
      intro hmain
      have hended := hpc.symm.trans (h hmain)
      cases hended
  | scan | push | setMmcState | event => exact h

/-- Nothing is queued for the inotify thread, which sleeps at `read`, and the callback will
queue nothing for it. -/
structure Asleep (s : Shutdown) : Prop where
  unwatched : s.rootWatched = false
  inoti : s.inoti = .reading
  events : s.events = []

/-- Only something that happens in a watched directory ends that sleep. -/
theorem Asleep.step {s t : Shutdown} {l : ShutdownLabel} (h : Asleep s)
    (hquiet : ∀ name, l ≠ .event name) (hstep : shutdownStep s l = some t) : Asleep t := by
  obtain ⟨hunwatched, hinoti, hevents⟩ := h
  cases shutdownStep_cases hstep with
  | wake made removed hpc hqueued =>
      rw [hunwatched, if_neg Bool.false_ne_true] at hqueued
      exact ⟨hunwatched, hinoti, by simp [← hqueued, hevents]⟩
  | joinInoti _ hpc | inotiConnect hpc | inotiEvent hpc | inotiStop hpc | inotiNext hpc
  | inotiLeave hpc =>
      rw [hinoti] at hpc
      cases hpc
  | inotiRead more _ hcons =>
      rw [hevents] at hcons
      cases hcons
  | notified | pushPowerOff | loopReturns | joinScan | scan | push | setMmcState =>
      exact ⟨hunwatched, hinoti, hevents⟩
  | event => exact absurd rfl (hquiet _)

theorem rootWatched_step {s t : Shutdown} {l : ShutdownLabel} (h : s.rootWatched = false)
    (hstep : shutdownStep s l = some t) : t.rootWatched = false := by
  cases shutdownStep_cases hstep <;> exact h

theorem Asleep.exec {s t : Shutdown} (h : Asleep s) {later : List ShutdownLabel}
    (hquiet : ∀ l ∈ later, ∀ name, l ≠ .event name)
    (hexec : Run.exec shutdownStep s later = some t) : Asleep t := by
  induction later generalizing s with
  | nil => exact Option.some.inj hexec ▸ h
  | cons l later ih =>
      obtain ⟨middle, hstep, hrest⟩ := Option.bind_eq_some_iff.mp hexec
      obtain ⟨hl, hlater⟩ := List.forall_mem_cons.mp hquiet
      exact ih (h.step hl hstep) hlater hrest

/-- Without a watch of `/opt/media` the callback wakes nobody: once the inotify thread is at
`read` with no event queued it stays there, before and after the power-off, and `main` does
not end, for as long as nothing happens in a watched directory. -/
theorem shutdown_hangs {s t : Shutdown} {before later : List ShutdownLabel}
    (hbefore : Run.exec shutdownStep { rootWatched := false } before = some s)
    (hreading : s.inoti = .reading) (hevents : s.events = [])
    (hquiet : ∀ l ∈ later, ∀ name, l ≠ .event name)
    (hexec : Run.exec shutdownStep s later = some t) :
    t.inoti = .reading ∧ t.main ≠ .ended := by
  have hunwatched : s.rootWatched = false :=
    (Run.always_of_step (I := fun s => s.rootWatched = false)
      (fun _ _ _ h hstep => rootWatched_step h hstep) rfl).of_exec hbefore
  have hstart : Joined { rootWatched := false } := by rintro (hmain | hmain) <;> cases hmain
  have hjoined : Joined s :=
    (Run.always_of_step (fun _ _ _ h hstep => h.step hstep) hstart).of_exec hbefore
  have hjoined' : Joined t :=
    (Run.always_of_step (fun _ _ _ h hstep => h.step hstep) hjoined).of_exec hexec
  have hasleep : Asleep t := Asleep.exec ⟨hunwatched, hreading, hevents⟩ hquiet hexec
  refine ⟨hasleep.inoti, fun hmain => ?_⟩
  have hended := hjoined' (.inr hmain)
  rw [hasleep.inoti] at hended
  cases hended

theorem shutdown_hangs_unwatched :
    ∃ t, Run.exec shutdownStep { rootWatched := false, inoti := .reading }
        [.notified, .pushPowerOff 1 .internal, .wake true true, .loopReturns, .scan .receive,
          .scan .take, .scan .exit] = some t ∧
      t.inoti = .reading ∧ t.main ≠ .ended := by
  have hconnected : Run.exec shutdownStep { rootWatched := false } [.inotiConnect true] =
      some { rootWatched := false, inoti := .reading } := rfl
  obtain ⟨t, ht⟩ : ∃ t, Run.exec shutdownStep { rootWatched := false, inoti := .reading }
      [.notified, .pushPowerOff 1 .internal, .wake true true, .loopReturns, .scan .receive,
        .scan .take, .scan .exit] = some t := ⟨_, rfl⟩
  exact ⟨t, ht, shutdown_hangs hconnected rfl rfl (by simp) ht⟩

end MediaServer.Main
