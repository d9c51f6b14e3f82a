import MediaServer.DbSvc.Connection
import MediaServer.Scan.DbStatus

/-!
# The bundles of the threads

Three threads talk to the plug-ins, each over connections of its own: `main` with its
handler of the socket, `ms_inoti_thread` and `ms_scan_thread`. Each call is a step of its
own, so that a crash, or another thread, can come between any two of them.

What is in a bundle that is still open is lost in a crash. The persistent status tells the
next boot whether there can be such a bundle.
-/

namespace MediaServer.DbSvc

open Inotify Scan

/-- A thread that has connections. -/
inductive Party where
  | main
  | inotify
  | scan
deriving DecidableEq, Repr

/-- How far `ms_inoti_thread` is. -/
inductive InotiPc where
  | off
  /-- In its loop. -/
  | running
  | returned
deriving DecidableEq, Repr

structure Talks where
  main : Talker := {}
  inotify : Talker := {}
  scan : Talker := {}
  boot : Boot := .off
  /-- `ms_connect_db` of `main` got through; `main` does not look. -/
  connected : Bool := false
  /-- `main` has left its loop and disconnected. -/
  ended : Bool := false
  inotiPc : InotiPc := .off
  inoti : Inoti := {}
  thread : Thread := {}
  flags : Flags := {}
  dbStatus : DbStatus

inductive TalksLabel where
  /-- The next call of a thread. -/
  | talk (p : Party)
  /-- `main` connects. -/
  | boot (answers : Nat → Bool)
  /-- The next statement of `main` up to its loop. -/
  | main
  /-- `ms_read_socket` registers the file of a datagram. -/
  | datagram (path : Text) (env : Env)
  /-- `main` disconnects. -/
  | quit (answers : Nat → Bool)
  /-- The inotify thread connects. -/
  | listen (answers : Nat → Bool)
  /-- It handles an event; every call that it asks for meets its own answers. -/
  | event (w : World) (e : Event) (asked : List (ServiceCall × Env)) (answers : Nat → Bool)
  /-- A step of the scan thread. -/
  | scan (a : ThreadAct) (o : Outside) (plugIns : List PlugIn) (answers : Nat → Bool)
  /-- A request for the scan thread. -/
  | push (d : ScanData)
  /-- Another thread sets the global flags. -/
  | flags (flags : Flags)
  | crash

namespace Talks

variable (libNum : Nat) (s : Talks)

def talker : Party → Talker
  | .main => s.main
  | .inotify => s.inotify
  | .scan => s.scan

def setTalker (p : Party) (t : Talker) : Talks :=
  match p with
  | .main => { s with main := t }
  | .inotify => { s with inotify := t }
  | .scan => { s with scan := t }

/-- `_db_clear`, and the request for the internal storage. -/
def mainStep : Option Talks :=
  match s.boot with
  | .off | .running => none
  | .clearExternal =>
      some { s with boot := .readStatus, main := s.main.msInvalidateAllItems .external }
  | .readStatus =>
      some { s with
        boot := if s.dbStatus = .updating then .invalidateInternal else .markUpdated false }
  | .invalidateInternal =>
      some { s with boot := .markUpdated true, main := s.main.msInvalidateAllItems .internal }
  | .markUpdated needDbCreate =>
      some { s with boot := .pushInternal needDbCreate, dbStatus := .updated }
  | .pushInternal needDbCreate =>
      let queue := if needDbCreate then s.thread.queue ++ [phoneScanData] else s.thread.queue
      some { s with boot := .running, thread := { s.thread with queue } }

/-- What the scan thread says at a step. -/
def scanTalk (a : ThreadAct) (o : Outside) (plugIns : List PlugIn) (answers : Nat → Bool) :
    Talker :=
  let t := s.scan
  match a, s.thread.pc with
  | .connectDb _, _ => (t.msConnectDb libNum answers).1
  | .setUpdating, .updating d => if d.scanType = .all then t else t.startScan d.scanType
  | .deleteAllItems _, .deleteAll d =>
      (t.msDeleteAllItems answers d.storageType).startScan d.scanType
  | .scanFile path, .dirScan d =>
      t.say (t.through ((scanFileOp d.scanType path).run o plugIns).2)
  | .invalidateAllItems, .dirScan d => t.msInvalidateAllItems d.storageType
  | .testPowerOff, .scanned d => if s.flags.powerOff then t else t.endScan d.scanType
  | .deleteInvalidItems _, .deleteInvalid d => t.msDeleteInvalidItems answers d.storageType
  | .setUpdated, _ | .exit, _ => t.msDisconnectDb answers
  | _, _ => t

/-- The step of the thread has the result that the answers of `CONNECT` lead to. -/
def agrees (a : ThreadAct) (answers : Nat → Bool) : Bool :=
  match a with
  | .connectDb ok => (s.scan.msConnectDb libNum answers).2 = ok
  | _ => true

/-- What the scan thread does to the persistent status. -/
def statusAfter : ThreadAct → DbStatus
  | .setUpdating => .updating
  | .setUpdated => .updated
  | _ => s.dbStatus

/-- What the inotify thread says about an event. -/
def eventTalk (w : World) (e : Event) (asked : List (ServiceCall × Env)) : Talker :=
  let trace := asked.flatMap fun x => plugInCalls x.2 x.1
  let t := s.inotify
  if (s.inoti.calls w e).isSome then
    let t := t.msMoveStart
    (t.say (t.through trace)).msMoveEnd
  else t.say (t.through trace)

/-- The event ends a file operation. -/
def announces (w : World) (e : Event) : Prop :=
  ¬ w.powerOff ∧ e.name ≠ "_POWER_OFF".toList ∧ e.name = "_FILEOPERATION_END".toList

instance (w : World) (e : Event) : Decidable (announces w e) :=
  inferInstanceAs (Decidable (_ ∧ _ ∧ _))

def eventStep (w : World) (e : Event) (asked : List (ServiceCall × Env)) (answers : Nat → Bool) :
    Talks :=
  let inoti := s.inoti.event w e
  let t := s.eventTalk w e asked
  let s := { s with inoti, dbStatus := if announces w e then .updated else s.dbStatus }
  if inoti.stopped then { s with inotify := t.msDisconnectDb answers, inotiPc := .returned }
  else { s with inotify := t }

end Talks

def talksStep (libNum : Nat) (s : Talks) : TalksLabel → Option Talks
  | .talk p => (s.talker p).talk.map (s.setTalker p)
  | .boot answers =>
      if s.boot = .off ∧ s.ended = false then
        let (main, connected) := s.main.msConnectDb libNum answers
        some { s with main, connected, boot := .clearExternal }
      else none
  | .main => if s.main.todo = [] ∧ s.ended = false then s.mainStep else none
  | .datagram path env =>
      if s.main.todo = [] ∧ s.boot = .running ∧ s.ended = false ∧ env.Fits libNum then
        some { s with main := s.main.say (s.main.through (plugInCalls env (.register path))) }
      else none
  | .quit answers =>
      if s.main.todo = [] ∧ s.boot = .running ∧ s.ended = false ∧ s.inotiPc = .returned ∧
          s.thread.pc = .returned then
        some { s with main := s.main.msDisconnectDb answers, ended := true }
      else none
  | .listen answers =>
      if s.boot.started ∧ s.inotiPc = .off then
        let (inotify, ok) := s.inotify.msConnectDb libNum answers
        some { s with inotify, inotiPc := if ok then .running else .returned }
      else none
  | .event w e asked answers =>
      if s.inotify.todo = [] ∧ s.inotiPc = .running ∧ w.powerOff = s.flags.powerOff ∧
          asked.map Prod.fst = s.inoti.serviceCalls w e ∧ ∀ x ∈ asked, x.2.Fits libNum then
        some (s.eventStep w e asked answers)
      else none
  | .scan a o plugIns answers =>
      if s.scan.todo = [] ∧ s.boot.started ∧ plugIns.length = libNum ∧
          s.agrees libNum a answers then
        (threadStep s.flags s.thread a).map fun thread =>
          { s with
            thread
            scan := s.scanTalk libNum a o plugIns answers
            dbStatus := s.statusAfter a }
      else none
  | .push d =>
      if s.boot = .running then
        some { s with thread := { s.thread with queue := s.thread.queue ++ [d] } }
      else none
  | .flags flags => some { s with flags }
  | .crash => some { dbStatus := s.dbStatus }

/-! ### The threads keep to the protocol -/

/-- The place in the protocol that goes with a place in `ms_scan_thread`. -/
def wants : Pc → Session → Prop
  | .top, u | .connectDb _, u | .updateMmcInfo _, u | .release _, u => u.Stale
  | .powerOff d, u => if d.scanType = .powerOff then u.Stale else u = .scanning d.scanType
  | .updating _, u | .deleteAll _, u | .deleteInvalid _, u | .updated _, u => u = .connected
  | .dirScan d, u | .scanned d, u => u = .scanning d.scanType
  | .returned, _ => True

/-- From the one write of the persistent status to the other. -/
def inScan : Pc → Bool
  | .deleteAll _ | .dirScan _ | .scanned _ | .deleteInvalid _ | .updated _ => true
  | .powerOff d => d.scanType ≠ .powerOff
  | .top | .connectDb _ | .updating _ | .updateMmcInfo _ | .release _ | .returned => false

/-- A request is being handled, over connections to all the plug-ins. -/
def inRequest : Pc → Bool
  | .updating _ => true
  | pc => inScan pc

/-- The thread connects or disconnects. -/
def AtEnds (todo : List (Option Nat × Talk)) : Prop :=
  ∀ x ∈ todo, x.2 = .connect ∨ x.2 = .disconnect

structure ScanInv (libNum : Nat) (t : Talker) (pc : Pc) : Prop where
  place : pc ≠ .returned → t.At (wants pc)
  inOrder : ∀ k, ∃ u, t.session k = some u
  clean : ∀ x ∈ t.line, x.1 = none → x.2 = .disconnect ∧ pc = .returned
  full : inRequest pc = true → t.Full libNum
  typed : ∀ d ∈ pc.current, d.scanType = .powerOff → pc = .powerOff d
  calm : inScan pc = false → AtEnds t.todo

section Scan

variable {libNum : Nat} {t t' : Talker} {pc pc' : Pc} {talks : List (Option Nat × Talk)}
  {answers : Nat → Bool} {d : ScanData}

theorem stale_connected : Session.connected.Stale := ⟨nofun, rfl⟩

theorem Session.Stale.disconnect {u : Session} (h : u.Stale) :
    ∃ u', u.hear .disconnect = some u' ∧ u'.Stale := by
  obtain ⟨hphase, hidle⟩ := h
  cases hu : u.phase with
  | fresh => exact absurd hu hphase
  | live => exact ⟨{ u with phase := .closed }, by rw [Session.hear, hu]; rfl, nofun, hidle⟩
  | closed => exact ⟨u, by rw [Session.hear, hu]; rfl, hphase, hidle⟩

/-- The thread goes on without a call. -/
theorem ScanInv.goto (h : ScanInv libNum t pc) (hwants : ∀ u, wants pc u → wants pc' u)
    (hpc : pc ≠ .returned)
    (hfull : inRequest pc' = true → inRequest pc = true)
    (htyped : ∀ d ∈ pc'.current, d.scanType = .powerOff → pc' = .powerOff d)
    (hcalm : inScan pc' = false → inScan pc = false) : ScanInv libNum t pc' where
  place _ := (h.place hpc).mono hwants
  inOrder := h.inOrder
  clean x hx hnone := absurd (h.clean x hx hnone).2 hpc
  full hin := h.full (hfull hin)
  typed := htyped
  calm hin := h.calm (hcalm hin)

/-- The thread makes calls over all its connections, in a request. -/
theorem ScanInv.say (h : ScanInv libNum t pc) (hin : inRequest pc = true)
    (slots : ∀ x ∈ talks, x.1 ∈ t.handle) (hplace : (t.say talks).At (wants pc'))
    (htyped : ∀ d ∈ pc'.current, d.scanType = .powerOff → pc' = .powerOff d)
    (hcalm : inScan pc' = true) : ScanInv libNum (t.say talks) pc' where
  place _ := hplace
  inOrder := hplace.inOrder
  clean x hx hnone := by
    rw [Talker.line_say] at hx
    cases List.mem_append.mp hx with
    | inl hx =>
        have hpc : pc = .returned := (h.clean x hx hnone).2
        rw [hpc] at hin
        cases hin
    | inr hx => exact absurd hnone ((h.full hin).ne_none (slots x hx))
  full _ := h.full hin
  typed := htyped
  calm hin' := by
    rw [hcalm] at hin'
    cases hin'

theorem ScanInv.talk (h : ScanInv libNum t pc) (htalk : t.talk = some t') :
    ScanInv libNum t' pc where
  place hpc := (h.place hpc).talk htalk
  inOrder k := by
    obtain ⟨u, hu⟩ := h.inOrder k
    exact ⟨u, by rw [Talker.session, Talker.line_talk htalk]; exact hu⟩
  clean := by
    rw [Talker.line_talk htalk]
    exact h.clean
  full hin := by
    rw [Talker.Full, Talker.handle_talk htalk]
    exact h.full hin
  typed := h.typed
  calm hin := by
    have hcalm := h.calm hin
    rw [Talker.talk] at htalk
    cases htodo : t.todo with
    | nil => rw [htodo] at htalk; cases htalk
    | cons x todo =>
        rw [htodo] at htalk hcalm
        obtain rfl := Option.some.inj htalk
        exact fun y hy => hcalm y (List.mem_cons_of_mem x hy)

/-- The calls of `ms_connect_db`. -/
theorem msConnectDb_line (t : Talker) (libNum : Nat) (answers : Nat → Bool) :
    ∃ talks, (t.msConnectDb libNum answers).1.line = t.line ++ talks ∧
      (t.msConnectDb libNum answers).1.todo = t.todo ++ talks ∧
        ∀ x ∈ talks, x.1 ≠ none ∧ x.2 = .connect := by
  refine ⟨_, Talker.line_say, rfl, ?_⟩
  intro x hx
  obtain ⟨entry, hentry, htalk⟩ := List.mem_filterMap.mp hx
  rw [connectLoop_eq] at hentry
  obtain ⟨k, -, rfl⟩ := List.mem_map.mp hentry
  obtain rfl := Option.some.inj htalk
  exact ⟨nofun, rfl⟩

/-- When every `CONNECT` succeeds there is a connection to every plug-in. -/
theorem full_msConnectDb (t : Talker) (hok : (t.msConnectDb libNum answers).2 = true) :
    (t.msConnectDb libNum answers).1.Full libNum := by
  simp only [Talker.msConnectDb, connectLoop_eq, decide_eq_true_eq] at hok
  rw [Talker.Full]
  simp only [Talker.msConnectDb, connectLoop_eq, Talker.say, hok, Nat.sub_self]
  simp [slots]

theorem ScanInv.connect (h : ScanInv libNum t (.connectDb d)) (htodo : t.todo = [])
    {ok : Bool} (hok : (t.msConnectDb libNum answers).2 = ok) :
    ScanInv libNum (t.msConnectDb libNum answers).1 (if ok then .updating d else .top) := by
  have hat : (t.msConnectDb libNum answers).1.At (· = .connected) :=
    (h.place nofun).msConnectDb (fun _ hu => hu.2) libNum answers
  obtain ⟨talks, hline, htodo', htalks⟩ := msConnectDb_line t libNum answers
  have hclean : ∀ x ∈ (t.msConnectDb libNum answers).1.line, x.1 ≠ none := by
    rw [hline]
    refine List.forall_mem_append.mpr ⟨fun x hx hnone => ?_, fun x hx => (htalks x hx).1⟩
    exact absurd (h.clean x hx hnone).2 nofun
  have hcalm : AtEnds (t.msConnectDb libNum answers).1.todo := by
    rw [htodo', htodo]
    exact fun x hx => .inl (htalks x hx).2
  constructor
  · intro _
    cases ok with
    | true => exact hat
    | false => exact hat.mono fun _ hu => hu ▸ stale_connected
  · exact hat.inOrder
  · exact fun x hx hnone => absurd hnone (hclean x hx)
  · intro hin
    cases ok with
    | true => exact full_msConnectDb t hok
    | false => cases hin
  · intro e he htype
    cases ok with
    | true =>
        obtain rfl := List.mem_singleton.mp he
        exact absurd (h.typed e (List.mem_singleton_self e) htype) nofun
    | false => cases he
  · exact fun _ => hcalm

/-- The calls of `ms_disconnect_db`. -/
theorem msDisconnectDb_line (t : Talker) (answers : Nat → Bool) :
    (t.msDisconnectDb answers).line = t.line ++ t.disconnectTalks answers ∧
      (t.msDisconnectDb answers).todo = t.todo ++ t.disconnectTalks answers ∧
        (∀ x ∈ t.disconnectTalks answers, x.1 ∈ t.handle ∧ x.2 = .disconnect) := by
  refine ⟨?_, ?_, fun x hx => Talker.mem_disconnectLoop_talks hx⟩
  · rcases t.msDisconnectDb_cases answers with heq | heq
    · rw [heq]
      exact Talker.line_say
    · rw [heq]
      exact Talker.line_say (t := t)
  · rcases t.msDisconnectDb_cases answers with heq | heq
    · rw [heq]
      rfl
    · rw [heq]
      rfl

theorem session_msDisconnectDb (t : Talker) (answers : Nat → Bool) (k : Nat) :
    (t.msDisconnectDb answers).session k = (t.say (t.disconnectTalks answers)).session k := by
  rw [Talker.session, Talker.session, (msDisconnectDb_line t answers).1, Talker.line_say]

/-- The end of a request. -/
theorem ScanInv.updated (h : ScanInv libNum t (.updated d)) (htodo : t.todo = [])
    (hin : inRequest pc' = false) (hwants : wants pc' = Session.Stale)
    (htyped : ∀ d ∈ pc'.current, d.scanType = .powerOff → pc' = .powerOff d) :
    ScanInv libNum (t.msDisconnectDb answers) pc' := by
  have hstale : t.At Session.Stale := (h.place nofun).mono fun _ hu => hu ▸ stale_connected
  have hat : (t.msDisconnectDb answers).At Session.Stale :=
    hstale.msDisconnectDb answers (fun _ hu => hu.2) fun _ hu => hu.disconnect
  obtain ⟨hline, htodo', htalks⟩ := msDisconnectDb_line t answers
  have hfull : t.Full libNum := h.full rfl
  constructor
  · exact fun _ => hwants ▸ hat
  · exact hat.inOrder
  · rw [hline]
    refine List.forall_mem_append.mpr ⟨fun x hx hnone => ?_, fun x hx hnone => ?_⟩
    · exact absurd (h.clean x hx hnone).2 nofun
    · exact absurd hnone (hfull.ne_none (htalks x hx).1)
  · intro hin'
    rw [hin] at hin'
    cases hin'
  · exact htyped
  · intro _
    rw [htodo', htodo]
    exact fun x hx => .inr (htalks x hx).2

theorem powerOff_ne_returned : Pc.powerOff d ≠ .returned := by
  rintro ⟨⟩

/-- The label `POWER_OFF`; a scan may have been left with its bundles open. -/
theorem ScanInv.exit (h : ScanInv libNum t (.powerOff d)) (htodo : t.todo = []) :
    ScanInv libNum (t.msDisconnectDb answers) .returned := by
  have hknown : t.At fun u => u.phase ≠ .fresh := by
    refine (h.place powerOff_ne_returned).mono fun u hu => ?_
    rw [wants] at hu
    split at hu
    · exact hu.1
    · rw [hu]
      rintro ⟨⟩
  have hat : (t.say (t.disconnectTalks answers)).At fun u => u.phase ≠ .fresh := by
    refine hknown.disconnectTalks answers fun u hu => ?_
    cases hphase : u.phase with
    | fresh => exact absurd hphase hu
    | live =>
        exact ⟨{ u with phase := .closed }, by rw [Session.hear, hphase]; rfl, by rintro ⟨⟩⟩
    | closed => exact ⟨u, by rw [Session.hear, hphase]; rfl, hu⟩
  obtain ⟨hline, htodo', htalks⟩ := msDisconnectDb_line t answers
  constructor
  · exact fun hpc => absurd rfl hpc
  · intro k
    rw [session_msDisconnectDb]
    exact hat.inOrder k
  · rw [hline]
    refine List.forall_mem_append.mpr ⟨fun x hx hnone => ?_, fun x hx _ => ?_⟩
    · exact absurd (h.clean x hx hnone).2 powerOff_ne_returned
    · exact ⟨(htalks x hx).2, rfl⟩
  · rintro ⟨⟩
  · rintro d ⟨⟩
  · intro _
    rw [htodo', htodo]
    exact fun x hx => .inr (htalks x hx).2

/-- In a request that is not the one for a power-off. -/
theorem typed_of_ne (hne : d.scanType ≠ .powerOff) (hcurrent : ∀ e ∈ pc.current, e = d) :
    ∀ e ∈ pc.current, e.scanType = .powerOff → pc = .powerOff e := by
  intro e he htype
  rw [hcurrent e he] at htype
  exact absurd htype hne

theorem ScanInv.startScan (h : ScanInv libNum t pc) (hin : inRequest pc = true)
    (hat : t.At (· = .connected)) (hne : d.scanType ≠ .powerOff) :
    ScanInv libNum (t.startScan d.scanType) (.dirScan d) := by
  obtain ⟨⟨talks, htalks, hslots⟩, -⟩ := t.scan_talks d.scanType
  have hplace := hat.startScan d.scanType
  rw [htalks] at hplace ⊢
  exact h.say hin hslots hplace (typed_of_ne hne fun e he => List.mem_singleton.mp he) rfl

theorem ScanInv.endScan (h : ScanInv libNum t (.scanned d)) (hne : d.scanType ≠ .powerOff)
    (hwants : wants pc' = (· = .connected)) (hcurrent : ∀ e ∈ pc'.current, e = d)
    (hcalm : inScan pc' = true) : ScanInv libNum (t.endScan d.scanType) pc' := by
  obtain ⟨-, talks, htalks, hslots⟩ := t.scan_talks d.scanType
  have hplace : (t.endScan d.scanType).At (· = .connected) := (h.place nofun).endScan
  rw [htalks] at hplace ⊢
  rw [← hwants] at hplace
  exact h.say rfl hslots hplace (typed_of_ne hne hcurrent) hcalm

theorem ScanInv.step {s : Talks} {a : ThreadAct} {o : Outside} {plugIns : List PlugIn}
    {thread : Thread} (h : ScanInv libNum s.scan s.thread.pc) (htodo : s.scan.todo = [])
    (hplugIns : plugIns.length = libNum) (hagrees : s.agrees libNum a answers = true)
    (hstep : threadStep s.flags s.thread a = some thread) :
    ScanInv libNum (s.scanTalk libNum a o plugIns answers) thread.pc := by
  cases threadStep_cases hstep with
  | receive hpc => exact h
  | takePowerOff hpc _ _ htype =>
      rw [hpc] at h
      refine h.goto (fun u hu => ?_) nofun (fun hin => ?_) ?_ fun _ => rfl
      · rw [wants, if_pos htype]
        exact hu
      · simp [inRequest, inScan, htype] at hin
      · intro e he _
        rw [List.mem_singleton.mp he]
  | take hpc _ _ htype =>
      rw [hpc] at h
      refine h.goto (fun u hu => hu) nofun nofun ?_ fun _ => rfl
      exact typed_of_ne htype fun e he => List.mem_singleton.mp he
  | connected hpc =>
      rw [hpc] at h
      exact h.connect htodo (of_decide_eq_true hagrees)
  | connectFailed hpc =>
      rw [hpc] at h
      exact h.connect htodo (of_decide_eq_true hagrees)
  | @updatingAll d hpc htype =>
      have hne : d.scanType ≠ .powerOff := by simp [htype]
      rw [hpc] at h
      simp only [Talks.scanTalk, hpc, if_pos htype]
      refine h.goto (fun u hu => hu) nofun (fun _ => rfl) ?_ nofun
      exact typed_of_ne hne fun e he => List.mem_singleton.mp he
  | @updating d hpc htype =>
      rw [hpc] at h
      have hne : d.scanType ≠ .powerOff := fun hoff =>
        nomatch h.typed d (List.mem_singleton_self d) hoff
      simp only [Talks.scanTalk, hpc, if_neg htype]
      exact h.startScan rfl (h.place nofun) hne
  | @deleteAll d ok hpc =>
      rw [hpc] at h
      have hne : d.scanType ≠ .powerOff := fun hoff =>
        nomatch h.typed d (List.mem_singleton_self d) hoff
      have hslots : ∀ x ∈ s.scan.untilFailure answers (.deleteAll d.storageType),
          x.1 ∈ s.scan.handle ∧ x.2 = .deleteAll d.storageType := fun x hx =>
        Talker.mem_untilFailure hx
      have hat : (s.scan.msDeleteAllItems answers d.storageType).At (· = .connected) :=
        Talker.At.keep (h.place nofun) hslots rfl
      have hdelete : ScanInv libNum (s.scan.msDeleteAllItems answers d.storageType)
          (.deleteAll d) :=
        h.say rfl (fun x hx => (hslots x hx).1) hat
          (typed_of_ne hne fun e he => List.mem_singleton.mp he) rfl
      simp only [Talks.scanTalk, hpc]
      exact hdelete.startScan rfl hat hne
  | @scanFile d path hpc htype =>
      rw [hpc] at h ⊢
      have hsuits : Suits libNum (.scanning d.scanType)
          ((scanFileOp d.scanType path).run o plugIns).2 := by
        rw [← hplugIns]
        exact suits_scanFileOp d.scanType path o plugIns
      simp only [Talks.scanTalk, hpc]
      exact h.say rfl (fun x hx => (h.full rfl).mem_through hsuits hx)
        (Talker.At.through (h.place nofun) rfl hsuits) h.typed rfl
  | @invalidate d hpc htype =>
      rw [hpc] at h
      have hne : d.scanType ≠ .powerOff := by simp [htype]
      have hslots : ∀ x ∈ s.scan.toAll (.setAllValidity d.storageType false),
          x.1 ∈ s.scan.handle ∧ x.2 = .setAllValidity d.storageType false := fun x hx =>
        Talker.mem_toAll hx
      have hkeeps : (Session.scanning d.scanType).hear (.setAllValidity d.storageType false) =
          some (.scanning d.scanType) := by rw [htype]; rfl
      simp only [Talks.scanTalk, hpc]
      exact h.say rfl (fun x hx => (hslots x hx).1)
        (Talker.At.keep (h.place nofun) hslots hkeeps)
        (typed_of_ne hne fun e he => List.mem_singleton.mp he) rfl
  | @scanReturn d hpc =>
      rw [hpc] at h
      have hne : d.scanType ≠ .powerOff := fun hoff =>
        nomatch h.typed d (List.mem_singleton_self d) hoff
      refine h.goto (fun u hu => hu) nofun (fun _ => rfl) ?_ nofun
      exact typed_of_ne hne fun e he => List.mem_singleton.mp he
  | @stopped d hpc hoff =>
      rw [hpc] at h
      have hne : d.scanType ≠ .powerOff := fun hoff =>
        nomatch h.typed d (List.mem_singleton_self d) hoff
      simp only [Talks.scanTalk, hpc, hoff, if_true]
      refine h.goto (fun u hu => ?_) nofun (fun _ => rfl) ?_ fun hin => ?_
      · rw [wants, if_neg hne]
        exact hu
      · exact typed_of_ne hne fun e he => List.mem_singleton.mp he
      · simp [inScan, hne] at hin
  | @scannedPart d hpc hoff htype =>
      rw [hpc] at h
      have hne : d.scanType ≠ .powerOff := by simp [htype]
      simp only [Talks.scanTalk, hpc, hoff, Bool.false_eq_true, if_false]
      exact h.endScan hne rfl (fun e he => List.mem_singleton.mp he) rfl
  | @scanned d hpc hoff htype =>
      rw [hpc] at h
      have hne : d.scanType ≠ .powerOff := fun hoff =>
        nomatch h.typed d (List.mem_singleton_self d) hoff
      simp only [Talks.scanTalk, hpc, hoff, Bool.false_eq_true, if_false]
      exact h.endScan hne rfl (fun e he => List.mem_singleton.mp he) rfl
  | @deleteInvalid d ok hpc =>
      rw [hpc] at h
      have hne : d.scanType ≠ .powerOff := fun hoff =>
        nomatch h.typed d (List.mem_singleton_self d) hoff
      have hslots : ∀ x ∈ s.scan.untilFailure answers (.deleteInvalidItems d.storageType),
          x.1 ∈ s.scan.handle ∧ x.2 = .deleteInvalidItems d.storageType := fun x hx =>
        Talker.mem_untilFailure hx
      simp only [Talks.scanTalk, hpc]
      exact h.say rfl (fun x hx => (hslots x hx).1) (Talker.At.keep (h.place nofun) hslots rfl)
        (typed_of_ne hne fun e he => List.mem_singleton.mp he) rfl
  | @updatedCard d hpc =>
      rw [hpc] at h
      have hne : d.scanType ≠ .powerOff := fun hoff =>
        nomatch h.typed d (List.mem_singleton_self d) hoff
      exact h.updated htodo rfl rfl (typed_of_ne hne fun e he => List.mem_singleton.mp he)
  | @updated d hpc =>
      rw [hpc] at h
      have hne : d.scanType ≠ .powerOff := fun hoff =>
        nomatch h.typed d (List.mem_singleton_self d) hoff
      exact h.updated htodo rfl rfl (typed_of_ne hne fun e he => List.mem_singleton.mp he)
  | @updateMmcInfo d hpc =>
      rw [hpc] at h
      have hne : d.scanType ≠ .powerOff := fun hoff =>
        nomatch h.typed d (List.mem_singleton_self d) hoff
      refine h.goto (fun u hu => hu) nofun nofun ?_ fun _ => rfl
      exact typed_of_ne hne fun e he => List.mem_singleton.mp he
  | release hpc =>
      rw [hpc] at h
      exact h.goto (fun u hu => hu) nofun nofun nofun fun _ => rfl
  | exit hpc =>
      rw [hpc] at h
      exact h.exit htodo

end Scan

/-- The calls of `main` and its handler. It does not look whether it has got its
connections. -/
structure MainInv (libNum : Nat) (t : Talker) (connected ended : Bool) : Prop where
  place : t.At fun u => if ended then u.Stale else u = .connected
  clean : connected = true → t.Clean ∧ (ended = false → t.Full libNum)

structure InotifyInv (libNum : Nat) (t : Talker) (pc : InotiPc) : Prop where
  place : t.At fun u => if pc = .running then u = .connected else u.Stale
  clean : t.Clean
  full : pc = .running → t.Full libNum

structure TalksInv (libNum : Nat) (s : Talks) : Prop where
  main : MainInv libNum s.main s.connected s.ended
  fresh : s.boot = .off → s.main = {}
  inotify : InotifyInv libNum s.inotify s.inotiPc
  scan : ScanInv libNum s.scan s.thread.pc
  early : s.boot.started = false → s.thread.pc = .top

section Others

variable {libNum : Nat} {t t' : Talker} {pc : InotiPc} {connected ended : Bool}
  {answers : Nat → Bool} {trace : Trace}

theorem Talker.At.start {W : Session → Prop} : Talker.At {} W where
  new _ _ := rfl
  mine _ hk := by cases hk
  others _ _ := ⟨{}, rfl, rfl⟩
  once _ := Nat.zero_le 1

theorem MainInv.talk (h : MainInv libNum t connected ended) (htalk : t.talk = some t') :
    MainInv libNum t' connected ended where
  place := h.place.talk htalk
  clean hconnected := by
    obtain ⟨hclean, hfull⟩ := h.clean hconnected
    refine ⟨?_, fun hended => ?_⟩
    · rw [Talker.Clean, Talker.line_talk htalk]
      exact hclean
    · rw [Talker.Full, Talker.handle_talk htalk]
      exact hfull hended

theorem InotifyInv.talk (h : InotifyInv libNum t pc) (htalk : t.talk = some t') :
    InotifyInv libNum t' pc where
  place := h.place.talk htalk
  clean := by
    rw [Talker.Clean, Talker.line_talk htalk]
    exact h.clean
  full hpc := by
    rw [Talker.Full, Talker.handle_talk htalk]
    exact h.full hpc

theorem MainInv.connect : MainInv libNum (Talker.msConnectDb {} libNum answers).1
    (Talker.msConnectDb {} libNum answers).2 false where
  place := Talker.At.msConnectDb (W := Session.Stale) .start (fun _ hu => hu.2) libNum answers
  clean hok := by
    obtain ⟨talks, hline, -, htalks⟩ := msConnectDb_line {} libNum answers
    refine ⟨?_, fun _ => full_msConnectDb {} hok⟩
    rw [Talker.Clean, hline]
    exact fun x hx => (htalks x hx).1

theorem MainInv.invalidate (h : MainInv libNum t connected false) (storeType : StorageType) :
    MainInv libNum (t.msInvalidateAllItems storeType) connected false where
  place := Talker.At.keep h.place (fun _ hx => Talker.mem_toAll hx) rfl
  clean hconnected := by
    obtain ⟨hclean, hfull⟩ := h.clean hconnected
    refine ⟨hclean.say fun x hx => ?_, hfull⟩
    exact (hfull rfl).ne_none (Talker.mem_toAll hx).1

theorem MainInv.through (h : MainInv libNum t connected false)
    (hsuits : Suits libNum .connected trace) :
    MainInv libNum (t.say (t.through trace)) connected false where
  place := Talker.At.through h.place rfl hsuits
  clean hconnected := by
    obtain ⟨hclean, hfull⟩ := h.clean hconnected
    refine ⟨hclean.say fun x hx => ?_, hfull⟩
    exact (hfull rfl).ne_none ((hfull rfl).mem_through hsuits hx)

theorem MainInv.quit (h : MainInv libNum t connected false) :
    MainInv libNum (t.msDisconnectDb answers) connected true where
  place := by
    have hstale : t.At Session.Stale := h.place.mono fun _ hu => by
      rw [hu]
      exact stale_connected
    exact hstale.msDisconnectDb answers (fun _ hu => hu.2) fun _ hu => hu.disconnect
  clean hconnected := by
    obtain ⟨hclean, hfull⟩ := h.clean hconnected
    obtain ⟨hline, -, htalks⟩ := msDisconnectDb_line t answers
    refine ⟨?_, nofun⟩
    rw [Talker.Clean, hline]
    refine List.forall_mem_append.mpr ⟨hclean, fun x hx => ?_⟩
    exact (hfull rfl).ne_none (htalks x hx).1

theorem InotifyInv.listen (h : InotifyInv libNum t .off) {ok : Bool}
    (hok : (t.msConnectDb libNum answers).2 = ok) :
    InotifyInv libNum (t.msConnectDb libNum answers).1 (if ok then .running else .returned) where
  place := by
    have hat := h.place.msConnectDb (fun _ hu => hu.2) libNum answers
    cases ok with
    | true => exact hat
    | false => exact hat.mono fun _ hu => hu ▸ stale_connected
  clean := by
    obtain ⟨talks, hline, -, htalks⟩ := msConnectDb_line t libNum answers
    rw [Talker.Clean, hline]
    exact List.forall_mem_append.mpr ⟨h.clean, fun x hx => (htalks x hx).1⟩
  full hpc := by
    cases ok with
    | true => exact full_msConnectDb t hok
    | false => cases hpc

/-- What is said about an event, from one `read` to the next. -/
theorem InotifyInv.event {s : Talks} {w : World} {e : Event} {asked : List (ServiceCall × Env)}
    (h : InotifyInv libNum s.inotify .running)
    (hasked : asked.map Prod.fst = s.inoti.serviceCalls w e)
    (hfits : ∀ x ∈ asked, x.2.Fits libNum) :
    InotifyInv libNum (s.eventTalk w e asked) .running := by
  have hcalls : ∀ x ∈ asked, Suits libNum
      (if (s.inoti.calls w e).isSome then .moving else .connected) (plugInCalls x.2 x.1) := by
    intro x hx
    have hmem : x.1 ∈ s.inoti.serviceCalls w e := hasked ▸ List.mem_map_of_mem hx
    rw [← serviceSession_of_event hmem]
    exact suits_plugInCalls (hfits x hx) x.1
  have hsuits : Suits libNum (if (s.inoti.calls w e).isSome then .moving else .connected)
      (asked.flatMap fun x => plugInCalls x.2 x.1) := by
    intro y hy
    obtain ⟨x, hx, hy⟩ := List.mem_flatMap.mp hy
    exact hcalls x hx y hy
  have hfull := h.full rfl
  have hat : s.inotify.At (· = .connected) := h.place
  simp only [Talks.eventTalk]
  split
  next hrename =>
    rw [if_pos hrename] at hsuits
    have hstart : s.inotify.msMoveStart.At (· = .moving) := hat.move rfl
    have hmoves := hstart.through rfl hsuits
    refine ⟨hmoves.move rfl, ?_, fun _ => hfull⟩
    have hclean : s.inotify.msMoveStart.Clean :=
      h.clean.say fun x hx => hfull.ne_none (Talker.mem_toAll hx).1
    have hfull' : s.inotify.msMoveStart.Full libNum := hfull
    have hclean' := hclean.say fun x hx => hfull.ne_none (hfull'.mem_through hsuits hx)
    exact hclean'.say fun x hx => hfull.ne_none (Talker.mem_toAll hx).1
  next hrename =>
    rw [if_neg hrename] at hsuits
    refine ⟨hat.through rfl hsuits, ?_, fun _ => hfull⟩
    exact h.clean.say fun x hx => hfull.ne_none (hfull.mem_through hsuits hx)

theorem InotifyInv.quit (h : InotifyInv libNum t .running) :
    InotifyInv libNum (t.msDisconnectDb answers) .returned where
  place := by
    have hstale : t.At Session.Stale := h.place.mono fun _ hu => by
      rw [hu]
      exact stale_connected
    exact hstale.msDisconnectDb answers (fun _ hu => hu.2) fun _ hu => hu.disconnect
  clean := by
    obtain ⟨hline, -, htalks⟩ := msDisconnectDb_line t answers
    rw [Talker.Clean, hline]
    refine List.forall_mem_append.mpr ⟨h.clean, fun x hx => ?_⟩
    exact (h.full rfl).ne_none (htalks x hx).1
  full := nofun

theorem scanInv_start : ScanInv libNum {} .top where
  place _ := .start
  inOrder _ := ⟨{}, rfl⟩
  clean := nofun
  full := nofun
  typed := nofun
  calm _ := nofun

theorem talksInv_start (libNum : Nat) (dbStatus : DbStatus) : TalksInv libNum { dbStatus } where
  main := ⟨.start, nofun⟩
  fresh _ := rfl
  inotify := ⟨.start, nofun, nofun⟩
  scan := scanInv_start
  early _ := rfl

end Others

theorem TalksInv.mainStep {libNum : Nat} {s s' : Talks} (h : TalksInv libNum s)
    (hended : s.ended = false) (hstep : s.mainStep = some s') : TalksInv libNum s' := by
  obtain ⟨hmain, hfresh, hinotify, hscan, hearly⟩ := h
  rw [hended] at hmain
  rw [Talks.mainStep] at hstep
  cases hboot : s.boot with
  | off | running =>
      rw [hboot] at hstep
      cases hstep
  | clearExternal =>
      simp only [hboot] at hstep
      obtain rfl := Option.some.inj hstep
      rw [hboot] at hearly
      exact ⟨hended ▸ hmain.invalidate .external, nofun, hinotify, hscan, fun _ => hearly rfl⟩
  | readStatus =>
      simp only [hboot] at hstep
      obtain rfl := Option.some.inj hstep
      rw [hboot] at hearly
      refine ⟨hended ▸ hmain, fun hoff => ?_, hinotify, hscan, fun _ => hearly rfl⟩
      simp only at hoff
      split at hoff <;> cases hoff
  | invalidateInternal =>
      simp only [hboot] at hstep
      obtain rfl := Option.some.inj hstep
      rw [hboot] at hearly
      exact ⟨hended ▸ hmain.invalidate .internal, nofun, hinotify, hscan, fun _ => hearly rfl⟩
  | markUpdated needDbCreate =>
      simp only [hboot] at hstep
      obtain rfl := Option.some.inj hstep
      rw [hboot] at hearly
      exact ⟨hended ▸ hmain, nofun, hinotify, hscan, fun _ => hearly rfl⟩
  | pushInternal needDbCreate =>
      simp only [hboot] at hstep
      obtain rfl := Option.some.inj hstep
      exact ⟨hended ▸ hmain, nofun, hinotify, hscan, nofun⟩

theorem TalksInv.talk {libNum : Nat} {s s' : Talks} (h : TalksInv libNum s) {p : Party}
    (hstep : talksStep libNum s (.talk p) = some s') : TalksInv libNum s' := by
  obtain ⟨hmain, hfresh, hinotify, hscan, hearly⟩ := h
  obtain ⟨t, htalk, rfl⟩ := Option.map_eq_some_iff.mp hstep
  cases p with
  | main =>
      refine ⟨hmain.talk htalk, fun hoff => ?_, hinotify, hscan, hearly⟩
      have hstart : s.main = {} := hfresh hoff
      rw [Talks.talker, hstart] at htalk
      cases htalk
  | inotify => exact ⟨hmain, hfresh, hinotify.talk htalk, hscan, hearly⟩
  | scan => exact ⟨hmain, hfresh, hinotify, hscan.talk htalk, hearly⟩

theorem talksInv_step {libNum : Nat} {s s' : Talks} {l : TalksLabel} (h : TalksInv libNum s)
    (hstep : talksStep libNum s l = some s') : TalksInv libNum s' := by
  have hall := h
  obtain ⟨hmain, hfresh, hinotify, hscan, hearly⟩ := h
  cases l with
  | talk p => exact hall.talk hstep
  | boot answers =>
      obtain ⟨⟨hoff, hended⟩, hstep⟩ := Option.ite_none_right_eq_some.mp hstep
      obtain rfl := Option.some.inj hstep
      rw [hfresh hoff, hended]
      exact ⟨.connect, nofun, hinotify, hscan, fun _ => hearly (by rw [hoff]; rfl)⟩
  | main =>
      obtain ⟨⟨-, hended⟩, hstep⟩ := Option.ite_none_right_eq_some.mp hstep
      exact hall.mainStep hended hstep
  | datagram path env =>
      obtain ⟨⟨-, hboot, hended, hfits⟩, hstep⟩ := Option.ite_none_right_eq_some.mp hstep
      obtain rfl := Option.some.inj hstep
      rw [hended] at hmain
      have hsuits := suits_plugInCalls hfits (.register path)
      refine ⟨hended ▸ hmain.through hsuits, fun hoff => ?_, hinotify, hscan, hearly⟩
      exact absurd (hboot.symm.trans hoff) nofun
  | quit answers =>
      obtain ⟨⟨-, hboot, hended, -⟩, hstep⟩ := Option.ite_none_right_eq_some.mp hstep
      obtain rfl := Option.some.inj hstep
      rw [hended] at hmain
      refine ⟨hmain.quit, fun hoff => ?_, hinotify, hscan, hearly⟩
      exact absurd (hboot.symm.trans hoff) nofun
  | listen answers =>
      obtain ⟨⟨-, hpc⟩, hstep⟩ := Option.ite_none_right_eq_some.mp hstep
      obtain rfl := Option.some.inj hstep
      rw [hpc] at hinotify
      exact ⟨hmain, hfresh, hinotify.listen rfl, hscan, hearly⟩
  | event w e asked answers =>
      obtain ⟨⟨-, hpc, -, hasked, hfits⟩, hstep⟩ := Option.ite_none_right_eq_some.mp hstep
      obtain rfl := Option.some.inj hstep
      rw [hpc] at hinotify
      have hsaid := hinotify.event hasked hfits
      rw [Talks.eventStep]
      simp only
      split
      next => exact ⟨hmain, hfresh, hsaid.quit, hscan, hearly⟩
      next => exact ⟨hmain, hfresh, hpc ▸ hsaid, hscan, hearly⟩
  | scan a o plugIns answers =>
      obtain ⟨⟨htodo, hstarted, hplugIns, hagrees⟩, hstep⟩ :=
        Option.ite_none_right_eq_some.mp hstep
      obtain ⟨thread, hthread, rfl⟩ := Option.map_eq_some_iff.mp hstep
      refine ⟨hmain, hfresh, hinotify, ?_, fun hnot => ?_⟩
      · exact hscan.step htodo hplugIns hagrees hthread
      · exact absurd hstarted (by simpa using hnot)
  | push d =>
      obtain ⟨hboot, hstep⟩ := Option.ite_none_right_eq_some.mp hstep
      obtain rfl := Option.some.inj hstep
      exact ⟨hmain, hfresh, hinotify, hscan, hearly⟩
  | flags flags =>
      obtain rfl := Option.some.inj hstep
      exact ⟨hmain, hfresh, hinotify, hscan, hearly⟩
  | crash =>
      obtain rfl := Option.some.inj hstep
      exact talksInv_start libNum s.dbStatus

theorem talksInv_of_exec {libNum : Nat} {dbStatus : DbStatus} {labels : List TalksLabel}
    {s : Talks} (hexec : Run.exec (talksStep libNum) { dbStatus } labels = some s) :
    TalksInv libNum s :=
  (Run.always_of_step (fun _ _ _ h hstep => talksInv_step h hstep)
    (talksInv_start libNum dbStatus)).of_exec hexec

/-- Where a call goes through a slot that no `CONNECT` has filled. -/
def Talks.Unfilled (s : Talks) (talk : Talk) : Party → Prop
  | .main => s.connected = false
  | .inotify => False
  | .scan => talk = .disconnect ∧ s.thread.pc = .returned

/-- In every run, over crashes and restarts, and whatever the plug-ins answer, each
connection carries its calls in the order of the protocol. The inotify thread makes no call
without a connection, the scan thread none but `DISCONNECT` at a power-off, and `main` only
when a `CONNECT` of its own has failed. -/
theorem calls_in_order (libNum : Nat) (dbStatus : DbStatus) (labels : List TalksLabel) {s : Talks}
    (hexec : Run.exec (talksStep libNum) { dbStatus } labels = some s) (p : Party) :
    (∀ k, ∃ u, Run.exec Session.hear {} (Channels.carried (some k) (s.talker p).said) = some u) ∧
      ∀ talk, (none, talk) ∈ (s.talker p).said → s.Unfilled talk p := by
  have h := talksInv_of_exec hexec
  have hline : ∀ k, ∃ u, (s.talker p).session k = some u := by
    cases p with
    | main => exact h.main.place.inOrder
    | inotify => exact h.inotify.place.inOrder
    | scan => exact h.scan.inOrder
  refine ⟨fun k => ?_, fun talk htalk => ?_⟩
  · obtain ⟨u, hu⟩ := hline k
    obtain ⟨u', hu', -⟩ := Channels.exists_stateOf_of_append hu
    exact ⟨u', hu'⟩
  · have hmem : (none, talk) ∈ (s.talker p).line := List.mem_append_left _ htalk
    cases p with
    | main =>
        rw [Talks.Unfilled, ← Bool.not_eq_true]
        exact fun hconnected => (h.main.clean hconnected).1 _ hmem rfl
    | inotify => exact h.inotify.clean _ hmem rfl
    | scan => exact h.scan.clean _ hmem rfl

theorem calls_in_order_main :
    let labels : List TalksLabel := [.boot fun _ => true, .talk .main, .main, .talk .main]
    ∃ s, Run.exec (talksStep 1) { dbStatus := .updating } labels = some s ∧
      ∃ u, Run.exec Session.hear {} (Channels.carried (some 0) (s.talker .main).said) = some u := by
  intro labels
  exact ⟨_, rfl, (calls_in_order 1 .updating labels rfl .main).1 0⟩

/-! ### What a crash finds -/

/-- The end of a file operation is announced between scans. -/
def AnnouncesApart (s : Talks) : TalksLabel → Prop
  | .event w e _ _ =>
      Talks.announces w e → inScan s.thread.pc = false ∧ s.thread.pc ≠ .returned
  | _ => True

instance (s : Talks) : (l : TalksLabel) → Decidable (AnnouncesApart s l)
  | .event w e _ _ => inferInstanceAs (Decidable (Talks.announces w e → _ ∧ _))
  | .talk _ | .boot _ | .main | .datagram _ _ | .quit _ | .listen _ | .scan _ _ _ _ | .push _
  | .flags _ | .crash => inferInstanceAs (Decidable True)

/-- While the persistent status says that the database is up to date, no scan is under
way. -/
structure StatusInv (s : Talks) : Prop where
  apart : s.dbStatus = .updated → inScan s.thread.pc = false
  returned : s.dbStatus = .updated → s.thread.pc = .returned →
    ∀ k, ∃ u, s.scan.session k = some u ∧ u.idle = true

section Status

variable {libNum : Nat} {s s' : Talks} {t : Talker} {pc : Pc}

theorem ScanInv.idle (h : ScanInv libNum t pc) (hin : inScan pc = false) (hpc : pc ≠ .returned)
    (k : Nat) : ∃ u, t.session k = some u ∧ u.idle = true := by
  refine (h.place hpc).idle (fun u hu => ?_) k
  cases pc with
  | top | connectDb | updateMmcInfo | release => exact hu.2
  | updating =>
      obtain rfl := hu
      rfl
  | powerOff d =>
      have htype : d.scanType = .powerOff := by simpa [inScan] using hin
      rw [wants, if_pos htype] at hu
      exact hu.2
  | deleteAll | dirScan | scanned | deleteInvalid | updated => cases hin
  | returned => exact absurd rfl hpc

/-- A status that is not written leaves only a scan to begin. -/
theorem StatusInv.frame (h : StatusInv s) (hpc : s'.thread.pc = s.thread.pc)
    (hstatus : s'.dbStatus = .updated → s.dbStatus = .updated)
    (hsession : s'.scan.session = s.scan.session) : StatusInv s' where
  apart hupdated := by
    rw [hpc]
    exact h.apart (hstatus hupdated)
  returned hupdated hreturned := by
    rw [hsession]
    exact h.returned (hstatus hupdated) (hpc.symm.trans hreturned)

theorem StatusInv.scan (h : StatusInv s) (hscan : ScanInv libNum s.scan s.thread.pc)
    {a : ThreadAct} {o : Outside} {plugIns : List PlugIn} {answers : Nat → Bool} {thread : Thread}
    (hstep : threadStep s.flags s.thread a = some thread) :
    StatusInv { s with
      thread
      scan := s.scanTalk libNum a o plugIns answers
      dbStatus := s.statusAfter a } := by
  cases threadStep_cases hstep with
  | updatingAll hpc | updating hpc => exact ⟨nofun, nofun⟩
  | updatedCard hpc | updated hpc => exact ⟨fun _ => rfl, fun _ => nofun⟩
  | receive hpc =>
      refine ⟨fun hupdated => h.apart hupdated, fun _ hreturned => ?_⟩
      exact absurd (hpc.symm.trans hreturned) nofun
  | takePowerOff hpc _ _ htype =>
      refine ⟨fun _ => ?_, fun _ => nofun⟩
      simp [inScan, htype]
  | take hpc | connected hpc | connectFailed hpc | updateMmcInfo hpc | release hpc =>
      exact ⟨fun _ => rfl, fun _ => nofun⟩
  | deleteAll hpc | scanFile hpc | invalidate hpc | scanReturn hpc | stopped hpc
  | scannedPart hpc | scanned hpc | deleteInvalid hpc =>
      have hout : s.dbStatus ≠ .updated := fun hupdated => by
        have hin := h.apart hupdated
        rw [hpc] at hin
        cases hin
      exact ⟨fun hupdated => absurd hupdated hout, fun hupdated => absurd hupdated hout⟩
  | @exit d hpc =>
      refine ⟨fun _ => rfl, fun hupdated _ => ?_⟩
      have hin : inScan s.thread.pc = false := h.apart hupdated
      rw [hpc] at hscan hin
      have htype : d.scanType = .powerOff := by simpa [inScan] using hin
      have hat : s.scan.At Session.Stale := (hscan.place nofun).mono fun u hu => by
        rwa [wants, if_pos htype] at hu
      exact (hat.msDisconnectDb answers (fun _ hu => hu.2) fun _ hu => hu.disconnect).idle
        fun _ hu => hu.2

theorem statusInv_step {l : TalksLabel} (hinv : TalksInv libNum s) (h : StatusInv s)
    (good : AnnouncesApart s l) (hstep : talksStep libNum s l = some s') : StatusInv s' := by
  cases l with
  | talk p =>
      obtain ⟨t, htalk, rfl⟩ := Option.map_eq_some_iff.mp hstep
      cases p with
      | main | inotify => exact h.frame rfl id rfl
      | scan =>
          refine h.frame rfl id ?_
          funext k
          rw [Talker.session, Talker.session]
          exact congrArg (fun line => Channels.stateOf Session.hear {} line (some k))
            (Talker.line_talk htalk)
  | boot answers =>
      obtain ⟨-, hstep⟩ := Option.ite_none_right_eq_some.mp hstep
      obtain rfl := Option.some.inj hstep
      exact h.frame rfl id rfl
  | main =>
      obtain ⟨-, hstep⟩ := Option.ite_none_right_eq_some.mp hstep
      rw [Talks.mainStep] at hstep
      cases hboot : s.boot with
      | off | running =>
          rw [hboot] at hstep
          cases hstep
      | clearExternal | readStatus | invalidateInternal | pushInternal =>
          simp only [hboot] at hstep
          obtain rfl := Option.some.inj hstep
          exact h.frame rfl id rfl
      | markUpdated needDbCreate =>
          simp only [hboot] at hstep
          obtain rfl := Option.some.inj hstep
          have htop : s.thread.pc = .top := hinv.early (by rw [hboot]; rfl)
          refine ⟨fun _ => ?_, fun _ hreturned => ?_⟩
          · rw [htop]
            rfl
          · cases htop.symm.trans hreturned
  | datagram path env | quit answers | listen answers | push d =>
      obtain ⟨-, hstep⟩ := Option.ite_none_right_eq_some.mp hstep
      obtain rfl := Option.some.inj hstep
      exact h.frame rfl id rfl
  | event w e asked answers =>
      obtain ⟨-, hstep⟩ := Option.ite_none_right_eq_some.mp hstep
      obtain rfl := Option.some.inj hstep
      have hthread : (s.eventStep w e asked answers).thread = s.thread ∧
          (s.eventStep w e asked answers).scan = s.scan := by
        rw [Talks.eventStep]
        simp only
        split <;> exact ⟨rfl, rfl⟩
      have hstatus : (s.eventStep w e asked answers).dbStatus =
          if Talks.announces w e then .updated else s.dbStatus := by
        rw [Talks.eventStep]
        simp only
        split <;> rfl
      obtain ⟨hthread, hscan⟩ := hthread
      by_cases hannounces : Talks.announces w e
      · obtain ⟨hin, hpc⟩ := good hannounces
        refine ⟨fun _ => ?_, fun _ hreturned => ?_⟩
        · rw [hthread]
          exact hin
        · rw [hthread] at hreturned
          exact absurd hreturned hpc
      · rw [if_neg hannounces] at hstatus
        exact h.frame (by rw [hthread]) (by rw [hstatus]; exact id) (by rw [hscan])
  | scan a o plugIns answers =>
      obtain ⟨-, hstep⟩ := Option.ite_none_right_eq_some.mp hstep
      obtain ⟨thread, hthread, rfl⟩ := Option.map_eq_some_iff.mp hstep
      exact h.scan hinv.scan hthread
  | flags flags =>
      obtain rfl := Option.some.inj hstep
      exact h.frame rfl id rfl
  | crash =>
      obtain rfl := Option.some.inj hstep
      refine ⟨fun _ => rfl, ?_⟩
      rintro - ⟨⟩

/-- Connections and disconnections open and close no bundle. -/
theorem idle_of_atEnds {todo : List Talk} (hends : ∀ a ∈ todo, a = .connect ∨ a = .disconnect)
    {u u' : Session} (hexec : Run.exec Session.hear u todo = some u') : u'.idle = u.idle := by
  induction todo generalizing u with
  | nil =>
      obtain rfl := Option.some.inj hexec
      rfl
  | cons a todo ih =>
      obtain ⟨middle, hhear, hrest⟩ := Option.bind_eq_some_iff.mp hexec
      have hmiddle : middle.idle = u.idle := by
        rw [Session.hear] at hhear
        rcases hends a List.mem_cons_self with rfl | rfl
        · split at hhear
          · obtain rfl := Option.some.inj hhear
            rfl
          · cases hhear
          · cases hhear
        · split at hhear
          · cases hhear
          · obtain rfl := Option.some.inj hhear
            rfl
          · obtain rfl := Option.some.inj hhear
            rfl
      rw [← hmiddle]
      exact ih (fun b hb => hends b (List.mem_cons_of_mem a hb)) hrest

end Status

/-- One plug-in, for which everything succeeds, and a scan of the card. -/
def bootLabels : List TalksLabel :=
  [.boot fun _ => true, .talk .main, .main, .talk .main, .main, .main, .main]

def cardPart : ScanData :=
  { id := 1, path := some msRootPathExternal, storageType := .external, scanType := .part }

def scanLabels (acts : List ThreadAct) : List TalksLabel :=
  acts.map fun a =>
    .scan a { mime := fun _ => none } [{ checkItem := fun _ _ => 0, answer := fun _ => 0 }]
      fun _ => true

/-- What a crash finds is announced: as long as the end of a file operation is announced
between scans only, a bundle of the scan thread is open only while the persistent status is
`UPDATING`. This holds between any two calls, over crashes and restarts, and whatever the
plug-ins answer. -/
theorem open_bundles_announced (libNum : Nat) (dbStatus : DbStatus) (labels : List TalksLabel)
    {s : Talks}
    (good : Run.EachStep (talksStep libNum) AnnouncesApart { dbStatus } labels)
    (hexec : Run.exec (talksStep libNum) { dbStatus } labels = some s)
    (hupdated : s.dbStatus = .updated) (k : Nat) :
    ∃ u, Run.exec Session.hear {} (Channels.carried (some k) s.scan.said) = some u ∧
      u.idle = true := by
  have hboth : TalksInv libNum s ∧ StatusInv s :=
    (Run.always_of_eachStep (I := fun s => TalksInv libNum s ∧ StatusInv s)
      (fun _ _ _ h good hstep =>
        ⟨talksInv_step h.1 hstep, statusInv_step h.1 h.2 good hstep⟩)
      ⟨talksInv_start libNum dbStatus, fun _ => rfl, fun _ => nofun⟩ good).of_exec hexec
  obtain ⟨hinv, hstatus⟩ := hboth
  have hin := hstatus.apart hupdated
  have hsession : ∃ u, s.scan.session k = some u ∧ u.idle = true := by
    by_cases hreturned : s.thread.pc = .returned
    · exact hstatus.returned hupdated hreturned k
    · exact hinv.scan.idle hin hreturned k
  obtain ⟨u', hu', hidle⟩ := hsession
  obtain ⟨u, hu, htodo⟩ := Channels.exists_stateOf_of_append hu'
  refine ⟨u, hu, ?_⟩
  rw [← idle_of_atEnds (fun a ha => hinv.scan.calm hin _ (Channels.mem_carried.mp ha)) htodo]
  exact hidle

theorem open_bundles_announced_pruned :
    let labels : List TalksLabel :=
      bootLabels ++ [.push cardPart] ++ scanLabels [.receive, .take, .connectDb true] ++
        [.talk .scan] ++ scanLabels [.setUpdating] ++ [.talk .scan, .talk .scan] ++
        scanLabels [.scanReturn, .testPowerOff] ++ [.talk .scan, .talk .scan] ++
        scanLabels [.deleteInvalidItems true] ++ [.talk .scan] ++ scanLabels [.setUpdated]
    ∃ s, Run.exec (talksStep 1) { dbStatus := .updated } labels = some s ∧
      ∃ u, Run.exec Session.hear {} (Channels.carried (some 0) s.scan.said) = some u ∧
        u.idle = true := by
  intro labels
  exact ⟨_, rfl, open_bundles_announced 1 .updated labels (by decide) rfl rfl 0⟩

/-- At the label `POWER_OFF` or behind it; the first call there is `DISCONNECT`. -/
structure Leaving (before : Talker) (slot : Option Nat) (d : ScanData) (s : Talks) : Prop where
  pc : s.thread.pc = .powerOff d ∨ s.thread.pc = .returned
  waits : s.thread.pc = .powerOff d → s.scan = before
  leaves : s.thread.pc = .returned →
    ∃ rest, s.scan.line = before.said ++ (slot, .disconnect) :: rest

/-- `ms_disconnect_db` begins with the first slot, whatever the plug-in answers. -/
theorem disconnectTalks_cons {t : Talker} {slot : Option Nat} {handle : List (Option Nat)}
    (hhandle : t.handle = slot :: handle) (answers : Nat → Bool) :
    ∃ rest, t.disconnectTalks answers = (slot, .disconnect) :: rest := by
  rw [Talker.disconnectTalks, hhandle, disconnectLoop]
  split
  next => exact ⟨_, rfl⟩
  next => exact ⟨_, rfl⟩

section Leaving

variable {libNum : Nat} {before : Talker} {slot : Option Nat} {d : ScanData} {s s' : Talks}

theorem Leaving.frame (h : Leaving before slot d s) (hpc : s'.thread.pc = s.thread.pc)
    (hscan : s'.scan = s.scan) : Leaving before slot d s' where
  pc := by
    rw [hpc]
    exact h.pc
  waits hwaits := by
    rw [hscan]
    exact h.waits (hpc ▸ hwaits)
  leaves hreturned := by
    rw [hscan]
    exact h.leaves (hpc ▸ hreturned)

theorem leaving_mainStep (h : Leaving before slot d s) (hstep : s.mainStep = some s') :
    Leaving before slot d s' := by
  rw [Talks.mainStep] at hstep
  cases hboot : s.boot with
  | off | running =>
      rw [hboot] at hstep
      cases hstep
  | clearExternal | readStatus | invalidateInternal | markUpdated | pushInternal =>
      simp only [hboot] at hstep
      obtain rfl := Option.some.inj hstep
      exact h.frame rfl rfl

/-- The one step that the thread has left is the one to its end. -/
theorem Leaving.scan {a : ThreadAct} {o : Outside} {plugIns : List PlugIn}
    {answers : Nat → Bool} {thread : Thread} {handle : List (Option Nat)}
    (h : Leaving before slot d s) (htodo : before.todo = [])
    (hhandle : before.handle = slot :: handle)
    (hstep : threadStep s.flags s.thread a = some thread) :
    Leaving before slot d { s with
      thread
      scan := s.scanTalk libNum a o plugIns answers
      dbStatus := s.statusAfter a } := by
  rcases h.pc with hpc | hpc
  · have hexit : a = .exit ∧ thread = { s.thread with pc := .returned } := by
      cases a with
      | exit =>
          simp only [threadStep, hpc, Option.some.injEq] at hstep
          exact ⟨rfl, hstep.symm⟩
      | _ =>
          simp only [threadStep, hpc] at hstep
          cases hstep
    obtain ⟨rfl, rfl⟩ := hexit
    have hscan : s.scan = before := h.waits hpc
    have htalk : s.scanTalk libNum .exit o plugIns answers = before.msDisconnectDb answers := by
      rw [Talks.scanTalk, hscan]
    obtain ⟨rest, hrest⟩ := disconnectTalks_cons hhandle answers
    refine ⟨.inr rfl, fun hwaits => absurd hwaits.symm powerOff_ne_returned, fun _ => ⟨rest, ?_⟩⟩
    have hline : before.line = before.said := by rw [Talker.line, htodo, List.append_nil]
    rw [htalk, (msDisconnectDb_line before answers).1, hrest, hline]
  · have hnone : threadStep s.flags s.thread a = none := by
      cases a <;> simp [threadStep, hpc]
    rw [hnone] at hstep
    cases hstep

theorem leaving_step {l : TalksLabel} {handle : List (Option Nat)} (htodo : before.todo = [])
    (hhandle : before.handle = slot :: handle) (h : Leaving before slot d s) (halive : l ≠ .crash)
    (hstep : talksStep libNum s l = some s') : Leaving before slot d s' := by
  cases l with
  | talk p =>
      obtain ⟨t, htalk, rfl⟩ := Option.map_eq_some_iff.mp hstep
      cases p with
      | main | inotify => exact h.frame rfl rfl
      | scan =>
          refine ⟨h.pc, fun hwaits => ?_, fun hreturned => ?_⟩
          · rw [Talks.talker, h.waits hwaits, Talker.talk, htodo] at htalk
            cases htalk
          · obtain ⟨rest, hrest⟩ := h.leaves hreturned
            exact ⟨rest, (Talker.line_talk htalk).trans hrest⟩
  | boot answers | datagram path env | quit answers | listen answers | push d =>
      obtain ⟨-, hstep⟩ := Option.ite_none_right_eq_some.mp hstep
      obtain rfl := Option.some.inj hstep
      exact h.frame rfl rfl
  | main =>
      obtain ⟨-, hstep⟩ := Option.ite_none_right_eq_some.mp hstep
      exact leaving_mainStep h hstep
  | event w e asked answers =>
      obtain ⟨-, hstep⟩ := Option.ite_none_right_eq_some.mp hstep
      obtain rfl := Option.some.inj hstep
      have hframe : (s.eventStep w e asked answers).thread = s.thread ∧
          (s.eventStep w e asked answers).scan = s.scan := by
        rw [Talks.eventStep]
        simp only
        split <;> exact ⟨rfl, rfl⟩
      exact h.frame (congrArg Thread.pc hframe.1) hframe.2
  | scan a o plugIns answers =>
      obtain ⟨-, hstep⟩ := Option.ite_none_right_eq_some.mp hstep
      obtain ⟨thread, hthread, rfl⟩ := Option.map_eq_some_iff.mp hstep
      exact h.scan htodo hhandle hthread
  | flags flags =>
      obtain rfl := Option.some.inj hstep
      exact h.frame rfl rfl
  | crash => exact absurd rfl halive

theorem leaving_of_exec {handle : List (Option Nat)} {labels : List TalksLabel}
    (htodo : s.scan.todo = []) (hpc : s.thread.pc = .powerOff d)
    (hhandle : s.scan.handle = slot :: handle) (halive : ∀ l ∈ labels, l ≠ .crash)
    (hexec : Run.exec (talksStep libNum) s labels = some s') : Leaving s.scan slot d s' := by
  have hstart : Leaving s.scan slot d s := by
    refine ⟨.inl hpc, fun _ => rfl, fun hreturned => ?_⟩
    exact absurd (hpc.symm.trans hreturned) powerOff_ne_returned
  exact (Run.always_of_eachStep
    (fun _ _ _ h halive hstep => leaving_step htodo hhandle h halive hstep) hstart
    (Run.eachStep_of_forall halive s)).of_exec hexec

end Leaving

/-- A bundle is open on a connection after these calls. -/
def OpenOn (said : List (Option Nat × Talk)) (k : Nat) : Prop :=
  ∃ u, Run.exec Session.hear {} (Channels.carried (some k) said) = some u ∧ u.idle = false

theorem OpenOn.notIdle {t : Talker} {k : Nat} {u : Session} (hopen : OpenOn t.line k)
    (hu : t.session k = some u) (hidle : u.idle = true) : False := by
  obtain ⟨u', hu', hopen⟩ := hopen
  obtain rfl := Option.some.inj (hu.symm.trans hu')
  rw [hopen] at hidle
  cases hidle

/-- A scan that was stopped has its bundles open on every connection of the variable. -/
theorem ScanInv.stopped {libNum : Nat} {t : Talker} {d : ScanData} {slot : Option Nat}
    (h : ScanInv libNum t (.powerOff d)) (hne : d.scanType ≠ .powerOff)
    (hslot : slot ∈ t.handle) : ∃ k, slot = some k ∧ OpenOn t.line k := by
  have hin : inRequest (.powerOff d) = true := by simp [inRequest, inScan, hne]
  obtain ⟨k, rfl⟩ := Option.ne_none_iff_exists'.mp ((h.full hin).ne_none hslot)
  obtain ⟨-, u, hu, hwants⟩ := (h.place powerOff_ne_returned).mine k hslot
  rw [wants, if_neg hne] at hwants
  exact ⟨k, rfl, u, hu, by rw [hwants]; rfl⟩

/-- At the label `POWER_OFF` a bundle is open exactly if the power-off has stopped a scan, and
there is a plug-in. The thread then makes no other call before `DISCONNECT`, and the first
one of these cuts off an open bundle. -/
theorem power_off_leaves_bundles_iff (libNum : Nat) (dbStatus : DbStatus)
    (labels : List TalksLabel) {s : Talks}
    (hexec : Run.exec (talksStep libNum) { dbStatus } labels = some s) {d : ScanData}
    (hpc : s.thread.pc = .powerOff d) (htodo : s.scan.todo = []) :
    ((∃ k, OpenOn s.scan.said k) ↔ d.scanType ≠ .powerOff ∧ 0 < libNum) ∧
      ((∃ k, OpenOn s.scan.said k) → ∀ more t, (∀ l ∈ more, l ≠ .crash) →
        Run.exec (talksStep libNum) s more = some t →
          t.thread.pc = .powerOff d ∧ t.scan = s.scan ∨
            t.thread.pc = .returned ∧ ∃ k rest, OpenOn s.scan.said k ∧
              t.scan.line = s.scan.said ++ (some k, .disconnect) :: rest) := by
  have h := (talksInv_of_exec hexec).scan
  rw [hpc] at h
  have hline : s.scan.line = s.scan.said := by rw [Talker.line, htodo, List.append_nil]
  have hiff : (∃ k, OpenOn s.scan.said k) ↔ d.scanType ≠ .powerOff ∧ 0 < libNum := by
    rw [← hline]
    constructor
    · rintro ⟨k, hopen⟩
      have hne : d.scanType ≠ .powerOff := by
        intro htype
        have hin : inScan (.powerOff d) = false := by simp [inScan, htype]
        obtain ⟨u, hu, hidle⟩ := h.idle hin powerOff_ne_returned k
        exact hopen.notIdle hu hidle
      refine ⟨hne, Nat.pos_of_ne_zero ?_⟩
      rintro rfl
      have hin : inRequest (.powerOff d) = true := by simp [inRequest, inScan, hne]
      have hnil : s.scan.handle = [] := List.length_eq_zero_iff.mp (h.full hin).1
      obtain ⟨u, hu, hidle⟩ := (h.place powerOff_ne_returned).others k (by simp [hnil])
      exact hopen.notIdle hu hidle
    · rintro ⟨hne, hpos⟩
      have hin : inRequest (.powerOff d) = true := by simp [inRequest, inScan, hne]
      obtain ⟨slot, hslot⟩ := List.exists_mem_of_length_pos ((h.full hin).1 ▸ hpos)
      obtain ⟨k, -, hopen⟩ := h.stopped hne hslot
      exact ⟨k, hopen⟩
  refine ⟨hiff, fun hopen more t halive hrun => ?_⟩
  obtain ⟨hne, hpos⟩ := hiff.mp hopen
  have hin : inRequest (.powerOff d) = true := by simp [inRequest, inScan, hne]
  obtain ⟨slot, handle, hhandle⟩ := List.exists_cons_of_length_pos ((h.full hin).1 ▸ hpos)
  obtain ⟨k, rfl, hfirst⟩ := h.stopped hne (hhandle ▸ List.mem_cons_self)
  rw [hline] at hfirst
  have hleaving : Leaving s.scan (some k) d t := leaving_of_exec htodo hpc hhandle halive hrun
  rcases hleaving.pc with hwaits | hreturned
  · exact .inl ⟨hwaits, hleaving.waits hwaits⟩
  · obtain ⟨rest, hrest⟩ := hleaving.leaves hreturned
    exact .inr ⟨hreturned, k, rest, hfirst, hrest⟩

theorem power_off_leaves_bundles_stopped :
    let labels : List TalksLabel :=
      bootLabels ++ [.push cardPart] ++ scanLabels [.receive, .take, .connectDb true] ++
        [.talk .scan] ++ scanLabels [.setUpdating] ++
        [.talk .scan, .talk .scan, .flags { powerOff := true }] ++
        scanLabels [.scanReturn, .testPowerOff]
    let more : List TalksLabel := scanLabels [.exit] ++ [.talk .scan]
    ∃ s t, Run.exec (talksStep 1) { dbStatus := .updated } labels = some s ∧
      Run.exec (talksStep 1) s more = some t ∧ ∃ k rest, OpenOn s.scan.said k ∧
        t.scan.line = s.scan.said ++ (some k, .disconnect) :: rest := by
  intro labels more
  have hpart : cardPart.scanType ≠ .powerOff := nofun
  have halive : ∀ l ∈ more, l ≠ .crash := by
    intro l hl
    rcases List.mem_cons.mp hl with rfl | hl
    · exact nofun
    · obtain rfl := List.mem_singleton.mp hl
      exact nofun
  obtain ⟨hiff, hleaves⟩ := power_off_leaves_bundles_iff 1 .updated labels rfl
    (d := cardPart) rfl rfl
  rcases hleaves (hiff.mpr ⟨hpart, Nat.one_pos⟩) more _ halive rfl with ⟨hpc, -⟩ | ⟨-, hopen⟩
  · exact absurd hpc.symm powerOff_ne_returned
  · exact ⟨_, _, rfl, rfl, hopen⟩

end MediaServer.DbSvc
