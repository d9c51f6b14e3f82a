import MediaServer.DbSvc.Storage
import MediaServer.Foundation.Exchange
import MediaServer.Foundation.Progress
import MediaServer.Register.HandOver

/-!
# Registering a file from another program

`media_file_register` sends the path of a file to the server and waits ten seconds for a
status. Any number of programs call it at the same time. The server reads one datagram after
the other, and while its handler registers the file of one, the inotify thread registers
others.

A call closes its socket when it has got a status, not when it fails. Its port stays in use
until its process ends. After that the port can be given to another call, and a status that
is still on its way arrives there.
-/

namespace MediaServer.Client

open Register

def msMediaErrInvalidPath : Int := -0x02
def msMediaErrSocketConn : Int := -0x03
def msMediaErrSocketSend : Int := -0x05
def msMediaErrSocketReceive : Int := -0x06
def msMediaErrSocketReceiveTimeout : Int := -0x07

def msMediaPhoneRootPath : Text := "/opt/media".toList
def msMediaMmcRootPath : Text := "/opt/storage/sdcard".toList

structure CString where
  text : Text
  noNul : Bytes.nul ∉ text

/-- `_is_valid_path`. -/
def isValidPath : Option CString → Bool
  | none => false
  | some path =>
      if msMediaPhoneRootPath <+: path.text then true
      else if msMediaMmcRootPath <+: path.text then true
      else false

/-- `PATH_MAX`, which counts the NUL. -/
def pathMax : Nat := 4096

/-- The argument of `media_file_register`, and what the system calls before `recvfrom`
answer. -/
structure CallArgs where
  fileFullPath : Option CString
  opens : Bool := true
  socket : Bool := true
  setsockopt : Bool := true
  sendto : Bool := true
  /-- `open` refuses a longer path. -/
  bounded : opens = true → ∀ path ∈ fileFullPath, path.text.length < pathMax

/-- What a call sends. -/
structure Datagram where
  path : CString
  valid : isValidPath (some path) = true
  bounded : path.text.length < pathMax

/-- `media_file_register`, to `sendto`. -/
def mediaFileSend (args : CallArgs) : Except Int Datagram :=
  match hpath : args.fileFullPath with
  | none => .error msMediaErrInvalidPath
  | some path =>
      if hvalid : isValidPath (some path) then
        if hopen : args.opens then
          if ¬ args.socket then .error msMediaErrSocketConn
          else if ¬ args.setsockopt then .error msMediaErrSocketConn
          else if ¬ args.sendto then .error msMediaErrSocketSend
          else .ok ⟨path, hvalid, args.bounded hopen path hpath⟩
        else .error msMediaErrInvalidPath
      else .error msMediaErrInvalidPath

/-- `media_file_register`. When `recvfrom` fails, `errno` may be `EWOULDBLOCK`. -/
def mediaFileRegister (args : CallArgs) (recvfrom : Except Bool Int) : Int :=
  match mediaFileSend args with
  | .error err => err
  | .ok _ =>
      match recvfrom with
      | .error wouldBlock =>
          if wouldBlock then msMediaErrSocketReceiveTimeout else msMediaErrSocketReceive
      | .ok recvMsg => recvMsg

/-- The server's two threads, with the registrations that have ended, found or made. No step
reads those. -/
structure Service where
  observed : Observed
  results : List (Text × Int) := []

def Service.shared (s : Service) : Shared := s.observed.shared

/-- The registration that a step ends. -/
def finished (s : Shared) : Label → List (Text × Int)
  | (t, .check fails) =>
      match s.pc t with
      | .checking path => if s.AllHold path ∧ ¬ fails then [(path, msErrNone)] else []
      | _ => []
  | (t, .leave) =>
      match s.pc t with
      | .leaving path res => [(path, res)]
      | _ => []
  | _ => []

/-- The `ret` of `ms_read_socket`, when a step of the handler yields it. -/
def handlerRet (s : Shared) : Label → Option Int
  | (.socket, .check fails) =>
      match s.pc .socket with
      | .checking path => if s.AllHold path ∧ ¬ fails then some msErrNone else none
      | _ => none
  | (.socket, .leave) =>
      match s.pc .socket with
      | .leaving _ res => some res
      | _ => none
  | (.socket, .receive) => s.retQueue.head?.map popped
  | _ => none

/-- `ms_read_socket` reads a datagram. -/
def Service.serve (s : Service) (beyond : Text) (d : Datagram) : Option Service :=
  (observedStep s.observed (.socket, .call (DbSvc.recvString d.path.text beyond))).map
    fun observed => { s with observed }

/-- A step of a thread; the handler ends with a status. -/
def Service.work (s : Service) : Label → Option (Service × Option Int)
  | (.socket, .call _) => none
  | l =>
      (observedStep s.observed l).map fun observed =>
        ({ observed, results := s.results ++ finished s.shared l },
          (handlerRet s.shared l).map sendMsg)

def registration : Exchange.System CallArgs Service Datagram Int Text Label where
  send args := (mediaFileSend args).toOption
  serve := Service.serve
  work := Service.work

abbrev Registration := Exchange.State Service Datagram Int

abbrev RegistrationLabel := Exchange.Label CallArgs Text Label

/-- Before the first datagram. -/
def Registration.start (libNum : Nat) (held : List (Nat × Text)) : Registration :=
  { server := { observed := { shared := Shared.start libNum held } } }

theorem photo_noNul : Bytes.nul ∉ "/opt/media/a.jpg".toList := by decide

def photo : CString := ⟨"/opt/media/a.jpg".toList, photo_noNul⟩

theorem photo_bounded (_ : true = true) : ∀ path ∈ some photo, path.text.length < pathMax := by
  rintro path ⟨⟩
  decide

def photoArgs : CallArgs := { fileFullPath := some photo, bounded := photo_bounded }

/-- The server reads the very path that a call has sent. -/
theorem recvString_path (d : Datagram) (beyond : Text) :
    DbSvc.recvString d.path.text beyond = d.path.text := by
  have hshort : d.path.text.length < msFilePathLenMax := d.bounded
  rw [DbSvc.recvString, List.take_of_length_le hshort.le, if_pos (.inr hshort)]
  refine List.takeWhile_eq_self_iff.mpr fun b hb => decide_eq_true ?_
  rintro rfl
  exact d.path.noNul hb

/-! ### The handler -/

/-- The path that a thread is in `ms_register_file` with. -/
def pathOf : Pc → Option Text
  | .idle => none
  | .checking path | .entering path | .inserting path _ _ | .leaving path _ | .waiting path =>
      some path

/-- A step of a thread, told by what it does to the handler. -/
theorem handler_step {s s' : Shared} {t : Tid} {act : Act}
    (hstep : registerStep s (t, act) = some s')
    (hcall : ∀ path, (t, act) ≠ (.socket, .call path)) :
    (handlerRet s (t, act) = none ∧ pathOf (s'.pc .socket) = pathOf (s.pc .socket)) ∨
      ∃ ret path, handlerRet s (t, act) = some ret ∧ s'.pc .socket = .idle ∧
        pathOf (s.pc .socket) = some path ∧
          ((path, ret) ∈ finished s (t, act) ∨
            ∃ v rest, s.pc .socket = .waiting path ∧ s.retQueue = v :: rest ∧ ret = popped v) := by
  cases t with
  | inotify =>
      refine .inl ⟨by cases act <;> rfl, ?_⟩
      cases registerStep_cases hstep with
      | enter path =>
          rw [Shared.enter.eq_def]
          split <;> simp [Shared.goto_pc]
      | insert path k ret outcome => cases outcome <;> simp [Shared.insert, Shared.goto_pc]
      | _ => simp [Shared.goto_pc, Shared.leave]
  | socket =>
      cases registerStep_cases hstep with
      | call path => exact absurd rfl (hcall path)
      | known path fails hpc hall =>
          have hfails : ¬ fails := not_fails_of_idle hpc hstep
          refine .inr ⟨msErrNone, path, ?_, by simp, by rw [hpc]; rfl, .inl ?_⟩
          · simp [handlerRet, hpc, hall, hfails]
          · simp [finished, hpc, hall, hfails]
      | missing path fails hpc hall =>
          refine .inl ⟨?_, by simp [hpc, pathOf]⟩
          simp only [handlerRet, hpc]
          exact if_neg hall
      | enter path hpc =>
          refine .inl ⟨rfl, ?_⟩
          rw [Shared.enter.eq_def]
          split <;> simp [hpc, pathOf]
      | noMime path hpc => exact .inl ⟨rfl, by simp [hpc, pathOf]⟩
      | insert path k ret outcome hpc =>
          refine .inl ⟨rfl, ?_⟩
          cases outcome <;> simp [Shared.insert, hpc, pathOf]
      | recheck path k ret res hpc => exact .inl ⟨rfl, by simp [hpc, pathOf]⟩
      | leave path res hpc =>
          refine .inr ⟨res, path, ?_, by simp [Shared.leave], by rw [hpc]; rfl, .inl ?_⟩
          · simp [handlerRet, hpc]
          · simp [finished, hpc]
      | receive path v rest hpc hqueue =>
          refine .inr ⟨popped v, path, ?_, by simp, by rw [hpc]; rfl, .inr ?_⟩
          · simp [handlerRet, hqueue]
          · exact ⟨v, rest, hpc, hqueue, rfl⟩

/-- The server, and the request that its handler works on. A result that the handler takes
over is one of `results`. -/
structure Serves (s : Service) (cur : Option Datagram) : Prop where
  handOver : HandOver s.observed
  handler : pathOf (s.shared.pc .socket) = cur.map fun d => d.path.text
  completed : s.observed.completed ⊆ s.results

/-- The status is the result of a registration of the very file. -/
def Reports (s : Service) (d : Datagram) (status : Int) : Prop :=
  ∃ res, (d.path.text, res) ∈ s.results ∧ status = sendMsg res

theorem Serves.serve {s next : Service} {beyond : Text} {d : Datagram} (h : Serves s none)
    (hserve : s.serve beyond d = some next) : Serves next (some d) ∧ next.results = s.results := by
  obtain ⟨observed, hstep, rfl⟩ := Option.map_eq_some_iff.mp hserve
  refine ⟨⟨observedStep_handOver h.handOver hstep, ?_, ?_⟩, rfl⟩
  · obtain ⟨shared, hshared, rfl⟩ := Option.map_eq_some_iff.mp hstep
    cases registerStep_cases hshared with
    | call path => simp [Service.shared, pathOf, recvString_path]
  · obtain ⟨shared, hshared, rfl⟩ := Option.map_eq_some_iff.mp hstep
    simpa [completes] using h.completed

/-- What a step of the inotify thread completes is among what a step ends. -/
theorem completes_subset (s : Shared) (l : Label) : completes s l ⊆ finished s l := by
  obtain ⟨t, act⟩ := l
  cases t with
  | socket => exact List.nil_subset _
  | inotify =>
      cases act with
      | leave => exact List.Subset.refl _
      | _ => exact List.nil_subset _

theorem work_cases {s next : Service} {l : Label} {out : Option Int}
    (hwork : s.work l = some (next, out)) :
    (∀ path, l ≠ (.socket, .call path)) ∧ ∃ observed, observedStep s.observed l = some observed ∧
      next = { observed, results := s.results ++ finished s.shared l } ∧
        out = (handlerRet s.shared l).map sendMsg := by
  have hcall : ∀ path, l ≠ (.socket, .call path) := by
    rintro path rfl
    cases hwork
  rw [Service.work.eq_2 s l hcall] at hwork
  obtain ⟨observed, hstep, heq⟩ := Option.map_eq_some_iff.mp hwork
  obtain ⟨rfl, rfl⟩ := Prod.mk.inj heq
  exact ⟨hcall, observed, hstep, rfl, rfl⟩

theorem Serves.work {s next : Service} {cur : Option Datagram} {l : Label} {out : Option Int}
    (h : Serves s cur) (hwork : s.work l = some (next, out)) :
    s.results ⊆ next.results ∧
      ((out = none ∧ Serves next cur) ∨
        ∃ d status, cur = some d ∧ out = some status ∧ Serves next none ∧
          Reports next d status) := by
  obtain ⟨hcall, observed, hstep, rfl, rfl⟩ := work_cases hwork
  have hhandOver := observedStep_handOver h.handOver hstep
  obtain ⟨shared, hshared, rfl⟩ := Option.map_eq_some_iff.mp hstep
  have hcompleted : (if l = (.socket, .enter) then [] else
      s.observed.completed ++ completes s.observed.shared l) ⊆
        s.results ++ finished s.shared l := by
    split
    · exact List.nil_subset _
    · exact List.append_subset.mpr
        ⟨List.subset_append_of_subset_left _ h.completed,
          List.subset_append_of_subset_right _ (completes_subset _ l)⟩
  refine ⟨List.subset_append_left _ _, ?_⟩
  rcases handler_step hshared hcall with ⟨hnone, hpath⟩ | ⟨ret, path, hret, hidle, hpath, hfound⟩
  · refine .inl ⟨by rw [Service.shared, hnone]; rfl, hhandOver, ?_, hcompleted⟩
    exact hpath.trans h.handler
  · obtain ⟨d, rfl, rfl⟩ : ∃ d, cur = some d ∧ d.path.text = path :=
      Option.map_eq_some_iff.mp (h.handler.symm.trans hpath)
    refine .inr ⟨d, sendMsg ret, rfl, by rw [Service.shared, hret]; rfl,
      ⟨hhandOver, by rw [Service.shared, hidle]; rfl, hcompleted⟩, ret, ?_, rfl⟩
    rcases hfound with hfinished | ⟨v, rest, hwaiting, hqueue, rfl⟩
    · exact List.mem_append_right _ hfinished
    · rcases h.handOver.waiting _ hwaiting with ⟨-, -, hempty, -⟩ | ⟨w, older, hone, -, hdone⟩
      · rw [hempty] at hqueue
        cases hqueue
      · rw [hone] at hqueue
        obtain ⟨rfl, -⟩ := List.cons.inj hqueue
        exact List.mem_append_left _ (h.completed (hdone ▸ List.mem_cons_self))

theorem keeps_serves : Exchange.Keeps registration (fun _ _ => True) Serves Reports where
  serve h hserve := by
    obtain ⟨hnext, hresults⟩ := h.serve hserve
    exact ⟨hnext, fun _ _ ⟨res, hmem, hstatus⟩ => ⟨res, hresults ▸ hmem, hstatus⟩⟩
  move h _ hwork := by
    obtain ⟨hsub, ⟨-, hnext⟩ | ⟨_, _, -, hout, -⟩⟩ := h.work hwork
    · exact ⟨hnext, fun _ _ ⟨res, hmem, hstatus⟩ => ⟨res, hsub hmem, hstatus⟩⟩
    · cases hout
  reply h _ hwork := by
    obtain ⟨hsub, ⟨hout, -⟩ | ⟨_, _, hcur, hout, hnext, hreports⟩⟩ := h.work hwork
    · cases hout
    · obtain rfl := Option.some.inj hcur
      obtain rfl := Option.some.inj hout
      exact ⟨hnext, hreports, fun _ _ ⟨res, hmem, hstatus⟩ => ⟨res, hsub hmem, hstatus⟩⟩

theorem serves_start (libNum : Nat) (held : List (Nat × Text)) :
    Serves { observed := { shared := Shared.start libNum held } } none :=
  ⟨handOver_start libNum held, rfl, List.nil_subset _⟩

/-- Whoever gets a status gets that of its own request, and it is the result of a
registration of the file that it has named. This holds for any number of calls, with any
losses and any answers of the plug-ins, as long as no process ends while a request of it, or
the status for one, is on its way. -/
theorem statuses_matched (libNum : Nat) (held : List (Nat × Text))
    (labels : List RegistrationLabel) {s : Registration}
    (clean : Run.EachStep (Exchange.exchangeStep registration) Exchange.CleanExit
      (Registration.start libNum held) labels)
    (hexec : Run.exec (Exchange.exchangeStep registration) (Registration.start libNum held) labels =
      some s) {i about : Nat} {c : Exchange.Call Datagram Int} {status : Int}
    (hc : s.calls[i]? = some c) (hstage : c.stage = .answered about status) :
    about = i ∧ Reports s.server c.request status := by
  have hinv : Exchange.Matched s ∧ Exchange.Honest Serves Reports s :=
    (Run.always_of_eachStep (I := fun s => Exchange.Matched s ∧ Exchange.Honest Serves Reports s)
      (fun _ l _ h hg hstep =>
        have hstepped := Exchange.exchangeStep_cases hstep
        ⟨h.1.step hg hstepped, h.2.step keeps_serves (by cases l <;> trivial) hstepped⟩)
      ⟨Exchange.matched_start _, Exchange.honest_start (serves_start libNum held)⟩ clean).of_exec
      hexec
  exact Exchange.answered_good hinv.1 hinv.2 hc hstage

/-- The first call has given up, and the second has its port. -/
theorem statuses_matched_port_reused :
    let labels : List RegistrationLabel :=
      [.call 1 50000 photoArgs, .loseRequest 0, .abandon 0, .exit 1, .call 2 50000 photoArgs,
        .take [], .work (.socket, .check false) true, .work (.socket, .enter) true,
        .work (.socket, .insert .stored) true, .work (.socket, .recheck 0) true,
        .work (.socket, .leave) true, .arrive 0, .read 1]
    ∃ s c, Run.exec (Exchange.exchangeStep registration) (Registration.start 1 []) labels = some s ∧
      s.calls[1]? = some c ∧ c.stage = .answered 1 msMediaErrNone ∧
        Reports s.server c.request msMediaErrNone := by
  intro labels
  exact ⟨_, _, rfl, rfl, rfl,
    (statuses_matched 1 [] labels (by unfold labels; decide) rfl (i := 1) rfl rfl).2⟩

-- a process that ends with its request on the way leaves the status to another one
example :
    (Run.exec (Exchange.exchangeStep registration) (Registration.start 1 [])
        [.call 1 50000 photoArgs, .abandon 0, .exit 1, .call 2 50000 photoArgs, .take [],
          .work (.socket, .check true) true, .work (.socket, .enter) true,
          .work (.socket, .noMime) true, .work (.socket, .recheck msErrMimeGetFail) true,
          .work (.socket, .leave) true, .arrive 0, .read 1]).map
        (fun s => s.calls.map Exchange.Call.stage) =
      some [.dead, .answered 0 msMediaErrInvalidMedia] := by
  decide

/-! ### What a success tells -/

/-- Without failures the plug-ins below the index hold the path. -/
def Goes (s : Shared) : Pc → Prop
  | .inserting path k ret => ret = msErrNone ∧ ∀ j < k, (j, path) ∈ s.held
  | .leaving path res => res = msErrNone ∧ s.AllHold path
  | _ => True

/-- Items are only added. -/
theorem allHold_mono {s s' : Shared} {l : Label} (hstep : registerStep s l = some s')
    {path : Text} (h : s.AllHold path) : s'.AllHold path := by
  obtain ⟨hheld, hlib⟩ := registerStep_held hstep
  intro i hi
  rw [hlib] at hi
  rw [hheld]
  exact List.mem_append_right _ (h i hi)

theorem Goes.mono {s s' : Shared} {l : Label} (hstep : registerStep s l = some s') {pc : Pc}
    (h : Goes s pc) : Goes s' pc := by
  cases pc with
  | inserting path k ret =>
      refine ⟨h.1, fun j hj => ?_⟩
      rw [(registerStep_held hstep).1]
      exact List.mem_append_right _ (h.2 j hj)
  | leaving path res => exact ⟨h.1, allHold_mono hstep h.2⟩
  | _ => trivial

theorem goes_step {s s' : Shared} {l : Label} (h : ∀ t, Goes s (s.pc t)) (good : NoFailure s l)
    (hstep : registerStep s l = some s') (u : Tid) : Goes s' (s'.pc u) := by
  obtain ⟨t, act⟩ := l
  have hstepped := registerStep_cases hstep
  by_cases hu : u = t
  swap
  · rw [pc_of_ne hstepped hu]
    exact (h u).mono hstep
  subst hu
  have hself := h u
  cases hstepped with
  | call | known | missing | leave | receive => simp [Shared.leave, Goes]
  | enter path =>
      rw [Shared.enter.eq_def]
      split
      · cases u <;> simp [Goes]
      · simp [Goes]
  | noMime => exact good.elim
  | insert path k ret outcome hpc =>
      obtain rfl : outcome = .stored := good
      rw [hpc] at hself
      simp only [Shared.insert, Shared.goto_pc_self]
      refine ⟨hself.1, fun j hj => ?_⟩
      rcases Nat.lt_succ_iff_lt_or_eq.mp hj with hj | rfl
      · exact List.mem_cons_of_mem _ (hself.2 j hj)
      · exact List.mem_cons_self
  | recheck path k ret res hpc hk =>
      rw [hpc] at hself
      rw [Shared.goto_pc_self]
      exact ⟨if_pos hself.1, fun i hi => hself.2 i (Nat.lt_of_lt_of_le hi (Nat.le_of_not_lt hk))⟩

/-- Every registration that has ended has succeeded, in all plug-ins. -/
structure Whole (s : Service) (cur : Option Datagram) : Prop where
  serves : Serves s cur
  goes : ∀ t, Goes s.shared (s.shared.pc t)
  results : ∀ x ∈ s.results, x.2 = msErrNone ∧ s.shared.AllHold x.1

/-- No plug-in fails. -/
def NeverFails (s : Service) (l : Label) : Prop := NoFailure s.shared l

instance (s : Service) (l : Label) : Decidable (NeverFails s l) :=
  inferInstanceAs (Decidable (NoFailure s.shared l))

theorem finished_good {s : Shared} {l : Label} (h : ∀ t, Goes s (s.pc t)) :
    ∀ x ∈ finished s l, x.2 = msErrNone ∧ s.AllHold x.1 := by
  obtain ⟨t, act⟩ := l
  intro x hx
  cases act with
  | check fails =>
      simp only [finished] at hx
      split at hx
      next path hpc =>
        split at hx
        next hall =>
          obtain rfl := List.mem_singleton.mp hx
          exact ⟨rfl, hall.1⟩
        next => cases hx
      next => cases hx
  | leave =>
      simp only [finished] at hx
      split at hx
      next path res hpc =>
        obtain rfl := List.mem_singleton.mp hx
        have hself := h t
        rw [hpc] at hself
        exact hself
      next => cases hx
  | call | enter | noMime | insert | recheck | receive => cases hx

theorem Whole.serve {s next : Service} {beyond : Text} {d : Datagram} (h : Whole s none)
    (hserve : s.serve beyond d = some next) : Whole next (some d) := by
  obtain ⟨hserves, -⟩ := h.serves.serve hserve
  obtain ⟨observed, hstep, rfl⟩ := Option.map_eq_some_iff.mp hserve
  obtain ⟨shared, hshared, rfl⟩ := Option.map_eq_some_iff.mp hstep
  refine ⟨hserves, fun t => ?_, fun x hx => (h.results x hx).imp_right (allHold_mono hshared)⟩
  exact goes_step (l := (.socket, .call _)) h.goes trivial hshared t

theorem Whole.work {s next : Service} {cur : Option Datagram} {l : Label} {out : Option Int}
    (h : Whole s cur) (good : NeverFails s l) (hwork : s.work l = some (next, out)) :
    (∀ t, Goes next.shared (next.shared.pc t)) ∧
      ∀ x ∈ next.results, x.2 = msErrNone ∧ next.shared.AllHold x.1 := by
  obtain ⟨-, observed, hstep, rfl, -⟩ := work_cases hwork
  obtain ⟨shared, hshared, rfl⟩ := Option.map_eq_some_iff.mp hstep
  refine ⟨goes_step h.goes good hshared, fun x hx => ?_⟩
  rcases List.mem_append.mp hx with hx | hx
  · exact (h.results x hx).imp_right (allHold_mono hshared)
  · exact (finished_good h.goes x hx).imp_right (allHold_mono hshared)

theorem keeps_whole : Exchange.Keeps registration NeverFails Whole Reports where
  serve h hserve := ⟨h.serve hserve, (keeps_serves.serve h.serves hserve).2⟩
  move h good hwork := by
    obtain ⟨hserves, mono⟩ := keeps_serves.move h.serves trivial hwork
    obtain ⟨hgoes, hresults⟩ := h.work good hwork
    exact ⟨⟨hserves, hgoes, hresults⟩, mono⟩
  reply h good hwork := by
    obtain ⟨hserves, hreports⟩ := keeps_serves.reply h.serves trivial hwork
    obtain ⟨hgoes, hresults⟩ := h.work good hwork
    exact ⟨⟨hserves, hgoes, hresults⟩, hreports⟩

/-- The steps that a thread may still take in `ms_register_file`. -/
def remaining (libNum : Nat) : Pc → Nat
  | .idle => 0
  | .checking _ => libNum + 5
  | .entering _ => libNum + 4
  | .inserting _ k ret => libNum - k + 2 + if ret = msErrNone then 1 else 0
  | .leaving .. | .waiting _ => 1

def Service.remaining (s : Service) : Nat :=
  Client.remaining s.shared.libNum (s.shared.pc .socket) +
    Client.remaining s.shared.libNum (s.shared.pc .inotify)

def isCall : Act → Bool
  | .call _ => true
  | _ => false

/-- A step of one of the threads inside `ms_register_file`. -/
def ownStep : RegistrationLabel → Bool
  | .work (_, act) _ => !isCall act
  | _ => false

def actCost (libNum : Nat) (act : Act) : Nat := if isCall act then libNum + 5 else 0

/-- What a registration costs that a step begins. -/
def stepCost (libNum : Nat) : RegistrationLabel → Nat
  | .take _ => libNum + 5
  | .work (_, act) _ => actCost libNum act
  | _ => 0

/-- Inside `ms_register_file` a thread comes closer to the end. -/
theorem remaining_lt {s s' : Shared} {t : Tid} {act : Act} (hstep : Stepped s t act s')
    (hcall : isCall act = false) :
    remaining s.libNum (s'.pc t) < remaining s.libNum (s.pc t) := by
  cases hstep with
  | call => cases hcall
  | known path fails hpc | missing path fails hpc =>
      rw [Shared.goto_pc_self, hpc]
      simp only [remaining]
      omega
  | enter path hpc =>
      rw [Shared.enter.eq_def, hpc]
      split
      · cases t <;> simp [remaining]
      · simp [remaining]
  | noMime path hpc =>
      rw [Shared.goto_pc_self, hpc]
      simp only [remaining, Nat.sub_self, if_neg (show msErrMimeGetFail ≠ msErrNone by decide)]
      simp
  | insert path k ret outcome hpc hk =>
      rw [hpc]
      have hfail : msErrDbInsertRecordFail ≠ msErrNone := by decide
      cases outcome with
      | stored | rejected =>
          simp only [Shared.insert, Shared.goto_pc_self, remaining]
          omega
      | failed =>
          simp only [Shared.insert, Shared.goto_pc_self, remaining, if_neg hfail]
          omega
  | recheck path k ret res hpc =>
      rw [Shared.goto_pc_self, hpc]
      simp only [remaining]
      omega
  | leave path res hpc =>
      rw [hpc]
      simp [Shared.leave, remaining]
  | receive path v rest hpc =>
      rw [hpc]
      simp [remaining]

/-- The other thread stays where it is. -/
theorem shared_remaining {s s' : Shared} {t : Tid} {act : Act}
    (hstep : registerStep s (t, act) = some s') :
    remaining s'.libNum (s'.pc .socket) + remaining s'.libNum (s'.pc .inotify) +
        (!isCall act).toNat ≤
      remaining s.libNum (s.pc .socket) + remaining s.libNum (s.pc .inotify) +
        actCost s.libNum act := by
  have hstepped := registerStep_cases hstep
  have hmoved : remaining s.libNum (s'.pc t) + (!isCall act).toNat ≤
      remaining s.libNum (s.pc t) + actCost s.libNum act := by
    cases hcall : isCall act with
    | false =>
        have hless := remaining_lt hstepped hcall
        rw [actCost, hcall]
        exact hless
    | true =>
        cases hstepped with
        | call path => simp [actCost, isCall, remaining]
        | known | missing | enter | noMime | insert | recheck | leave | receive => cases hcall
  rw [(registerStep_held hstep).2]
  cases t with
  | socket =>
      rw [pc_of_ne hstepped (u := .inotify) (by rintro ⟨⟩)]
      omega
  | inotify =>
      rw [pc_of_ne hstepped (u := .socket) (by rintro ⟨⟩)]
      omega

theorem libNum_step {libNum : Nat} {s t : Registration} {l : RegistrationLabel}
    (h : s.server.shared.libNum = libNum)
    (hstep : Exchange.exchangeStep registration s l = some t) :
    t.server.shared.libNum = libNum ∧
      t.server.remaining + (ownStep l).toNat ≤ s.server.remaining + stepCost libNum l := by
  cases Exchange.exchangeStep_cases hstep with
  | call | arrive | loseRequest | loseAnswer | read | abandon | exit =>
      exact ⟨h, Nat.le_add_right _ _⟩
  | take beyond p inbox server hserving hinbox hserve =>
      obtain ⟨observed, hobserved, rfl⟩ := Option.map_eq_some_iff.mp hserve
      obtain ⟨shared, hshared, rfl⟩ := Option.map_eq_some_iff.mp hobserved
      exact ⟨(registerStep_held hshared).2.trans h, h ▸ shared_remaining hshared⟩
  | move b sent server hwork =>
      obtain ⟨-, observed, hobserved, rfl, -⟩ := work_cases hwork
      obtain ⟨shared, hshared, rfl⟩ := Option.map_eq_some_iff.mp hobserved
      exact ⟨(registerStep_held hshared).2.trans h, h ▸ shared_remaining hshared⟩
  | reply b sent server p a hwork =>
      obtain ⟨-, observed, hobserved, rfl, -⟩ := work_cases hwork
      obtain ⟨shared, hshared, rfl⟩ := Option.map_eq_some_iff.mp hobserved
      exact ⟨(registerStep_held hshared).2.trans h, h ▸ shared_remaining hshared⟩

/-- Inside `ms_register_file` only the wait can stop a thread. -/
theorem exists_registerStep {s : Shared} {t : Tid} {path : Text}
    (hpath : pathOf (s.pc t) = some path) (hwait : s.pc t ≠ .waiting path) :
    ∃ act, isCall act = false ∧ (registerStep s (t, act)).isSome = true := by
  cases hpc : s.pc t with
  | idle =>
      rw [hpc] at hpath
      cases hpath
  | checking p =>
      refine ⟨.check false, rfl, ?_⟩
      simp only [registerStep, hpc]
      split <;> rfl
  | entering p => exact ⟨.enter, rfl, by simp [registerStep, hpc]⟩
  | inserting p k ret =>
      by_cases hk : k < s.libNum
      · exact ⟨.insert .stored, rfl, by simp [registerStep, hpc, hk]⟩
      · exact ⟨.recheck msErrNone, rfl, by simp [registerStep, hpc, hk]⟩
  | leaving p res => exact ⟨.leave, rfl, by simp [registerStep, hpc]⟩
  | waiting p =>
      rw [hpc] at hpath hwait
      obtain rfl := Option.some.inj hpath
      exact absurd rfl hwait

/-- The handler can always go on, if need be after the inotify thread. -/
theorem exists_handlerStep {s : Observed} (h : HandOver s) {path : Text}
    (hpath : pathOf (s.shared.pc .socket) = some path) :
    ∃ t act, isCall act = false ∧ (registerStep s.shared (t, act)).isSome = true := by
  by_cases hwait : s.shared.pc .socket = .waiting path
  · rcases h.waiting path hwait with ⟨hreg, -⟩ | ⟨v, -, hqueue, -⟩
    · have hinotify : pathOf (s.shared.pc .inotify) = some path := by
        cases hpc : s.shared.pc .inotify with
        | inserting | leaving =>
            rw [hpc] at hreg
            exact hreg
        | idle | checking | entering | waiting =>
            rw [hpc] at hreg
            cases hreg
      exact ⟨.inotify, exists_registerStep hinotify (h.handlerOnly path)⟩
    · exact ⟨.socket, .receive, rfl, by simp [registerStep, hwait, hqueue]⟩
  · exact ⟨.socket, exists_registerStep hpath hwait⟩

theorem lively (s : Registration) (h : Exchange.Honest Serves Reports s) :
    Run.Lively (Exchange.exchangeStep registration) ownStep (fun s => s.serving = none) s := by
  cases hserving : s.serving with
  | none => exact .inl hserving
  | some p =>
      have hworking := h.working
      rw [hserving] at hworking
      obtain ⟨t, act, hact, hsome⟩ := exists_handlerStep hworking.handOver hworking.handler
      obtain ⟨shared, hshared⟩ := Option.isSome_iff_exists.mp hsome
      have hcall : ∀ path, (t, act) ≠ (.socket, .call path) := by
        rintro path ⟨⟩
        cases hact
      have hwork := Service.work.eq_2 s.server (t, act) hcall
      rw [observedStep, hshared] at hwork
      have hmove : (Exchange.exchangeStep registration s (.work (t, act) true)).isSome = true := by
        simp only [Exchange.exchangeStep, registration, hwork, Option.map_some]
        cases handlerRet s.server.shared (t, act) with
        | none => rfl
        | some ret => rw [hserving]; rfl
      obtain ⟨next, hnext⟩ := Option.isSome_iff_exists.mp hmove
      exact .inr ⟨.work (t, act) true, next, by rw [ownStep, hact]; rfl, hnext⟩

/-- The threads' own steps take no new request. -/
theorem taken_of_own {s t : Registration} {labels : List RegistrationLabel}
    (hown : ∀ l ∈ labels, ownStep l = true)
    (hexec : Run.exec (Exchange.exchangeStep registration) s labels = some t) :
    t.taken = s.taken := by
  induction labels generalizing s with
  | nil =>
      obtain rfl := Option.some.inj hexec
      rfl
  | cons l labels ih =>
      obtain ⟨middle, hstep, hrest⟩ := Option.bind_eq_some_iff.mp hexec
      obtain ⟨hl, hlabels⟩ := List.forall_mem_cons.mp hown
      rw [ih hlabels hrest]
      cases Exchange.exchangeStep_cases hstep with
      | move | reply => rfl
      | call | take | arrive | loseRequest | loseAnswer | read | abandon | exit => cases hl

/-- The server never hangs on a request: however the threads have got where they are, they
can finish by themselves, and every request that the handler has turned to is then answered,
in the order of the calls. No run keeps them busy for longer than the registrations cost that
it begins. -/
theorem requests_answered (libNum : Nat) (held : List (Nat × Text))
    (labels : List RegistrationLabel) {s : Registration}
    (hexec : Run.exec (Exchange.exchangeStep registration) (Registration.start libNum held) labels =
      some s) :
    labels.countP ownStep ≤ (labels.map (stepCost libNum)).sum ∧
      ∃ later t, (∀ l ∈ later, ownStep l = true) ∧
        Run.exec (Exchange.exchangeStep registration) s later = some t ∧
          t.answers.map Prod.fst = s.taken ∧ s.taken.Pairwise (· < ·) := by
  have preserved : ∀ s (l : RegistrationLabel) t,
      (s.server.shared.libNum = libNum ∧ Exchange.Honest Serves Reports s ∧ Exchange.InOrder s) →
        Exchange.exchangeStep registration s l = some t →
          t.server.shared.libNum = libNum ∧ Exchange.Honest Serves Reports t ∧
            Exchange.InOrder t := by
    rintro s l t ⟨hlib, hhonest, horder⟩ hstep
    have hstepped := Exchange.exchangeStep_cases hstep
    exact ⟨(libNum_step hlib hstep).1,
      hhonest.step keeps_serves (by cases l <;> trivial) hstepped, horder.step hstepped⟩
  have descends : Run.Descends (Exchange.exchangeStep registration)
      (fun s => s.server.shared.libNum = libNum ∧ Exchange.Honest Serves Reports s ∧
        Exchange.InOrder s) ownStep (stepCost libNum) (fun s => s.server.remaining) :=
    fun _ _ _ h hstep => (libNum_step h.1 hstep).2
  have start : (Registration.start libNum held).server.shared.libNum = libNum ∧
      Exchange.Honest Serves Reports (Registration.start libNum held) ∧
        Exchange.InOrder (Registration.start libNum held) :=
    ⟨rfl, Exchange.honest_start (serves_start libNum held), Exchange.inOrder_start _⟩
  have free : ∀ l, ownStep l = true → stepCost libNum l = 0 := by
    intro l hl
    cases l with
    | work b sent =>
        obtain ⟨t, act⟩ := b
        cases act with
        | call => cases hl
        | check | enter | noMime | insert | recheck | leave | receive => rfl
    | _ => cases hl
  have hinv := (Run.always_of_step preserved start).of_exec hexec
  obtain ⟨later, t, hown, hlater, hidle⟩ :=
    Run.exists_exec_done preserved descends free (fun s h => lively s h.2.1) hinv
  have hinv' := (Run.always_of_step preserved hinv).of_exec hlater
  have htaken := hinv'.2.2.taken
  rw [hidle, Option.toList_none, List.map_nil, List.append_nil, taken_of_own hown hlater] at htaken
  refine ⟨?_, later, t, hown, hlater, htaken.symm, ?_⟩
  · have hcount := Run.countP_add_le preserved descends start hexec
    have hzero : (Registration.start libNum held).server.remaining = 0 := rfl
    rw [hzero] at hcount
    omega
  · exact (List.pairwise_append.mp hinv.2.2.sorted).1

theorem requests_answered_waiting :
    let labels : List RegistrationLabel :=
      [.work (.inotify, .call photo.text) true, .work (.inotify, .check false) true,
        .work (.inotify, .enter) true, .call 1 50000 photoArgs, .take [],
        .work (.socket, .check false) true, .work (.socket, .enter) true]
    ∃ s later t,
      Run.exec (Exchange.exchangeStep registration) (Registration.start 1 []) labels = some s ∧
        Run.exec (Exchange.exchangeStep registration) s later = some t ∧
          t.answers.map Prod.fst = [0] := by
  intro labels
  obtain ⟨-, later, t, -, hlater, hanswers, -⟩ := requests_answered 1 [] labels rfl
  exact ⟨_, later, t, rfl, hlater, hanswers⟩

end MediaServer.Client
