import MediaServer.Foundation.Bytes
import MediaServer.Foundation.Census
import MediaServer.Foundation.Run
import MediaServer.Path
import Mathlib.Data.List.Basic

/-!
# One server at a time

`main` calls `check_process` before anything else, and ends at once when that returns
false. `check_process` reads `/proc` and looks at the name of every process. It takes no
lock, and processes come and go while it reads.

The directory owes its reader an entry for every process that was there when it was
opened and has not gone since; of the others it may deliver any. The name of a process
that has gone cannot be read any more, and `buff` then holds what it happened to hold.
-/

namespace MediaServer.Main

def appName : Text := "media-server".toList

/-- What `fopen` and `fgets` do with the status file of an entry. -/
inductive Status where
  | closed
  /-- The file is open, but the process has gone, and `fgets` leaves `buff` as it was. -/
  | unread (buff : Text)
  | read (file : Text)
deriving DecidableEq, Repr

/-- What `strstr` searches, if the file could be opened. -/
def Status.buff : Status → Option Text
  | .closed => none
  | .unread buff => some buff
  | .read file => some (Bytes.fgets 127 file).1

def isSpace (c : Char) : Bool := c = ' ' || (9 ≤ c.toNat && c.toNat ≤ 13)

def atoi (string : Text) : Int :=
  match string.dropWhile isSpace with
  | '-' :: digits => -Nat.ofDigitChars 10 (digits.takeWhile Char.isDigit) 0
  | '+' :: digits => Nat.ofDigitChars 10 (digits.takeWhile Char.isDigit) 0
  | digits => Nat.ofDigitChars 10 (digits.takeWhile Char.isDigit) 0

/-- The entry is not the directory of a process. -/
def skips (pinfo : Dirent) : Bool :=
  pinfo.dType ≠ 4 || pinfo.name.head? = some '.' || 57 < (pinfo.name.headD Bytes.nul).toNat

/-- One iteration of the loop of `check_process`: `ret`, and whether the loop is left. -/
def checkEntry (currentPid : Int) (ret : Bool) (pinfo : Dirent) (status : Status) : Bool × Bool :=
  if skips pinfo then (ret, false)
  else
    match status.buff with
    | none => (ret, false)
    | some buff =>
        if strstr buff appName then
          if atoi pinfo.name = currentPid then (true, false) else (false, true)
        else (ret, false)

def checkProcessLoop (currentPid : Int) : Bool → List (Dirent × Status) → Bool
  | ret, [] => ret
  | ret, (pinfo, status) :: rest =>
      let (ret, left) := checkEntry currentPid ret pinfo status
      if left then ret else checkProcessLoop currentPid ret rest

/-- `check_process`; `none` when `/proc` cannot be opened. -/
def checkProcess (currentPid : Int) (proc : Option (List (Dirent × Status))) : Bool :=
  match proc with
  | none => false
  | some entries => checkProcessLoop currentPid false entries

/-- Where a process stands in `main`. -/
inductive Stage where
  /-- It runs another program. -/
  | other
  /-- `opendir` is next. -/
  | started
  /-- In the loop. The directory still owes the entries of these processes. -/
  | checking (ret : Bool) (owed : List Nat)
  /-- `check_process` has returned true. -/
  | serving
  /-- It has called `exit`, and its entry is still there. -/
  | exited
deriving DecidableEq, Repr

structure Process where
  comm : Text
  stage : Stage
deriving DecidableEq, Repr

/-- The processes that are there, and what each number stands for. -/
structure ProcessTable where
  pids : List Nat
  process : Nat → Process

inductive ProcessLabel where
  | fork (pid : Nat) (comm : Text)
  /-- A process turns to another program. -/
  | exec (pid : Nat) (comm : Text)
  /-- A process turns to this program. -/
  | execServer (pid : Nat)
  | opendir (pid : Nat) (ok : Bool)
  /-- The process `pid` gets the entry of `entry`. `lost` is what happens when that one
  has gone. -/
  | readProcess (pid entry : Nat) (lost : Option Text)
  /-- It gets an entry that is not a process. -/
  | readOther (pid : Nat) (pinfo : Dirent) (status : Status)
  | endOfDir (pid : Nat)
  | exit (pid : Nat)
  | vanish (pid : Nat)
deriving DecidableEq, Repr

/-- The entry of a process in `/proc`. -/
def procEntry (pid : Nat) : Dirent := ⟨Nat.toDigits 10 pid, 4⟩

/-- The first line of the status file. -/
def statusFile (comm : Text) : Text := "Name:\t".toList ++ comm ++ ['\n']

/-- The name of the process would be taken for this program's. -/
def named (comm : Text) : Bool := strstr (Bytes.fgets 127 (statusFile comm)).1 appName

def Stage.forget (pid : Nat) : Stage → Stage
  | .checking ret owed => .checking ret (owed.filter (· ≠ pid))
  | stage => stage

namespace ProcessTable

def goto (s : ProcessTable) (pid : Nat) (stage : Stage) : ProcessTable :=
  { s with process := Function.update s.process pid { s.process pid with stage } }

def become (s : ProcessTable) (pid : Nat) (process : Process) : ProcessTable :=
  { s with process := Function.update s.process pid process }

def status (s : ProcessTable) (pid : Nat) (lost : Option Text) : Status :=
  if pid ∈ s.pids then .read (statusFile (s.process pid).comm)
  else lost.elim .closed .unread

end ProcessTable

/-- One step of a process; `none` where it cannot take it. -/
def processStep (s : ProcessTable) : ProcessLabel → Option ProcessTable
  | .fork pid comm =>
      if pid ∈ s.pids then none
      else some { (s.become pid ⟨comm, .other⟩) with pids := pid :: s.pids }
  | .exec pid comm =>
      if pid ∈ s.pids ∧ (s.process pid).stage = .other then some (s.become pid ⟨comm, .other⟩)
      else none
  | .execServer pid =>
      if pid ∈ s.pids ∧ (s.process pid).stage = .other then some (s.become pid ⟨appName, .started⟩)
      else none
  | .opendir pid ok =>
      if pid ∈ s.pids ∧ (s.process pid).stage = .started then
        some (s.goto pid (if ok then .checking false s.pids else .exited))
      else none
  | .readProcess pid entry lost =>
      if pid ∈ s.pids then
        match (s.process pid).stage with
        | .checking ret owed =>
            let (ret, left) := checkEntry pid ret (procEntry entry) (s.status entry lost)
            some (s.goto pid (if left then .exited else .checking ret (owed.filter (· ≠ entry))))
        | _ => none
      else none
  | .readOther pid pinfo status =>
      if pid ∈ s.pids ∧ skips pinfo then
        match (s.process pid).stage with
        | .checking ret owed =>
            let (ret, left) := checkEntry pid ret pinfo status
            some (s.goto pid (if left then .exited else .checking ret owed))
        | _ => none
      else none
  | .endOfDir pid =>
      if pid ∈ s.pids then
        match (s.process pid).stage with
        | .checking ret [] => some (s.goto pid (if ret then .serving else .exited))
        | _ => none
      else none
  | .exit pid =>
      if pid ∈ s.pids ∧ (s.process pid).stage = .serving then some (s.goto pid .exited) else none
  | .vanish pid =>
      some
        { pids := s.pids.filter (· ≠ pid)
          process := fun i =>
            { s.process i with stage := (s.process i).stage.forget pid } }

/-- Everything a step can do, with the guards it has passed. -/
inductive Moved (s : ProcessTable) : ProcessLabel → ProcessTable → Prop where
  | fork {pid : Nat} (comm : Text) : pid ∉ s.pids →
      Moved s (.fork pid comm) { (s.become pid ⟨comm, .other⟩) with pids := pid :: s.pids }
  | exec {pid : Nat} (comm : Text) : pid ∈ s.pids → (s.process pid).stage = .other →
      Moved s (.exec pid comm) (s.become pid ⟨comm, .other⟩)
  | execServer {pid : Nat} : pid ∈ s.pids → (s.process pid).stage = .other →
      Moved s (.execServer pid) (s.become pid ⟨appName, .started⟩)
  | opened {pid : Nat} : pid ∈ s.pids → (s.process pid).stage = .started →
      Moved s (.opendir pid true) (s.goto pid (.checking false s.pids))
  | notOpened {pid : Nat} : pid ∈ s.pids → (s.process pid).stage = .started →
      Moved s (.opendir pid false) (s.goto pid .exited)
  | read {pid entry : Nat} {lost : Option Text} {ret next : Bool} {owed : List Nat} :
      pid ∈ s.pids → (s.process pid).stage = .checking ret owed →
      checkEntry pid ret (procEntry entry) (s.status entry lost) = (next, false) →
      Moved s (.readProcess pid entry lost)
        (s.goto pid (.checking next (owed.filter (· ≠ entry))))
  | met {pid entry : Nat} {lost : Option Text} {ret : Bool} {owed : List Nat} :
      pid ∈ s.pids → (s.process pid).stage = .checking ret owed →
      (checkEntry pid ret (procEntry entry) (s.status entry lost)).2 = true →
      Moved s (.readProcess pid entry lost) (s.goto pid .exited)
  | skipped {pid : Nat} {pinfo : Dirent} {status : Status} {ret : Bool} {owed : List Nat} :
      pid ∈ s.pids → (s.process pid).stage = .checking ret owed →
      Moved s (.readOther pid pinfo status) (s.goto pid (.checking ret owed))
  | passed {pid : Nat} : pid ∈ s.pids → (s.process pid).stage = .checking true [] →
      Moved s (.endOfDir pid) (s.goto pid .serving)
  | unseen {pid : Nat} : pid ∈ s.pids → (s.process pid).stage = .checking false [] →
      Moved s (.endOfDir pid) (s.goto pid .exited)
  | exit {pid : Nat} : pid ∈ s.pids → (s.process pid).stage = .serving →
      Moved s (.exit pid) (s.goto pid .exited)
  | vanish {pid : Nat} :
      Moved s (.vanish pid)
        { pids := s.pids.filter (· ≠ pid)
          process := fun i => { s.process i with stage := (s.process i).stage.forget pid } }

theorem processStep_cases {s t : ProcessTable} {l : ProcessLabel}
    (h : processStep s l = some t) : Moved s l t := by
  cases l with
  | fork pid comm =>
      simp only [processStep] at h
      split at h
      next => cases h
      next hmem => exact Option.some.inj h ▸ .fork comm hmem
  | exec pid comm =>
      simp only [processStep] at h
      split at h
      next hother => exact Option.some.inj h ▸ .exec comm hother.1 hother.2
      next => cases h
  | execServer pid =>
      simp only [processStep] at h
      split at h
      next hother => exact Option.some.inj h ▸ .execServer hother.1 hother.2
      next => cases h
  | opendir pid ok =>
      simp only [processStep] at h
      split at h
      next hstarted =>
        cases ok with
        | true => exact Option.some.inj h ▸ .opened hstarted.1 hstarted.2
        | false => exact Option.some.inj h ▸ .notOpened hstarted.1 hstarted.2
      next => cases h
  | readProcess pid entry lost =>
      simp only [processStep] at h
      split at h
      next hmem =>
        split at h
        next ret owed hstage =>
          cases houtcome : checkEntry pid ret (procEntry entry) (s.status entry lost) with
          | mk next left =>
              rw [houtcome] at h
              cases left with
              | true => exact Option.some.inj h ▸ .met hmem hstage (by rw [houtcome])
              | false => exact Option.some.inj h ▸ .read hmem hstage houtcome
        next => cases h
      next => cases h
  | readOther pid pinfo status =>
      simp only [processStep] at h
      split at h
      next hskips =>
        split at h
        next ret owed hstage =>
          rw [checkEntry, if_pos hskips.2] at h
          exact Option.some.inj h ▸ .skipped hskips.1 hstage
        next => cases h
      next => cases h
  | endOfDir pid =>
      simp only [processStep] at h
      split at h
      next hmem =>
        split at h
        next ret hstage =>
          cases ret with
          | true => exact Option.some.inj h ▸ .passed hmem hstage
          | false => exact Option.some.inj h ▸ .unseen hmem hstage
        next => cases h
      next => cases h
  | exit pid =>
      simp only [processStep] at h
      split at h
      next hserving => exact Option.some.inj h ▸ .exit hserving.1 hserving.2
      next => cases h
  | vanish pid => exact Option.some.inj h ▸ .vanish

/-- The parties of the census are the processes whose name is this program's. -/
def Process.phase (p : Process) (pid : Nat) : Census.Phase Nat :=
  match p.stage with
  | .other => if named p.comm then .present else .absent
  | .started => .present
  | .checking _ owed => .scanning {j | j ∈ owed ∧ j ≠ pid}
  | .serving => .entered
  | .exited => .refused

namespace ProcessTable

def phases (s : ProcessTable) (pid : Nat) : Census.Phase Nat :=
  if pid ∈ s.pids then (s.process pid).phase pid else .absent

def Serving (s : ProcessTable) (pid : Nat) : Prop :=
  pid ∈ s.pids ∧ (s.process pid).stage = .serving

/-- No two processes have passed `check_process`. -/
def SingleInstance (s : ProcessTable) : Prop := ∀ i j, s.Serving i → s.Serving j → i = j

/-- Some processes, none of which runs this program. -/
def start (pids : List Nat) (comm : Nat → Text) : ProcessTable :=
  { pids, process := fun pid => ⟨comm pid, .other⟩ }

/-- What runs this program has its name. -/
structure Sound (s : ProcessTable) : Prop where
  comm : ∀ pid, (s.process pid).stage ≠ .other → (s.process pid).comm = appName
  ordered : Census.Ordered s.phases

end ProcessTable

section Entry

theorem head_toDigits (pid : Nat) :
    ∃ c digits, Nat.toDigits 10 pid = c :: digits ∧ c.isDigit = true := by
  obtain ⟨c, digits, h⟩ := List.exists_cons_of_ne_nil (Nat.toDigits_ne_nil (n := pid) (b := 10))
  refine ⟨c, digits, h, ?_⟩
  exact Nat.isDigit_of_mem_toDigits (by decide) (Nat.le_refl 10) (h ▸ List.mem_cons_self)

theorem toNat_of_isDigit {c : Char} (h : c.isDigit = true) : 48 ≤ c.toNat ∧ c.toNat ≤ 57 := by
  simpa [Char.isDigit, UInt32.le_iff_toNat_le] using h

theorem skips_procEntry (pid : Nat) : skips (procEntry pid) = false := by
  obtain ⟨c, digits, hname, hc⟩ := head_toDigits pid
  obtain ⟨hlow, hhigh⟩ := toNat_of_isDigit hc
  have hdot : c ≠ '.' := by
    rintro rfl
    exact absurd hlow (by decide)
  simp [skips, procEntry, hname, hdot, hhigh]

theorem atoi_toDigits (pid : Nat) : atoi (Nat.toDigits 10 pid) = pid := by
  obtain ⟨c, digits, hname, hc⟩ := head_toDigits pid
  obtain ⟨hlow, hhigh⟩ := toNat_of_isDigit hc
  have hspace : isSpace c = false := by
    have hblank : c ≠ ' ' := by
      rintro rfl
      exact absurd hlow (by decide)
    simp only [isSpace, hblank, decide_false, Bool.false_or, Bool.and_eq_false_iff,
      decide_eq_false_iff_not]
    omega
  have hminus : c ≠ '-' := by
    rintro rfl
    exact absurd hlow (by decide)
  have hplus : c ≠ '+' := by
    rintro rfl
    exact absurd hlow (by decide)
  have hdigits : (Nat.toDigits 10 pid).takeWhile Char.isDigit = Nat.toDigits 10 pid :=
    List.takeWhile_eq_self_iff.mpr fun d hd =>
      Nat.isDigit_of_mem_toDigits (by decide) (Nat.le_refl 10) hd
  have hdrop : (Nat.toDigits 10 pid).dropWhile isSpace = Nat.toDigits 10 pid := by
    rw [hname, List.dropWhile_cons_of_neg (by simp [hspace])]
  rw [atoi, hdrop]
  split
  next heq => exact absurd (List.cons.inj (hname.symm.trans heq)).1 hminus
  next heq => exact absurd (List.cons.inj (hname.symm.trans heq)).1 hplus
  next => rw [hdigits, Nat.ofDigitChars_ten_toDigits]

theorem named_appName : named appName = true := by decide

/-- The entry is taken for this program's. -/
def matched (x : Dirent × Status) : Bool :=
  !skips x.1 && x.2.buff.elim false fun buff => strstr buff appName

theorem checkEntry_eq (currentPid : Int) (ret : Bool) (x : Dirent × Status) :
    checkEntry currentPid ret x.1 x.2 =
      if matched x then
        if atoi x.1.name = currentPid then (true, false) else (false, true)
      else (ret, false) := by
  rw [checkEntry, matched]
  cases skips x.1 with
  | true => rfl
  | false =>
      cases x.2.buff with
      | none => rfl
      | some buff => cases hstr : strstr buff appName <;> simp [hstr]

/-- The loop is left with false. -/
theorem checkEntry_left {currentPid : Int} {ret next : Bool} {pinfo : Dirent} {status : Status}
    (h : checkEntry currentPid ret pinfo status = (next, true)) : next = false := by
  rw [checkEntry_eq currentPid ret (pinfo, status)] at h
  split at h
  next =>
    split at h
    next => cases h
    next => exact (Prod.mk.inj h).1.symm
  next => cases h

/-- What is taken for this program is this process, and has been seen. -/
theorem checkProcessLoop_iff (currentPid : Int) (ret : Bool) (entries : List (Dirent × Status)) :
    checkProcessLoop currentPid ret entries = true ↔
      (∀ x ∈ entries, matched x → atoi x.1.name = currentPid) ∧
        (ret = true ∨ ∃ x ∈ entries, matched x) := by
  induction entries generalizing ret with
  | nil => simp [checkProcessLoop]
  | cons x entries ih =>
      rw [checkProcessLoop, checkEntry_eq currentPid ret x, List.forall_mem_cons,
        List.exists_mem_cons_iff]
      cases hmatched : matched x with
      | false => simp [ih]
      | true =>
          by_cases hown : atoi x.1.name = currentPid
          · simp [hown, ih]
          · simp [hown]

theorem matched_of_mem {s : ProcessTable} {entry : Nat} (hmem : entry ∈ s.pids)
    (lost : Option Text) :
    matched (procEntry entry, s.status entry lost) = named (s.process entry).comm := by
  rw [matched, skips_procEntry, ProcessTable.status, if_pos hmem]
  rfl

theorem matched_of_notMem {s : ProcessTable} {entry : Nat} (hmem : entry ∉ s.pids) :
    matched (procEntry entry, s.status entry none) = false := by
  rw [matched, ProcessTable.status, if_neg hmem]
  exact Bool.and_false _

end Entry

theorem phase_forget (p : Process) (i pid : Nat) :
    ({ p with stage := p.stage.forget pid } : Process).phase i = (p.phase i).forget pid := by
  cases hstage : p.stage with
  | checking ret owed =>
      simp only [Process.phase, hstage, Stage.forget, Census.Phase.forget]
      refine congrArg _ (Set.ext fun j => ?_)
      simp only [List.mem_filter, decide_eq_true_eq]
      exact and_right_comm
  | other =>
      cases hnamed : named p.comm <;>
        simp [Process.phase, Stage.forget, hstage, hnamed, Census.Phase.forget]
  | started | serving | exited => simp [Process.phase, hstage, Stage.forget, Census.Phase.forget]

namespace ProcessTable

variable {s t : ProcessTable} {pid : Nat}

theorem phases_become (hmem : pid ∈ s.pids) (process : Process) :
    (s.become pid process).phases = Function.update s.phases pid (process.phase pid) := by
  funext i
  rw [Function.update_apply]
  by_cases hi : i = pid
  · subst hi
    simp [phases, become, hmem]
  · simp [phases, become, hi]

theorem phases_goto (hmem : pid ∈ s.pids) (stage : Stage) :
    (s.goto pid stage).phases =
      Function.update s.phases pid ({ s.process pid with stage }.phase pid) :=
  phases_become hmem { s.process pid with stage }

theorem phases_of_mem (hmem : pid ∈ s.pids) : s.phases pid = (s.process pid).phase pid :=
  if_pos hmem

theorem phases_of_notMem (hmem : pid ∉ s.pids) : s.phases pid = .absent := if_neg hmem

theorem phases_vanish :
    ProcessTable.phases
      { pids := s.pids.filter (· ≠ pid)
        process := fun i => { s.process i with stage := (s.process i).stage.forget pid } } =
      fun i => if i = pid then .absent else (s.phases i).forget pid := by
  funext i
  by_cases hi : i = pid
  · simp [phases, hi]
  · by_cases hmem : i ∈ s.pids
    · simpa [phases, hi, hmem] using phase_forget (s.process i) i pid
    · simp [phases, hi, hmem, Census.Phase.forget]

/-- A process that runs another program is a party by its name alone. -/
theorem refines_other {phases : Nat → Census.Phase Nat} {b : Bool} (comm : Text)
    (hbefore : phases pid = if b then .present else .absent) :
    Relation.ReflTransGen Census.Step phases
      (Function.update phases pid ((⟨comm, .other⟩ : Process).phase pid)) := by
  have hafter : (⟨comm, .other⟩ : Process).phase pid =
      if named comm then .present else .absent := rfl
  rw [hafter]
  cases b <;> cases named comm
  · rw [← hbefore, Function.update_eq_self]
  · exact .single (.appear pid hbefore)
  · exact .single (.withdraw pid hbefore)
  · rw [← hbefore, Function.update_eq_self]

theorem phases_other (hmem : pid ∈ s.pids) (hstage : (s.process pid).stage = .other) :
    s.phases pid = if named (s.process pid).comm then .present else .absent := by
  rw [phases_of_mem hmem, Process.phase, hstage]

/-- A process may give up at any time. -/
theorem refines_exited (hmem : pid ∈ s.pids) (hstage : (s.process pid).stage ≠ .other) :
    Relation.ReflTransGen Census.Step s.phases (s.goto pid .exited).phases := by
  rw [phases_goto hmem]
  refine .single (.refuse pid ?_)
  rw [phases_of_mem hmem, Process.phase]
  cases h : (s.process pid).stage with
  | other => exact absurd h hstage
  | started | checking | serving | exited => rintro ⟨⟩

/-- An entry that the reader passes is its own, or of nobody who matters. -/
theorem Sound.refines_read (h : s.Sound) (hmem : pid ∈ s.pids) {ret next : Bool}
    {owed : List Nat} (hstage : (s.process pid).stage = .checking ret owed) {entry : Nat}
    {lost : Option Text}
    (hpassed : checkEntry pid ret (procEntry entry) (s.status entry lost) = (next, false)) :
    Relation.ReflTransGen Census.Step s.phases
      (s.goto pid (.checking next (owed.filter (· ≠ entry)))).phases := by
  have hphase : s.phases pid = .scanning {j | j ∈ owed ∧ j ≠ pid} := by
    rw [phases_of_mem hmem, Process.phase, hstage]
  have hlist : ({j | j ∈ owed.filter (· ≠ entry) ∧ j ≠ pid} : Set Nat) =
      {j | j ∈ owed ∧ j ≠ pid} \ {entry} := by
    refine Set.ext fun j => ?_
    simp only [List.mem_filter, decide_eq_true_eq]
    exact and_right_comm
  rw [phases_goto hmem]
  simp only [Process.phase, hlist]
  by_cases hself : entry = pid
  · have hsame : ({j | j ∈ owed ∧ j ≠ pid} : Set Nat) \ {entry} = {j | j ∈ owed ∧ j ≠ pid} :=
      Set.sdiff_singleton_eq_self fun hin => hin.2 hself
    rw [hsame, ← hphase, Function.update_eq_self]
  · refine .single (.cross pid entry _ hphase ?_)
    by_cases hthere : entry ∈ s.pids
    · have hname : named (s.process entry).comm = false := by
        have hatoi : atoi (procEntry entry).name ≠ (pid : Int) := by
          rw [procEntry, atoi_toDigits]
          exact fun heq => hself (Int.natCast_inj.mp heq)
        have hiteration := checkEntry_eq pid ret (procEntry entry, s.status entry lost)
        rw [hpassed, matched_of_mem hthere, if_neg hatoi] at hiteration
        cases hnamed : named (s.process entry).comm with
        | false => rfl
        | true => simp [hnamed] at hiteration
      have hother : (s.process entry).stage = .other := by
        by_contra hne
        rw [h.comm entry hne, named_appName] at hname
        cases hname
      rw [phases_other hthere hother, hname]
      rfl
    · exact phases_of_notMem hthere

/-- The processes refine the census. -/
theorem Sound.refines (h : s.Sound) {l : ProcessLabel} (hstep : processStep s l = some t) :
    Relation.ReflTransGen Census.Step s.phases t.phases := by
  cases processStep_cases hstep with
  | @fork pid comm hmem =>
      have hphases : ProcessTable.phases
          { s.become pid ⟨comm, .other⟩ with pids := pid :: s.pids } =
          Function.update s.phases pid ((⟨comm, .other⟩ : Process).phase pid) := by
        funext i
        rw [Function.update_apply]
        by_cases hi : i = pid
        · subst hi
          simp [phases, become]
        · simp [phases, become, hi]
      rw [hphases]
      exact refines_other (b := false) comm (phases_of_notMem hmem)
  | exec comm hmem hstage =>
      rw [phases_become hmem]
      exact refines_other comm (phases_other hmem hstage)
  | @execServer pid hmem hstage =>
      have hparty : (⟨appName, .started⟩ : Process).phase pid =
          (⟨appName, .other⟩ : Process).phase pid := by
        rw [Process.phase, Process.phase, named_appName]
        rfl
      rw [phases_become hmem, hparty]
      exact refines_other appName (phases_other hmem hstage)
  | @opened pid hmem hstage =>
      have hphase : s.phases pid = .present := by
        rw [phases_of_mem hmem, Process.phase, hstage]
      rw [phases_goto hmem]
      refine .single (.scan pid _ hphase fun j hne hj => ⟨?_, hne⟩)
      by_contra hnot
      exact hj (phases_of_notMem hnot)
  | notOpened hmem hstage | met hmem hstage | unseen hmem hstage | exit hmem hstage =>
      refine refines_exited hmem ?_
      rw [hstage]
      rintro ⟨⟩
  | read hmem hstage hpassed => exact h.refines_read hmem hstage hpassed
  | @skipped pid pinfo status ret owed hmem hstage =>
      have hsame : s.phases pid =
          ({ s.process pid with stage := .checking ret owed } : Process).phase pid := by
        rw [phases_of_mem hmem, ← hstage]
      rw [phases_goto hmem, ← hsame, Function.update_eq_self]
  | @passed pid hmem hstage =>
      have hphase : s.phases pid = .scanning ∅ := by
        rw [phases_of_mem hmem, Process.phase, hstage]
        simp
      rw [phases_goto hmem]
      exact .single (.enter pid hphase)
  | @vanish pid =>
      rw [phases_vanish]
      exact .single (.leave pid)

/-- A process that turns to this program gets its name. -/
theorem Sound.comm_become (h : s.Sound) (process : Process)
    (hprocess : process.stage ≠ .other → process.comm = appName) (i : Nat)
    (hi : ((s.become pid process).process i).stage ≠ .other) :
    ((s.become pid process).process i).comm = appName := by
  by_cases heq : i = pid
  · subst heq
    simp only [become, Function.update_self] at hi ⊢
    exact hprocess hi
  · simp only [become, Function.update_of_ne heq] at hi ⊢
    exact h.comm i hi

theorem Sound.comm_goto (h : s.Sound) {before : Stage} (hstage : (s.process pid).stage = before)
    (hbefore : before ≠ .other) (stage : Stage) (i : Nat)
    (hi : ((s.goto pid stage).process i).stage ≠ .other) :
    ((s.goto pid stage).process i).comm = appName :=
  h.comm_become { s.process pid with stage } (fun _ => h.comm pid (hstage ▸ hbefore)) i hi

/-- What runs this program keeps its name. -/
theorem Sound.comm_step (h : s.Sound) {l : ProcessLabel} (hstep : processStep s l = some t)
    (i : Nat) (hi : (t.process i).stage ≠ .other) : (t.process i).comm = appName := by
  cases processStep_cases hstep with
  | fork comm | exec comm => exact h.comm_become _ (fun hne => absurd rfl hne) i hi
  | execServer => exact h.comm_become _ (fun _ => rfl) i hi
  | opened _ hstage | notOpened _ hstage | read _ hstage | met _ hstage | skipped _ hstage
  | passed _ hstage | unseen _ hstage | exit _ hstage =>
      exact h.comm_goto hstage (by rintro ⟨⟩) _ i hi
  | @vanish pid =>
      refine h.comm i fun hother => hi ?_
      show (s.process i).stage.forget pid = .other
      rw [hother]
      rfl

theorem Sound.step (h : s.Sound) {l : ProcessLabel} (hstep : processStep s l = some t) :
    t.Sound :=
  ⟨h.comm_step hstep, Census.ordered_of_reflTransGen h.ordered (h.refines hstep)⟩

theorem sound_start (pids : List Nat) (comm : Nat → Text) : (start pids comm).Sound := by
  have quiet : ∀ pid, (start pids comm).phases pid = .present ∨
      (start pids comm).phases pid = .absent := by
    intro pid
    by_cases hmem : pid ∈ pids
    · rw [phases_other (s := start pids comm) hmem rfl]
      split
      · exact .inl rfl
      · exact .inr rfl
    · exact .inr (phases_of_notMem (s := start pids comm) hmem)
  refine ⟨fun pid hne => absurd rfl hne, ?_, ?_, ?_⟩
  · intro i j hi
    rcases quiet i with hq | hq <;> rw [hq] at hi <;> cases hi
  · intro i j pending hi
    rcases quiet i with hq | hq <;> rw [hq] at hi <;> cases hi
  · intro i j pending others hij hi
    rcases quiet i with hq | hq <;> rw [hq] at hi <;> cases hi

end ProcessTable

/-- In every run of the processes of the system, however their steps interleave, at most
one of them is behind `check_process`. -/
theorem single_instance (pids : List Nat) (comm : Nat → Text) (labels : List ProcessLabel) :
    Run.Always processStep ProcessTable.SingleInstance (ProcessTable.start pids comm) labels := by
  refine (Run.always_of_step (fun _ _ _ h hstep => h.step hstep)
    (ProcessTable.sound_start pids comm)).mono fun s h i j hi hj => ?_
  refine h.ordered.entered i j ?_ ?_
  · rw [ProcessTable.phases_of_mem hi.1, Process.phase, hi.2]
  · rw [ProcessTable.phases_of_mem hj.1, Process.phase, hj.2]

section Alone

variable {s : ProcessTable} {pid : Nat}

@[simp] theorem status_goto (stage : Stage) (entry : Nat) (lost : Option Text) :
    (s.goto pid stage).status entry lost = s.status entry lost := by
  by_cases hself : entry = pid
  · subst hself
    simp [ProcessTable.status, ProcessTable.goto]
  · simp [ProcessTable.status, ProcessTable.goto, hself]

theorem stage_goto_self (stage : Stage) : ((s.goto pid stage).process pid).stage = stage := by
  simp [ProcessTable.goto]

/-- What `/proc` lists: the processes, and whatever else there is. -/
inductive Listed where
  | process (pid : Nat)
  | other (pinfo : Dirent) (status : Status)
deriving DecidableEq, Repr

def Listed.read (pid : Nat) : Listed → ProcessLabel
  | .process entry => .readProcess pid entry none
  | .other pinfo status => .readOther pid pinfo status

def Listed.entry (s : ProcessTable) : Listed → Dirent × Status
  | .process entry => (procEntry entry, s.status entry none)
  | .other pinfo status => (pinfo, status)

/-- What is no process is none of the directories that the loop looks into. -/
def Listed.Proper : Listed → Prop
  | .process _ => True
  | .other pinfo _ => skips pinfo

instance : DecidablePred Listed.Proper
  | .process _ => inferInstanceAs (Decidable True)
  | .other pinfo _ => inferInstanceAs (Decidable (skips pinfo = true))

/-- The processes that an entry accounts for. -/
def Listed.owed (owed : List Nat) : Listed → List Nat
  | .process entry => owed.filter (· ≠ entry)
  | .other _ _ => owed

/-- What the reader does while no other process moves. -/
def reads (pid : Nat) (entries : List Listed) : List ProcessLabel :=
  entries.map (Listed.read pid) ++ [.endOfDir pid]

/-- What it reads then. -/
def listing (s : ProcessTable) (entries : List Listed) : List (Dirent × Status) :=
  entries.map (Listed.entry s)

theorem entry_goto (stage : Stage) (x : Listed) : x.entry (s.goto pid stage) = x.entry s := by
  cases x with
  | process entry => simp only [Listed.entry, status_goto]
  | other pinfo status => rfl

theorem listing_goto (stage : Stage) (entries : List Listed) :
    listing (s.goto pid stage) entries = listing s entries := by
  simp only [listing, List.map_inj_left]
  exact fun x _ => entry_goto stage x

/-- The step of the reader is one iteration of the loop. -/
theorem processStep_read (hmem : pid ∈ s.pids) {ret : Bool} {owed : List Nat}
    (hstage : (s.process pid).stage = .checking ret owed) {x : Listed} (hproper : x.Proper) :
    processStep s (x.read pid) =
      some (s.goto pid (if (checkEntry pid ret (x.entry s).1 (x.entry s).2).2 then .exited
        else .checking (checkEntry pid ret (x.entry s).1 (x.entry s).2).1 (x.owed owed))) := by
  cases x with
  | process entry => simp [Listed.read, Listed.entry, Listed.owed, processStep, hmem, hstage]
  | other pinfo status =>
      have hskips : skips pinfo = true := hproper
      simp only [Listed.read, Listed.entry, Listed.owed, processStep, hmem, hstage, hskips,
        and_self, if_true]
      rfl

theorem processStep_read_exited (hstage : (s.process pid).stage = .exited) (x : Listed) :
    processStep s (x.read pid) = none := by
  cases x <;> simp [Listed.read, processStep, hstage]

theorem exec_reads_exited (hstage : (s.process pid).stage = .exited) (entries : List Listed) :
    Run.exec processStep s (reads pid entries) = none := by
  cases entries with
  | nil => simp [reads, processStep, hstage]
  | cons x entries => simp [reads, processStep_read_exited hstage x]

theorem owed_iff {owed : List Nat} {x : Listed} {entries : List Listed} :
    (∀ i ∈ x.owed owed, .process i ∈ entries) ↔ ∀ i ∈ owed, .process i ∈ x :: entries := by
  cases x with
  | process entry =>
      simp only [Listed.owed, List.mem_filter, decide_eq_true_eq, List.mem_cons, Listed.process.injEq]
      exact forall_congr' fun i => ⟨fun h hi => or_iff_not_imp_left.mpr fun hne => h ⟨hi, hne⟩,
        fun h hi => (h hi.1).resolve_left hi.2⟩
  | other pinfo status => simp [Listed.owed]

/-- The steps make the loop. -/
theorem serves_of_checking_iff (hmem : pid ∈ s.pids) {entries : List Listed}
    (hproper : ∀ x ∈ entries, x.Proper) {ret : Bool} {owed : List Nat}
    (hstage : (s.process pid).stage = .checking ret owed) :
    (∃ t, Run.exec processStep s (reads pid entries) = some t ∧ t.Serving pid) ↔
      checkProcessLoop pid ret (listing s entries) = true ∧
        ∀ j ∈ owed, .process j ∈ entries := by
  induction entries generalizing s ret owed with
  | nil =>
      cases owed with
      | nil =>
          have hend : Run.exec processStep s (reads pid []) =
              some (s.goto pid (if ret then .serving else .exited)) := by
            simp [reads, processStep, hmem, hstage]
          rw [hend]
          cases ret with
          | false => simp [ProcessTable.Serving, stage_goto_self, listing, checkProcessLoop]
          | true =>
              refine iff_of_true ⟨_, rfl, hmem, stage_goto_self _⟩ ?_
              exact ⟨rfl, List.forall_mem_nil _⟩
      | cons j owed =>
          have hend : Run.exec processStep s (reads pid []) = none := by
            simp [reads, processStep, hmem, hstage]
          refine iff_of_false (by simp [hend]) fun h => ?_
          exact List.not_mem_nil (h.2 j List.mem_cons_self)
  | cons x entries ih =>
      obtain ⟨⟨next, left⟩, houtcome⟩ :
          ∃ outcome, checkEntry pid ret (x.entry s).1 (x.entry s).2 = outcome := ⟨_, rfl⟩
      obtain ⟨hx, hrest⟩ := List.forall_mem_cons.mp hproper
      have hstep : Run.exec processStep s (reads pid (x :: entries)) =
          Run.exec processStep
            (s.goto pid (if left then .exited else .checking next (x.owed owed)))
            (reads pid entries) := by
        simp [reads, processStep_read hmem hstage hx, houtcome]
      have hloop : checkProcessLoop pid ret (listing s (x :: entries)) =
          if left then next else checkProcessLoop pid next (listing s entries) := by
        rw [listing, List.map_cons, checkProcessLoop, houtcome, listing]
      rw [hstep, hloop]
      cases left with
      | true =>
          rw [if_pos rfl, exec_reads_exited (stage_goto_self _), if_pos rfl,
            checkEntry_left houtcome]
          simp
      | false =>
          have hiff := ih (s := s.goto pid (.checking next (x.owed owed))) hmem hrest
            (stage_goto_self _)
          rw [if_neg Bool.false_ne_true, hiff, listing_goto, owed_iff, if_neg Bool.false_ne_true]

/-- An undisturbed start computes `check_process`. -/
theorem serves_of_started_iff (hmem : pid ∈ s.pids) (hstarted : (s.process pid).stage = .started)
    {entries : List Listed} (hproper : ∀ x ∈ entries, x.Proper)
    (hlisted : ∀ j ∈ s.pids, .process j ∈ entries) (ok : Bool) :
    (∃ t, Run.exec processStep s (.opendir pid ok :: reads pid entries) = some t ∧
      t.Serving pid) ↔
        checkProcess pid (if ok then some (listing s entries) else none) = true := by
  have hopened : Run.exec processStep s (.opendir pid ok :: reads pid entries) =
      Run.exec processStep (s.goto pid (if ok then .checking false s.pids else .exited))
        (reads pid entries) := by
    simp [processStep, hmem, hstarted]
  rw [hopened]
  cases ok with
  | false =>
      rw [if_neg Bool.false_ne_true, exec_reads_exited (stage_goto_self _)]
      simp [checkProcess]
  | true =>
      have hchecking := serves_of_checking_iff (s := s.goto pid (.checking false s.pids)) hmem
        hproper (stage_goto_self _)
      rw [if_pos rfl, hchecking, listing_goto, and_iff_left hlisted, if_pos rfl, checkProcess]

end Alone

/-- A start that no other process disturbs passes `check_process` exactly if `/proc` can be
opened and none of the others has the name, in whatever order the directory lists them and
whatever it lists besides. -/
theorem serves_undisturbed_iff {s : ProcessTable} {pid : Nat} (hmem : pid ∈ s.pids)
    (hstarted : s.process pid = ⟨appName, .started⟩) {entries : List Listed}
    (hproper : ∀ x ∈ entries, x.Proper) (hlisted : ∀ j ∈ s.pids, .process j ∈ entries)
    (ok : Bool) :
    (∃ t, Run.exec processStep s (.opendir pid ok :: reads pid entries) = some t ∧
      t.Serving pid) ↔
        ok = true ∧ ∀ j ∈ s.pids, j ≠ pid → named (s.process j).comm = false := by
  rw [serves_of_started_iff hmem (by rw [hstarted]) hproper hlisted]
  cases ok with
  | false => simp [checkProcess]
  | true =>
      have hself : atoi (procEntry pid).name = (pid : Int) := atoi_toDigits pid
      rw [if_pos rfl, checkProcess, checkProcessLoop_iff]
      simp only [listing, List.forall_mem_map, true_and, Bool.false_eq_true, false_or]
      constructor
      · rintro ⟨hown, -⟩ j hj hne
        by_contra hnamed
        have hmatched : matched (Listed.entry s (.process j)) = true := by
          rw [Listed.entry, matched_of_mem hj]
          simpa using hnamed
        have hatoi := hown _ (hlisted j hj) hmatched
        rw [Listed.entry, procEntry, atoi_toDigits] at hatoi
        exact hne (Int.natCast_inj.mp hatoi)
      · intro hothers
        refine ⟨fun x hx hmatched => ?_, _, List.mem_map_of_mem (hlisted pid hmem), ?_⟩
        · cases x with
          | process j =>
              rw [Listed.entry] at hmatched
              by_cases hj : j ∈ s.pids
              · by_cases hne : j = pid
                · rw [hne, Listed.entry, hself]
                · rw [matched_of_mem hj, hothers j hj hne] at hmatched
                  cases hmatched
              · rw [matched_of_notMem hj] at hmatched
                cases hmatched
          | other pinfo status =>
              have hskips : skips pinfo = true := hproper _ hx
              simp [Listed.entry, matched, hskips] at hmatched
        · rw [Listed.entry, matched_of_mem hmem, hstarted, named_appName]

theorem serves_undisturbed_beside_init :
    let s : ProcessTable :=
      { pids := [1, 40], process := fun i => if i = 40 then ⟨appName, .started⟩
          else ⟨"init".toList, .other⟩ }
    ∃ t, Run.exec processStep s (.opendir 40 true :: reads 40
        [.other ⟨['.'], 4⟩ .closed, .other ⟨"acpi".toList, 4⟩ .closed, .process 1, .process 40,
          .other ⟨"uptime".toList, 8⟩ (.unread appName)]) = some t ∧
      t.Serving 40 :=
  (serves_undisturbed_iff (by decide) rfl (by decide) (by decide) true).mpr (by decide)

end MediaServer.Main
