import MediaServer.Foundation.Run
import MediaServer.Register.Reply
import Mathlib.Logic.Function.Basic
import Mathlib.Data.List.Nodup

/-!
# Registrations from two threads

The socket handler and the inotify thread both call `ms_register_file`. A call
takes these steps: the existence check, a critical section on `queue_mutex`
that consults and extends `reg_list`, one step for each plug-in of
`ms_insert_item`, the second existence check, and a critical section that takes
the path off `reg_list` and answers a waiting handler. The steps of the two
threads interleave in any order.

The existence check is made before the lock is taken. A path can therefore have
been registered completely between the check of a thread and its critical
section, and then `reg_list` does not know the path any more.
-/

namespace MediaServer.Register

/-- The two callers of `ms_register_file`. Only the handler passes a queue. -/
inductive Tid where
  | socket
  | inotify
deriving DecidableEq, Repr

inductive Pc where
  | idle
  /-- Entered with this path, the existence check is next. -/
  | checking (path : Text)
  /-- The path was missing, the first critical section is next. -/
  | entering (path : Text)
  /-- In `ms_insert_item`, at the plug-in with this index. -/
  | inserting (path : Text) (libIndex : Nat) (ret : Int)
  /-- The last critical section is next. -/
  | leaving (path : Text) (res : Int)
  /-- The handler waits on `ret_queue`. -/
  | waiting (path : Text)
deriving DecidableEq, Repr

/-- The shared variables. `inserted` lists the pairs whose insert call succeeded
in this run and is read by no step. -/
structure Shared where
  libNum : Nat
  pc : Tid → Pc
  held : List (Nat × Text)
  inserted : List (Nat × Text)
  regList : List Text
  socQueue : Bool
  retQueue : List Int

/-- What a plug-in does in `ms_insert_item`. -/
inductive InsertOutcome where
  | stored
  | failed
  | rejected
deriving DecidableEq, Repr

inductive Act where
  | call (path : Text)
  | check (fails : Bool)
  | enter
  | noMime
  | insert (outcome : InsertOutcome)
  /-- The insertion is over; after a failure the second check yields `res`. -/
  | recheck (res : Int)
  | leave
  | receive
deriving DecidableEq, Repr

abbrev Label := Tid × Act

namespace Shared

/-- Every plug-in holds an item for the path. -/
def AllHold (s : Shared) (path : Text) : Prop := ∀ i < s.libNum, (i, path) ∈ s.held

instance (s : Shared) (path : Text) : Decidable (s.AllHold path) :=
  inferInstanceAs (Decidable (∀ i < s.libNum, (i, path) ∈ s.held))

def goto (s : Shared) (t : Tid) (pc : Pc) : Shared := { s with pc := Function.update s.pc t pc }

/-- The first critical section. -/
def enter (s : Shared) (t : Tid) (path : Text) : Shared :=
  if path ∈ s.regList then
    match t with
    | .socket => { s.goto .socket (.waiting path) with socQueue := true }
    | .inotify => s.goto .inotify .idle
  else { s.goto t (.inserting path 0 msErrNone) with regList := s.regList ++ [path] }

/-- One iteration of the loop of `ms_insert_item`. -/
def insert (s : Shared) (t : Tid) (path : Text) (libIndex : Nat) (ret : Int) :
    InsertOutcome → Shared
  | .stored =>
      { s.goto t (.inserting path (libIndex + 1) ret) with
        held := (libIndex, path) :: s.held
        inserted := (libIndex, path) :: s.inserted }
  | .failed => s.goto t (.inserting path (libIndex + 1) msErrDbInsertRecordFail)
  | .rejected => s.goto t (.inserting path (libIndex + 1) ret)

/-- The last critical section. -/
def leave (s : Shared) (t : Tid) (path : Text) (res : Int) : Shared :=
  { s.goto t .idle with
    regList := s.regList.erase path
    retQueue := if s.socQueue then s.retQueue ++ [pushed res] else s.retQueue
    socQueue := false }

end Shared

/-- One step of a thread; `none` where its program counter does not allow it. -/
def registerStep (s : Shared) : Label → Option Shared
  | (t, act) =>
      match s.pc t, act with
      | .idle, .call path => some (s.goto t (.checking path))
      | .checking path, .check fails =>
          if s.AllHold path ∧ ¬ fails then some (s.goto t .idle)
          else some (s.goto t (.entering path))
      | .entering path, .enter => some (s.enter t path)
      | .inserting path libIndex ret, .noMime =>
          if libIndex = 0 ∧ ret = msErrNone then
            some (s.goto t (.inserting path s.libNum msErrMimeGetFail))
          else none
      | .inserting path libIndex ret, .insert outcome =>
          if libIndex < s.libNum then some (s.insert t path libIndex ret outcome) else none
      | .inserting path libIndex ret, .recheck res =>
          if libIndex < s.libNum then none
          else some (s.goto t (.leaving path (if ret = msErrNone then msErrNone else res)))
      | .leaving path res, .leave => some (s.leave t path res)
      | .waiting _, .receive =>
          match s.retQueue with
          | [] => none
          | _ :: rest => some { s.goto t .idle with retQueue := rest }
      | _, _ => none

/-- Everything a step can do, with the guards it has passed. -/
inductive Stepped (s : Shared) (t : Tid) : Act → Shared → Prop where
  | call (path : Text) : s.pc t = .idle → Stepped s t (.call path) (s.goto t (.checking path))
  | known (path : Text) (fails : Bool) : s.pc t = .checking path → s.AllHold path →
      Stepped s t (.check fails) (s.goto t .idle)
  | missing (path : Text) (fails : Bool) : s.pc t = .checking path →
      ¬ (s.AllHold path ∧ ¬ fails) → Stepped s t (.check fails) (s.goto t (.entering path))
  | enter (path : Text) : s.pc t = .entering path → Stepped s t .enter (s.enter t path)
  | noMime (path : Text) : s.pc t = .inserting path 0 msErrNone →
      Stepped s t .noMime (s.goto t (.inserting path s.libNum msErrMimeGetFail))
  | insert (path : Text) (k : Nat) (ret : Int) (outcome : InsertOutcome) :
      s.pc t = .inserting path k ret → k < s.libNum →
      Stepped s t (.insert outcome) (s.insert t path k ret outcome)
  | recheck (path : Text) (k : Nat) (ret res : Int) :
      s.pc t = .inserting path k ret → ¬ k < s.libNum →
      Stepped s t (.recheck res)
        (s.goto t (.leaving path (if ret = msErrNone then msErrNone else res)))
  | leave (path : Text) (res : Int) : s.pc t = .leaving path res →
      Stepped s t .leave (s.leave t path res)
  | receive (path : Text) (v : Int) (rest : List Int) : s.pc t = .waiting path →
      s.retQueue = v :: rest → Stepped s t .receive { s.goto t .idle with retQueue := rest }

theorem registerStep_cases {s s' : Shared} {t : Tid} {act : Act}
    (h : registerStep s (t, act) = some s') : Stepped s t act s' := by
  cases hpc : s.pc t <;> cases act <;> simp only [registerStep, hpc, reduceCtorEq] at h
  case idle.call path => exact Option.some.inj h ▸ .call path hpc
  case checking.check path fails =>
    split at h
    next hall => exact Option.some.inj h ▸ .known path fails hpc hall.1
    next hall => exact Option.some.inj h ▸ .missing path fails hpc hall
  case entering.enter path => exact Option.some.inj h ▸ .enter path hpc
  case inserting.noMime path k ret =>
    split at h
    next hfirst =>
      obtain ⟨rfl, rfl⟩ := hfirst
      exact Option.some.inj h ▸ .noMime path hpc
    next => cases h
  case inserting.insert path k ret outcome =>
    split at h
    next hk => exact Option.some.inj h ▸ .insert path k ret outcome hpc hk
    next => cases h
  case inserting.recheck path k ret res =>
    split at h
    next => cases h
    next hk => exact Option.some.inj h ▸ .recheck path k ret res hpc hk
  case leaving.leave path res => exact Option.some.inj h ▸ .leave path res hpc
  case waiting.receive path =>
    split at h
    next => cases h
    next v rest hq => exact Option.some.inj h ▸ .receive path v rest hpc hq

/-- A check that ends the call has not failed. -/
theorem not_fails_of_idle {s : Shared} {t : Tid} {path : Text} {fails : Bool}
    (hpc : s.pc t = .checking path)
    (h : registerStep s (t, .check fails) = some (s.goto t .idle)) : ¬ fails := by
  intro hfails
  simp only [registerStep, hpc, hfails, not_true, and_false, if_false] at h
  have hsame := congrFun (congrArg Shared.pc (Option.some.inj h)) t
  simp [Shared.goto] at hsame

/-- The item that a step stores. -/
def stored (s : Shared) : Label → Option (Nat × Text)
  | (t, .insert .stored) =>
      match s.pc t with
      | .inserting path libIndex _ => some (libIndex, path)
      | _ => none
  | _ => none

/-- A step changes the items only by storing one. -/
theorem registerStep_held {s s' : Shared} {l : Label} (h : registerStep s l = some s') :
    s'.held = (stored s l).toList ++ s.held ∧ s'.libNum = s.libNum := by
  obtain ⟨t, act⟩ := l
  cases registerStep_cases h with
  | enter path =>
      rw [Shared.enter.eq_def]
      split
      · cases t <;> exact ⟨rfl, rfl⟩
      · exact ⟨rfl, rfl⟩
  | insert path k ret outcome hpc =>
      cases outcome with
      | stored =>
          rw [stored, hpc]
          exact ⟨rfl, rfl⟩
      | failed | rejected => exact ⟨rfl, rfl⟩
  | _ => exact ⟨rfl, rfl⟩

/-- No thread inside `ms_register_file`, any items in the plug-ins. -/
def Shared.start (libNum : Nat) (held : List (Nat × Text)) : Shared :=
  { libNum, pc := fun _ => .idle, held, inserted := [], regList := [], socQueue := false,
    retQueue := [] }

/-- Every plug-in accepts every file and no call fails. -/
def NoFailure (_ : Shared) : Label → Prop
  | (_, .check fails) => ¬ fails
  | (_, .noMime) => False
  | (_, .insert outcome) => outcome = .stored
  | _ => True

instance : ∀ s l, Decidable (NoFailure s l)
  | _, (_, .check fails) => inferInstanceAs (Decidable (¬ fails))
  | _, (_, .noMime) => isFalse id
  | _, (_, .insert outcome) => inferInstanceAs (Decidable (outcome = .stored))
  | _, (_, .call _) | _, (_, .enter) | _, (_, .recheck _) | _, (_, .leave)
  | _, (_, .receive) => isTrue trivial

/-- A path that is about to be put on `reg_list` is missing from some plug-in. -/
def StillMissing (s : Shared) : Pc → Prop
  | .entering path => path ∉ s.regList → ¬ s.AllHold path
  | _ => True

instance (s : Shared) : DecidablePred (StillMissing s)
  | .entering path => inferInstanceAs (Decidable (path ∉ s.regList → ¬ s.AllHold path))
  | .idle | .checking _ | .inserting .. | .leaving .. | .waiting _ => isTrue trivial

/-- The first critical section takes on a path only while some plug-in still
lacks it, as a second look under the lock would ensure. -/
def EntersMissing (s : Shared) : Label → Prop
  | (t, .enter) => StillMissing s (s.pc t)
  | _ => True

instance : ∀ s l, Decidable (EntersMissing s l)
  | s, (t, .enter) => inferInstanceAs (Decidable (StillMissing s (s.pc t)))
  | _, (_, .call _) | _, (_, .check _) | _, (_, .noMime) | _, (_, .insert _)
  | _, (_, .recheck _) | _, (_, .leave) | _, (_, .receive) => isTrue trivial

/-- No insert call repeats an insertion of the run. -/
def InsertsOnce (s : Shared) : Prop := s.inserted.Nodup

instance : DecidablePred InsertsOnce := fun s => inferInstanceAs (Decidable s.inserted.Nodup)

/-- A thread between the two critical sections. -/
def Pc.registering : Pc → Option Text
  | .inserting path _ _ => some path
  | .leaving path _ => some path
  | _ => none

/-- How far a registration in progress has come: the plug-ins below its index
hold the path and the run has inserted it into no other. -/
def Progress (s : Shared) : Pc → Prop
  | .inserting path k ret =>
      ret = msErrNone ∧ k ≤ s.libNum ∧ (∀ j < k, (j, path) ∈ s.held) ∧
        ∀ j, (j, path) ∈ s.inserted → j < k
  | .leaving path _ => s.AllHold path
  | _ => True

structure RegisterInv (s : Shared) : Prop where
  once : s.inserted.Nodup
  listed : ∀ t path, (s.pc t).registering = some path → path ∈ s.regList
  exclusive : ∀ t u path, (s.pc t).registering = some path →
    (s.pc u).registering = some path → t = u
  progress : ∀ t, Progress s (s.pc t)
  complete : ∀ k path, (k, path) ∈ s.inserted →
    s.AllHold path ∨ ∃ t j ret, s.pc t = .inserting path j ret

namespace Shared

variable {s : Shared} {t : Tid} {pc : Pc}

@[simp] theorem goto_pc_self : (s.goto t pc).pc t = pc := Function.update_self ..

theorem goto_pc (u : Tid) : (s.goto t pc).pc u = if u = t then pc else s.pc u :=
  Function.update_apply ..

/-- A thread that goes on with its path registers what it registered. -/
theorem registering_goto (same : pc.registering = (s.pc t).registering) (u : Tid) :
    ((s.goto t pc).pc u).registering = (s.pc u).registering := by
  rw [goto_pc]
  split
  next hut => rw [same, hut]
  next => rfl

end Shared

/-- A step moves one thread only. -/
theorem pc_of_ne {s s' : Shared} {t u : Tid} {act : Act} (hstep : Stepped s t act s')
    (hne : u ≠ t) : s'.pc u = s.pc u := by
  cases hstep with
  | enter path =>
      rw [Shared.enter.eq_def]
      split <;> [cases t; skip] <;> simp [Shared.goto_pc, hne]
  | insert path k ret outcome => cases outcome <;> simp [Shared.insert, Shared.goto_pc, hne]
  | _ => simp [Shared.leave, Shared.goto_pc, hne]

section Preservation

variable {s s' : Shared} {t : Tid}

/-- Only a thread between the critical sections is constrained by the invariant. -/
theorem progress_of_not_registering {pc : Pc} (h : pc.registering = none) : Progress s pc := by
  cases pc with
  | inserting | leaving => exact nomatch h
  | _ => trivial

/-- Steps outside the critical sections leave the invariant alone. -/
theorem RegisterInv.goto_quiet (h : RegisterInv s) {pc : Pc}
    (before : (s.pc t).registering = none) (after : pc.registering = none) :
    RegisterInv (s.goto t pc) where
  once := h.once
  listed u path hu := by
    by_cases hut : u = t
    · subst hut
      simp [after] at hu
    · exact h.listed u path (by simpa [Shared.goto_pc, hut] using hu)
  exclusive u v path hu hv := by
    by_cases hut : u = t
    · subst hut
      simp [after] at hu
    · by_cases hvt : v = t
      · subst hvt
        simp [after] at hv
      · simp only [Shared.goto_pc, hut, hvt, if_false] at hu hv
        exact h.exclusive u v path hu hv
  progress u := by
    rw [Shared.goto_pc]
    split
    · exact progress_of_not_registering after
    · exact h.progress u
  complete k path hmem := by
    refine (h.complete k path hmem).imp id ?_
    rintro ⟨u, j, ret, hu⟩
    refine ⟨u, j, ret, ?_⟩
    rw [Shared.goto_pc, if_neg, hu]
    rintro rfl
    rw [hu] at before
    cases before

/-- Entering with a path that no thread registers and some plug-in lacks: the
run has inserted it nowhere. -/
theorem RegisterInv.enter (h : RegisterInv s) {path : Text}
    (hpc : s.pc t = .entering path) (missing : path ∉ s.regList → ¬ s.AllHold path) :
    RegisterInv (s.enter t path) := by
  have quiet : (s.pc t).registering = none := by rw [hpc]; rfl
  by_cases hlisted : path ∈ s.regList
  · rw [Shared.enter.eq_def, if_pos hlisted]
    cases t with
    | socket =>
        have hq : RegisterInv (s.goto .socket (.waiting path)) := h.goto_quiet quiet rfl
        exact ⟨hq.once, hq.listed, hq.exclusive, hq.progress, hq.complete⟩
    | inotify => exact h.goto_quiet quiet rfl
  · rw [Shared.enter.eq_def, if_neg hlisted]
    have nobody : ∀ u, (s.pc u).registering ≠ some path :=
      fun u hu => hlisted (h.listed u path hu)
    have fresh : ∀ j, (j, path) ∉ s.inserted := by
      intro j hj
      rcases h.complete j path hj with hall | ⟨u, i, ret, hu⟩
      · exact missing hlisted hall
      · exact nobody u (by rw [hu]; rfl)
    constructor
    · exact h.once
    · intro u q hu
      by_cases hut : u = t
      · subst hut
        simp_all [Pc.registering]
      · simp only [Shared.goto_pc, hut, if_false] at hu
        exact List.mem_append_left _ (h.listed u q hu)
    · intro u v q hu hv
      by_cases hut : u = t <;> by_cases hvt : v = t
      · rw [hut, hvt]
      · simp only [Shared.goto_pc, hut, hvt, if_true, if_false] at hu hv
        exact absurd (Option.some.inj hu ▸ hv) (nobody v)
      · simp only [Shared.goto_pc, hut, hvt, if_true, if_false] at hu hv
        exact absurd (Option.some.inj hv ▸ hu) (nobody u)
      · simp only [Shared.goto_pc, hut, hvt, if_false] at hu hv
        exact h.exclusive u v q hu hv
    · intro u
      by_cases hut : u = t
      · simp only [Shared.goto_pc, hut, if_true]
        exact ⟨rfl, Nat.zero_le _, fun j hj => absurd hj (Nat.not_lt_zero j),
          fun j hj => absurd hj (fresh j)⟩
      · simp only [Shared.goto_pc, hut, if_false]
        exact h.progress u
    · intro k q hk
      refine (h.complete k q hk).imp id ?_
      rintro ⟨u, j, ret, hu⟩
      refine ⟨u, j, ret, ?_⟩
      rw [Shared.goto_pc, if_neg, hu]
      rintro rfl
      rw [hpc] at hu
      cases hu

/-- An insertion does not concern a thread that registers another path. -/
theorem Progress.insert {path : Text} {k : Nat} {ret : Int} {pc : Pc} (h : Progress s pc)
    (other : pc.registering ≠ some path) : Progress (s.insert t path k ret .stored) pc := by
  cases pc with
  | inserting q i r =>
      obtain ⟨hr, hi, hheld, hbelow⟩ := h
      refine ⟨hr, hi, fun j hj => List.mem_cons_of_mem _ (hheld j hj), fun j hj => ?_⟩
      cases List.mem_cons.mp hj with
      | inl heq => exact absurd (congrArg some (Prod.mk.inj heq).2) other
      | inr hj => exact hbelow j hj
  | leaving q r => exact fun i hi => List.mem_cons_of_mem _ (h i hi)
  | _ => trivial

/-- A successful plug-in call: nobody else registers the path, and the index has
not been reached before. -/
theorem RegisterInv.insert (h : RegisterInv s) {path : Text} {k : Nat} {ret : Int}
    (hpc : s.pc t = .inserting path k ret) (hk : k < s.libNum) :
    RegisterInv (s.insert t path k ret .stored) := by
  have hprogress : Progress s (.inserting path k ret) := hpc ▸ h.progress t
  obtain ⟨hret, -, hheld, hbelow⟩ := hprogress
  have hself : (s.pc t).registering = some path := by rw [hpc]; rfl
  have same : ∀ u, ((s.goto t (.inserting path (k + 1) ret)).pc u).registering =
      (s.pc u).registering := Shared.registering_goto hself.symm
  constructor
  · exact List.nodup_cons.mpr ⟨fun hmem => Nat.lt_irrefl k (hbelow k hmem), h.once⟩
  · exact fun u q hu => h.listed u q ((same u).symm.trans hu)
  · exact fun u v q hu hv => h.exclusive u v q ((same u).symm.trans hu) ((same v).symm.trans hv)
  · intro u
    by_cases hut : u = t
    · simp only [Shared.insert, Shared.goto_pc, hut, if_true]
      refine ⟨hret, hk, fun j hj => ?_, fun j hj => ?_⟩
      · rcases Nat.lt_succ_iff_lt_or_eq.mp hj with hlt | rfl
        · exact List.mem_cons_of_mem _ (hheld j hlt)
        · exact List.mem_cons_self
      · cases List.mem_cons.mp hj with
        | inl heq =>
            obtain ⟨rfl, -⟩ := Prod.mk.inj heq
            exact Nat.lt_succ_self _
        | inr hj => exact Nat.lt_succ_of_lt (hbelow j hj)
    · have hprogress : Progress (s.insert t path k ret .stored) (s.pc u) :=
        (h.progress u).insert fun hu => hut (h.exclusive u t path hu hself)
      simpa only [Shared.insert, Shared.goto_pc, hut, if_false] using hprogress
  · intro j q hj
    cases List.mem_cons.mp hj with
    | inl heq =>
        obtain ⟨rfl, rfl⟩ := Prod.mk.inj heq
        exact .inr ⟨t, j + 1, ret, Shared.goto_pc_self⟩
    | inr hj =>
        rcases h.complete j q hj with hall | ⟨u, i, r, hu⟩
        · exact .inl fun i hi => List.mem_cons_of_mem _ (hall i hi)
        · by_cases hut : u = t
          · rw [hut, hpc] at hu
            obtain ⟨rfl, rfl, rfl⟩ := Pc.inserting.inj hu
            exact .inr ⟨t, k + 1, ret, Shared.goto_pc_self⟩
          · refine .inr ⟨u, i, r, ?_⟩
            simp only [Shared.insert, Shared.goto_pc, hut, if_false, hu]

/-- After the last plug-in every one of them holds the path. -/
theorem RegisterInv.finish (h : RegisterInv s) {path : Text} {k : Nat} {ret res : Int}
    (hpc : s.pc t = .inserting path k ret) (hk : ¬ k < s.libNum) :
    RegisterInv (s.goto t (.leaving path res)) := by
  have hprogress : Progress s (.inserting path k ret) := hpc ▸ h.progress t
  obtain ⟨-, hle, hheld, -⟩ := hprogress
  have hall : s.AllHold path := fun i hi => hheld i (Nat.lt_of_lt_of_le hi (Nat.le_of_not_lt hk))
  have hself : (s.pc t).registering = some path := by rw [hpc]; rfl
  have same : ∀ u, ((s.goto t (.leaving path res)).pc u).registering =
      (s.pc u).registering := Shared.registering_goto hself.symm
  constructor
  · exact h.once
  · exact fun u q hu => h.listed u q ((same u).symm.trans hu)
  · exact fun u v q hu hv => h.exclusive u v q ((same u).symm.trans hu) ((same v).symm.trans hv)
  · intro u
    rw [Shared.goto_pc]
    split
    · exact hall
    · exact h.progress u
  · intro j q hj
    rcases h.complete j q hj with hq | ⟨u, i, r, hu⟩
    · exact .inl hq
    · by_cases hut : u = t
      · rw [hut, hpc] at hu
        obtain ⟨rfl, rfl, rfl⟩ := Pc.inserting.inj hu
        exact .inl hall
      · exact .inr ⟨u, i, r, by rw [Shared.goto_pc, if_neg hut, hu]⟩

/-- The path of the other thread stays listed, because it is a different one. -/
theorem RegisterInv.leave (h : RegisterInv s) {path : Text} {res : Int}
    (hpc : s.pc t = .leaving path res) : RegisterInv (s.leave t path res) := by
  have hself : (s.pc t).registering = some path := by rw [hpc]; rfl
  constructor
  · exact h.once
  · intro u q hu
    by_cases hut : u = t
    · simp [Shared.leave, hut, Pc.registering] at hu
    · simp only [Shared.leave, Shared.goto_pc, hut, if_false] at hu
      have hne : q ≠ path := by
        rintro rfl
        exact hut (h.exclusive u t q hu hself)
      exact (List.mem_erase_of_ne hne).mpr (h.listed u q hu)
  · intro u v q hu hv
    by_cases hut : u = t
    · simp [Shared.leave, hut, Pc.registering] at hu
    · by_cases hvt : v = t
      · simp [Shared.leave, hvt, Pc.registering] at hv
      · simp only [Shared.leave, Shared.goto_pc, hut, hvt, if_false] at hu hv
        exact h.exclusive u v q hu hv
  · intro u
    by_cases hut : u = t
    · simp only [Shared.leave, Shared.goto_pc, hut, if_true]
      trivial
    · simp only [Shared.leave, Shared.goto_pc, hut, if_false]
      exact h.progress u
  · intro j q hj
    refine (h.complete j q hj).imp id ?_
    rintro ⟨u, i, r, hu⟩
    refine ⟨u, i, r, ?_⟩
    have hut : u ≠ t := by
      rintro rfl
      rw [hpc] at hu
      cases hu
    simp only [Shared.leave, Shared.goto_pc, hut, if_false, hu]

end Preservation

/-- One step of either thread keeps the invariant. -/
theorem registerStep_inv {s s' : Shared} {l : Label} (h : RegisterInv s) (ok : NoFailure s l)
    (good : EntersMissing s l) (hstep : registerStep s l = some s') : RegisterInv s' := by
  obtain ⟨t, act⟩ := l
  cases registerStep_cases hstep with
  | call path hpc => exact h.goto_quiet (by rw [hpc]; rfl) rfl
  | known path fails hpc => exact h.goto_quiet (by rw [hpc]; rfl) rfl
  | missing path fails hpc => exact h.goto_quiet (by rw [hpc]; rfl) rfl
  | enter path hpc =>
      have missing : StillMissing s (.entering path) := hpc ▸ good
      exact h.enter hpc missing
  | noMime => exact ok.elim
  | insert path k ret outcome hpc hk =>
      obtain rfl : outcome = .stored := ok
      exact h.insert hpc hk
  | recheck path k ret res hpc hk => exact h.finish hpc hk
  | leave path res hpc => exact h.leave hpc
  | receive path v rest hpc =>
      have hq : RegisterInv (s.goto t .idle) := h.goto_quiet (by rw [hpc]; rfl) rfl
      exact ⟨hq.once, hq.listed, hq.exclusive, hq.progress, hq.complete⟩

theorem registerInv_start (libNum : Nat) (held : List (Nat × Text)) :
    RegisterInv (Shared.start libNum held) where
  once := List.nodup_nil
  listed _ _ h := nomatch h
  exclusive _ _ _ h := nomatch h
  progress _ := trivial
  complete _ _ h := nomatch h

theorem registerInv_always (libNum : Nat) (held : List (Nat × Text)) (labels : List Label)
    (ok : Run.EachStep registerStep NoFailure (Shared.start libNum held) labels)
    (good : Run.EachStep registerStep EntersMissing (Shared.start libNum held) labels) :
    Run.Always registerStep RegisterInv (Shared.start libNum held) labels :=
  Run.always_of_eachStep (G := fun s l => NoFailure s l ∧ EntersMissing s l)
    (fun _ _ _ h hg hstep => registerStep_inv h hg.1 hg.2 hstep)
    (registerInv_start libNum held) (ok.and good)

/-- In every interleaving without failing calls whose first critical sections
meet `EntersMissing`, no insert call is repeated. -/
theorem registration_insertsOnce (libNum : Nat) (held : List (Nat × Text)) (labels : List Label)
    (ok : Run.EachStep registerStep NoFailure (Shared.start libNum held) labels)
    (good : Run.EachStep registerStep EntersMissing (Shared.start libNum held) labels) :
    Run.Always registerStep InsertsOnce (Shared.start libNum held) labels :=
  (registerInv_always libNum held labels ok good).mono fun _ h => h.once

/-- A caller that looks after the other one has finished finds the item. -/
theorem registration_insertsOnce_sequential :
    Run.Always registerStep InsertsOnce (Shared.start 1 [])
      [(.socket, .call "a".toList), (.socket, .check false), (.socket, .enter),
        (.socket, .insert .stored), (.socket, .recheck 0), (.socket, .leave),
        (.inotify, .call "a".toList), (.inotify, .check false)] :=
  registration_insertsOnce 1 [] _ (by decide) (by decide)

/-- Both callers miss one file, and the second one reaches its critical section
after the first one has finished with it. -/
def missedTwice : List Label :=
  [(.socket, .call "a".toList), (.inotify, .call "a".toList), (.socket, .check false),
    (.inotify, .check false), (.socket, .enter), (.socket, .insert .stored),
    (.socket, .recheck 0), (.socket, .leave), (.inotify, .enter), (.inotify, .insert .stored)]

theorem registration_insertsTwice :
    Run.EachStep registerStep NoFailure (Shared.start 1 []) missedTwice ∧
      ¬ Run.Always registerStep InsertsOnce (Shared.start 1 []) missedTwice := by
  decide

/-! ### The condition is necessary

A thread that takes on a path that every plug-in holds found it missing before. Another
registration has then inserted it in the meantime, into the first plug-in first, and the
thread's own first insert call repeats that. -/

/-- Whoever has inserted a path anywhere has begun with the first plug-in, and a path that
was found missing has come in by insertions of the run. -/
structure BegunInv (s : Shared) : Prop where
  below : ∀ k path, (k, path) ∈ s.inserted → k < s.libNum
  begun : ∀ t path k ret, s.pc t = .inserting path k ret → 0 < k → (0, path) ∈ s.inserted
  missed : ∀ t path, s.pc t = .entering path → s.AllHold path → (0, path) ∈ s.inserted

/-- An insertion has been repeated, or is about to be. -/
def Repeats (s : Shared) : Prop :=
  InsertsOnce s → ∃ t path ret, s.pc t = .inserting path 0 ret ∧ (0, path) ∈ s.inserted

section Necessary

variable {s s' : Shared} {t : Tid} {l : Label}

theorem registerStep_inserted (h : registerStep s l = some s') :
    s'.inserted = (stored s l).toList ++ s.inserted := by
  obtain ⟨t, act⟩ := l
  cases registerStep_cases h with
  | enter path =>
      rw [Shared.enter.eq_def]
      split
      · cases t <;> rfl
      · rfl
  | insert path k ret outcome hpc =>
      cases outcome with
      | stored =>
          rw [stored, hpc]
          rfl
      | failed | rejected => rfl
  | _ => rfl

theorem BegunInv.goto (h : BegunInv s) {pc : Pc}
    (hbegun : ∀ path k ret, pc = .inserting path k ret → 0 < k → (0, path) ∈ s.inserted)
    (hmissed : ∀ path, pc = .entering path → s.AllHold path → (0, path) ∈ s.inserted) :
    BegunInv (s.goto t pc) where
  below := h.below
  begun u path k ret hu := by
    rw [Shared.goto_pc] at hu
    split at hu
    · exact hbegun path k ret hu
    · exact h.begun u path k ret hu
  missed u path hu := by
    rw [Shared.goto_pc] at hu
    split at hu
    · exact hmissed path hu
    · exact h.missed u path hu

/-- A step to a place that the invariant says nothing about. -/
theorem BegunInv.goto_quiet (h : BegunInv s) {pc : Pc}
    (hinserting : ∀ path k ret, 0 < k → pc ≠ .inserting path k ret)
    (hentering : ∀ path, pc ≠ .entering path) : BegunInv (s.goto t pc) :=
  h.goto (fun path k ret hpc hk => absurd hpc (hinserting path k ret hk))
    fun path hpc => absurd hpc (hentering path)

theorem BegunInv.enter (h : BegunInv s) (path : Text) : BegunInv (s.enter t path) := by
  rw [Shared.enter.eq_def]
  split
  · cases t with
    | socket =>
        have hq : BegunInv (s.goto .socket (.waiting path)) :=
          h.goto_quiet (fun _ _ _ _ h => nomatch h) fun _ h => nomatch h
        exact ⟨hq.below, hq.begun, hq.missed⟩
    | inotify => exact h.goto_quiet (fun _ _ _ _ h => nomatch h) fun _ h => nomatch h
  · have hq : BegunInv (s.goto t (.inserting path 0 msErrNone)) := by
      refine h.goto_quiet (fun _ k _ hk heq => ?_) fun _ h => nomatch h
      obtain ⟨-, rfl, -⟩ := Pc.inserting.inj heq
      exact Nat.lt_irrefl 0 hk
    exact ⟨hq.below, hq.begun, hq.missed⟩

theorem BegunInv.insert (h : BegunInv s) {path : Text} {k : Nat} {ret : Int}
    (hpc : s.pc t = .inserting path k ret) (hk : k < s.libNum) :
    BegunInv (s.insert t path k ret .stored) := by
  have hfirst : (0, path) ∈ (s.insert t path k ret .stored).inserted := by
    cases k with
    | zero => exact List.mem_cons_self
    | succ k => exact List.mem_cons_of_mem _ (h.begun t path _ ret hpc (Nat.succ_pos k))
  constructor
  · intro j q hj
    cases List.mem_cons.mp hj with
    | inl heq => exact (Prod.mk.inj heq).1 ▸ hk
    | inr hj => exact h.below j q hj
  · intro u q j r hu hj
    by_cases hut : u = t
    · simp only [Shared.insert, Shared.goto_pc, hut, if_true] at hu
      obtain ⟨rfl, -, -⟩ := Pc.inserting.inj hu
      exact hfirst
    · simp only [Shared.insert, Shared.goto_pc, hut, if_false] at hu
      exact List.mem_cons_of_mem _ (h.begun u q j r hu hj)
  · intro u q hu hall
    by_cases hq : q = path
    · exact hq ▸ hfirst
    · by_cases hut : u = t
      · simp only [Shared.insert, Shared.goto_pc, hut, if_true] at hu
        cases hu
      · simp only [Shared.insert, Shared.goto_pc, hut, if_false] at hu
        refine List.mem_cons_of_mem _ (h.missed u q hu fun i hi => ?_)
        cases List.mem_cons.mp (hall i hi) with
        | inl heq => exact absurd (Prod.mk.inj heq).2 hq
        | inr hmem => exact hmem

theorem BegunInv.step (h : BegunInv s) (ok : NoFailure s l) (hstep : registerStep s l = some s') :
    BegunInv s' := by
  obtain ⟨t, act⟩ := l
  cases registerStep_cases hstep with
  | call path => exact h.goto_quiet (fun _ _ _ _ h => nomatch h) fun _ h => nomatch h
  | known path => exact h.goto_quiet (fun _ _ _ _ h => nomatch h) fun _ h => nomatch h
  | missing path fails hpc hmissing =>
      refine h.goto (fun _ _ _ h => nomatch h) fun q hq hall => ?_
      obtain rfl := Pc.entering.inj hq
      exact absurd ⟨hall, ok⟩ hmissing
  | enter path => exact h.enter path
  | noMime => exact ok.elim
  | insert path k ret outcome hpc hk =>
      obtain rfl : outcome = .stored := ok
      exact h.insert hpc hk
  | recheck path => exact h.goto_quiet (fun _ _ _ _ h => nomatch h) fun _ h => nomatch h
  | leave path res =>
      have hq : BegunInv (s.goto t .idle) :=
        h.goto_quiet (fun _ _ _ _ h => nomatch h) fun _ h => nomatch h
      exact ⟨hq.below, hq.begun, hq.missed⟩
  | receive path =>
      have hq : BegunInv (s.goto t .idle) :=
        h.goto_quiet (fun _ _ _ _ h => nomatch h) fun _ h => nomatch h
      exact ⟨hq.below, hq.begun, hq.missed⟩

/-- The thread that is about to repeat an insertion can do nothing else. -/
theorem Repeats.step (h : Repeats s) (inv : BegunInv s) (ok : NoFailure s l)
    (hstep : registerStep s l = some s') : Repeats s' := by
  intro honce
  have hinserted := registerStep_inserted hstep
  rw [InsertsOnce, hinserted] at honce
  obtain ⟨u, path, ret, hpc, hmem⟩ := h (List.Nodup.of_append_right honce)
  have hmem' : (0, path) ∈ s'.inserted := hinserted ▸ List.mem_append_right _ hmem
  obtain ⟨t, act⟩ := l
  have hmoves := registerStep_cases hstep
  by_cases hut : u = t
  · subst hut
    cases hmoves with
    | noMime => exact ok.elim
    | insert q k r outcome hq =>
        obtain rfl : outcome = .stored := ok
        rw [hpc] at hq
        obtain ⟨rfl, rfl, rfl⟩ := Pc.inserting.inj hq
        rw [stored, hpc] at honce
        exact absurd hmem (List.nodup_cons.mp honce).1
    | recheck q k r res hq hk =>
        rw [hpc] at hq
        obtain ⟨rfl, rfl, rfl⟩ := Pc.inserting.inj hq
        exact absurd (inv.below 0 path hmem) hk
    | _ => simp_all
  · exact ⟨u, path, ret, (pc_of_ne hmoves hut).trans hpc, hmem'⟩

/-- Taking on a path that every plug-in holds leads there. -/
theorem repeats_of_enters (inv : BegunInv s) (hbad : ¬ EntersMissing s l)
    (hstep : registerStep s l = some s') : Repeats s' := by
  obtain ⟨t, act⟩ := l
  cases registerStep_cases hstep with
  | enter path hpc =>
      have hheld : ¬ (path ∉ s.regList → ¬ s.AllHold path) := by
        intro hmissing
        refine hbad ?_
        rw [EntersMissing, hpc]
        exact hmissing
      obtain ⟨hlisted, hall⟩ := Classical.not_imp.mp hheld
      rw [Shared.enter.eq_def, if_neg hlisted]
      exact fun _ =>
        ⟨t, path, _, Shared.goto_pc_self, inv.missed t path hpc (not_not.mp hall)⟩
  | _ => exact absurd trivial hbad

end Necessary

theorem begunInv_start (libNum : Nat) (held : List (Nat × Text)) :
    BegunInv (Shared.start libNum held) where
  below _ _ h := nomatch h
  begun _ _ _ _ h := nomatch h
  missed _ _ h := nomatch h

/-- For a run that goes through and leaves no thread before its first insert call, the
condition is exact. -/
theorem insertsOnce_iff_entersMissing (libNum : Nat) (held : List (Nat × Text))
    {labels : List Label} {s : Shared}
    (hrun : Run.exec registerStep (Shared.start libNum held) labels = some s)
    (ok : Run.EachStep registerStep NoFailure (Shared.start libNum held) labels)
    (hbegun : ∀ t path ret, s.pc t ≠ .inserting path 0 ret) :
    InsertsOnce s ↔ Run.EachStep registerStep EntersMissing (Shared.start libNum held) labels := by
  constructor
  · intro honce
    refine (Run.eachStep_of_exec (D := Repeats) (fun _ _ _ h ok hstep => h.step ok hstep)
      (fun _ _ _ inv ok h hstep => h.step inv ok hstep)
      (fun _ _ _ inv _ hbad hstep => repeats_of_enters inv hbad hstep)
      (begunInv_start libNum held) ok hrun ?_).1
    intro hrepeats
    obtain ⟨t, path, ret, hpc, -⟩ := hrepeats honce
    exact hbegun t path ret hpc
  · exact fun good => ((registerInv_always libNum held labels ok good).of_exec hrun).once

end MediaServer.Register
