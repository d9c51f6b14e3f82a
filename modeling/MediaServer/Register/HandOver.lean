import MediaServer.Register.Threads

/-!
# Handing a result over to the waiting handler

When the handler finds its path on `reg_list`, the inotify thread is registering
it. The handler leaves its queue in `soc_queue` and waits; the last critical
section of the inotify thread pushes its result there. The list, the pointer and
the queue fit together in every interleaving, whatever the plug-in calls return.
-/

namespace MediaServer.Register

/-- The threads, with the registrations that the inotify thread has completed since
the handler last took `queue_mutex`, the earliest first. No step reads them. -/
structure Observed where
  shared : Shared
  completed : List (Text × Int) := []

/-- The registration that a step of the inotify thread completes. -/
def completes (s : Shared) : Label → List (Text × Int)
  | (.inotify, .leave) =>
      match s.pc .inotify with
      | .leaving path res => [(path, res)]
      | _ => []
  | _ => []

def observedStep (s : Observed) (l : Label) : Option Observed :=
  (registerStep s.shared l).map fun shared =>
    { shared
      completed := if l = (.socket, .enter) then [] else s.completed ++ completes s.shared l }

/-- What holds outside the critical sections. A popped value is read by
`ms_read_socket` as `popped v`. -/
structure HandOver (s : Observed) : Prop where
  listedOnce : s.shared.regList.Nodup
  listed : ∀ path, path ∈ s.shared.regList ↔ ∃ t, (s.shared.pc t).registering = some path
  exclusive : ∀ t u path, (s.shared.pc t).registering = some path →
    (s.shared.pc u).registering = some path → t = u
  waiting : ∀ path, s.shared.pc .socket = .waiting path →
    ((s.shared.pc .inotify).registering = some path ∧ s.shared.socQueue = true ∧
      s.shared.retQueue = [] ∧ s.completed = []) ∨
    ∃ v rest, s.shared.retQueue = [v] ∧ s.shared.socQueue = false ∧
      s.completed = (path, popped v) :: rest
  notWaiting : (∀ path, s.shared.pc .socket ≠ .waiting path) →
    s.shared.retQueue = [] ∧ s.shared.socQueue = false
  handlerOnly : ∀ path, s.shared.pc .inotify ≠ .waiting path

section Preservation

variable {s : Observed} {t : Tid} {path : Text}

/-- A thread goes on, neither with another path nor into or out of a wait. -/
theorem HandOver.goto (h : HandOver s) (pc : Pc)
    (same : pc.registering = (s.shared.pc t).registering)
    (before : ∀ path, s.shared.pc t ≠ .waiting path) (after : ∀ path, pc ≠ .waiting path) :
    HandOver { s with shared := s.shared.goto t pc } := by
  have registering := Shared.registering_goto same
  have waits : ∀ u path, (s.shared.goto t pc).pc u = .waiting path ↔
      s.shared.pc u = .waiting path := by
    intro u path
    rw [Shared.goto_pc]
    split
    next hut => exact iff_of_false (after path) (hut ▸ before path)
    next => rfl
  constructor
  · exact h.listedOnce
  · intro path
    simp only [registering]
    exact h.listed path
  · intro u v path hu hv
    exact h.exclusive u v path (registering u ▸ hu) (registering v ▸ hv)
  · intro path hpath
    simp only [registering]
    exact h.waiting path ((waits .socket path).mp hpath)
  · intro hnone
    exact h.notWaiting fun path hpath => hnone path ((waits .socket path).mpr hpath)
  · exact fun path hpath => h.handlerOnly path ((waits .inotify path).mp hpath)

/-- A thread that is about to take the mutex registers nothing and does not wait. -/
theorem quiet_of_entering (hpc : s.shared.pc t = .entering path) :
    (s.shared.pc t).registering = none ∧ ∀ q, s.shared.pc t ≠ .waiting q := by
  rw [hpc]
  exact ⟨rfl, nofun⟩

/-- The path is on the list, so the other thread is registering it: the handler
begins to wait for it. -/
theorem HandOver.wait (h : HandOver s) (hpc : s.shared.pc .socket = .entering path)
    (hlisted : path ∈ s.shared.regList) :
    HandOver
      { shared := { s.shared.goto .socket (.waiting path) with socQueue := true }
        completed := [] } := by
  obtain ⟨hnone, hwait⟩ := quiet_of_entering hpc
  have registering : ∀ u, ((s.shared.goto .socket (.waiting path)).pc u).registering =
      (s.shared.pc u).registering := Shared.registering_goto hnone.symm
  obtain ⟨hqueue, -⟩ := h.notWaiting hwait
  constructor
  · exact h.listedOnce
  · intro q
    simp only [registering]
    exact h.listed q
  · intro u v q hu hv
    exact h.exclusive u v q (registering u ▸ hu) (registering v ▸ hv)
  · intro q hq
    obtain rfl : path = q := by simpa [Shared.goto_pc] using hq
    obtain ⟨u, hu⟩ := (h.listed path).mp hlisted
    cases u with
    | socket =>
        rw [hnone] at hu
        cases hu
    | inotify => exact .inl ⟨(registering .inotify).trans hu, rfl, hqueue, rfl⟩
  · exact fun hq => absurd (by simp) (hq path)
  · intro q hq
    exact h.handlerOnly q (by simpa [Shared.goto_pc] using hq)

/-- A path that nobody registers goes on the list. -/
theorem HandOver.insert (h : HandOver s) (hpc : s.shared.pc t = .entering path)
    (hlisted : path ∉ s.shared.regList) :
    HandOver
      { s with
        shared :=
          { s.shared.goto t (.inserting path 0 msErrNone) with
            regList := s.shared.regList ++ [path] } } := by
  obtain ⟨hnone, hwait⟩ := quiet_of_entering hpc
  have nobody : ∀ u, (s.shared.pc u).registering ≠ some path :=
    fun u hu => hlisted ((h.listed path).mpr ⟨u, hu⟩)
  have registering : ∀ u q,
      ((s.shared.goto t (.inserting path 0 msErrNone)).pc u).registering = some q ↔
        (u = t ∧ q = path) ∨ (s.shared.pc u).registering = some q := by
    intro u q
    rw [Shared.goto_pc]
    by_cases hut : u = t
    · rw [if_pos hut, hut, hnone, Pc.registering, Option.some_inj]
      simp [eq_comm]
    · simp [hut]
  have waits : ∀ u q, (s.shared.goto t (.inserting path 0 msErrNone)).pc u = .waiting q ↔
      s.shared.pc u = .waiting q := by
    intro u q
    rw [Shared.goto_pc]
    split
    next hut => exact iff_of_false (by rintro ⟨⟩) (hut ▸ hwait q)
    next => rfl
  constructor
  · exact h.listedOnce.append (List.nodup_singleton path)
      (List.disjoint_singleton.mpr hlisted)
  · intro q
    simp only [List.mem_append, List.mem_singleton, registering, h.listed, exists_or]
    rw [or_comm]
    refine or_congr ⟨fun hq => ⟨t, rfl, hq⟩, ?_⟩ Iff.rfl
    rintro ⟨_, -, hq⟩
    exact hq
  · intro u v q hu hv
    rcases (registering u q).mp hu with ⟨hut, hq⟩ | hold
    · rcases (registering v q).mp hv with ⟨hvt, -⟩ | hold
      · exact hut.trans hvt.symm
      · exact absurd (hq ▸ hold) (nobody v)
    · rcases (registering v q).mp hv with ⟨-, hq⟩ | hold'
      · exact absurd (hq ▸ hold) (nobody u)
      · exact h.exclusive u v q hold hold'
  · intro q hq
    refine (h.waiting q ((waits .socket q).mp hq)).imp (fun hreg => ?_) id
    exact ⟨(registering .inotify q).mpr (.inr hreg.1), hreg.2⟩
  · exact fun hnone => h.notWaiting fun q hq => hnone q ((waits .socket q).mpr hq)
  · exact fun q hq => h.handlerOnly q ((waits .inotify q).mp hq)

/-- The last critical section: the path leaves the list, and its result goes to a
handler that waits for it. -/
theorem HandOver.leave (h : HandOver s) {res : Int} (hpc : s.shared.pc t = .leaving path res) :
    HandOver
      { shared := s.shared.leave t path res
        completed := s.completed ++ completes s.shared (t, .leave) } := by
  have hself : (s.shared.pc t).registering = some path := by rw [hpc]; rfl
  have registering : ∀ u q, ((s.shared.goto t .idle).pc u).registering = some q ↔
      q ≠ path ∧ (s.shared.pc u).registering = some q := by
    intro u q
    rw [Shared.goto_pc]
    by_cases hut : u = t
    · rw [if_pos hut, hut, hself]
      simp [Pc.registering, eq_comm]
    · rw [if_neg hut]
      refine ⟨fun hu => ⟨?_, hu⟩, And.right⟩
      rintro rfl
      exact hut (h.exclusive u t q hu hself)
  constructor
  · exact h.listedOnce.erase path
  · intro q
    simp only [Shared.leave, registering, h.listedOnce.mem_erase_iff, h.listed, exists_and_left]
  · intro u v q hu hv
    exact h.exclusive u v q ((registering u q).mp hu).2 ((registering v q).mp hv).2
  · intro q hq
    cases t with
    | socket => simp [Shared.leave] at hq
    | inotify =>
        have hsocket : s.shared.pc .socket = .waiting q := by
          simpa [Shared.leave, Shared.goto_pc] using hq
        have hdone : completes s.shared (.inotify, .leave) = [(path, res)] := by
          simp only [completes, hpc]
        refine .inr ?_
        rcases h.waiting q hsocket with ⟨hreg, hset, hqueue, hnone⟩ | ⟨v, rest, hqueue, hset, hdone'⟩
        · obtain rfl : path = q := Option.some.inj (hself.symm.trans hreg)
          refine ⟨pushed res, [], ?_, rfl, ?_⟩
          · simp [Shared.leave, hset, hqueue]
          · rw [hnone, hdone, popped_pushed]
            rfl
        · refine ⟨v, rest ++ [(path, res)], ?_, rfl, ?_⟩
          · simp [Shared.leave, hset, hqueue]
          · rw [hdone, hdone']
            rfl
  · intro hnone
    have hwait : ∀ q, s.shared.pc .socket ≠ .waiting q := by
      intro q hq
      cases t with
      | socket =>
          rw [hpc] at hq
          cases hq
      | inotify => exact hnone q (by simpa [Shared.leave, Shared.goto_pc] using hq)
    obtain ⟨hqueue, hset⟩ := h.notWaiting hwait
    simp [Shared.leave, hset, hqueue]
  · intro q hq
    cases t with
    | socket => exact h.handlerOnly q (by simpa [Shared.leave, Shared.goto_pc] using hq)
    | inotify => simp [Shared.leave] at hq

/-- The handler takes the one value there is. -/
theorem HandOver.receive (h : HandOver s) (hpc : s.shared.pc t = .waiting path) {v : Int}
    {rest : List Int} (hqueue : s.shared.retQueue = v :: rest) :
    HandOver { s with shared := { s.shared.goto t .idle with retQueue := rest } } := by
  obtain rfl : t = .socket := by
    cases t with
    | socket => rfl
    | inotify => exact absurd hpc (h.handlerOnly path)
  have registering : ∀ u, ((s.shared.goto .socket .idle).pc u).registering =
      (s.shared.pc u).registering := Shared.registering_goto (by rw [hpc]; rfl)
  obtain ⟨rfl, hset⟩ : rest = [] ∧ s.shared.socQueue = false := by
    rcases h.waiting path hpc with ⟨-, -, hnone, -⟩ | ⟨w, older, hone, hset, -⟩
    · rw [hqueue] at hnone
      cases hnone
    · rw [hqueue] at hone
      exact ⟨(List.cons.inj hone).2, hset⟩
  constructor
  · exact h.listedOnce
  · intro q
    simp only [registering]
    exact h.listed q
  · intro u w q hu hw
    exact h.exclusive u w q (registering u ▸ hu) (registering w ▸ hw)
  · intro q hq
    simp at hq
  · exact fun _ => ⟨rfl, hset⟩
  · intro q hq
    exact h.handlerOnly q (by simpa [Shared.goto_pc] using hq)

/-- The record matters to a waiting handler only. -/
theorem HandOver.reset (h : HandOver s) (hnone : ∀ path, s.shared.pc .socket ≠ .waiting path)
    (completed : List (Text × Int)) : HandOver { s with completed } :=
  ⟨h.listedOnce, h.listed, h.exclusive, fun path hpath => absurd hpath (hnone path),
    h.notWaiting, h.handlerOnly⟩

end Preservation

/-- Every step of either thread leaves the list, the pointer and the queue in
agreement. -/
theorem observedStep_handOver {s s' : Observed} {l : Label} (h : HandOver s)
    (hstep : observedStep s l = some s') : HandOver s' := by
  obtain ⟨t, act⟩ := l
  obtain ⟨shared, hshared, rfl⟩ := Option.map_eq_some_iff.mp hstep
  cases registerStep_cases hshared with
  | call path hpc =>
      simpa [completes] using
        h.goto (.checking path) (by rw [hpc]; rfl) (by simp [hpc]) (by rintro _ ⟨⟩)
  | known path fails hpc =>
      simpa [completes] using h.goto .idle (by rw [hpc]; rfl) (by simp [hpc]) (by rintro _ ⟨⟩)
  | missing path fails hpc =>
      simpa [completes] using
        h.goto (.entering path) (by rw [hpc]; rfl) (by simp [hpc]) (by rintro _ ⟨⟩)
  | enter path hpc =>
      rw [Shared.enter.eq_def]
      cases t with
      | socket =>
          split
          next hlisted => exact h.wait hpc hlisted
          next hlisted => exact (h.insert hpc hlisted).reset (by simp) []
      | inotify =>
          split
          next hlisted =>
            simpa [completes] using h.goto .idle (by rw [hpc]; rfl) (by simp [hpc]) (by rintro _ ⟨⟩)
          next hlisted => simpa [completes] using h.insert hpc hlisted
  | noMime path hpc =>
      simpa [completes] using
        h.goto (.inserting path s.shared.libNum msErrMimeGetFail) (by rw [hpc]; rfl)
          (by simp [hpc]) (by rintro _ ⟨⟩)
  | insert path k ret outcome hpc hk =>
      have hnext : ∀ ret', HandOver
          { s with shared := s.shared.goto t (.inserting path (k + 1) ret') } :=
        fun ret' => h.goto _ (by rw [hpc]; rfl) (by simp [hpc]) (by rintro _ ⟨⟩)
      cases outcome with
      | stored =>
          obtain ⟨honce, hlisted, hexclusive, hwaiting, hnone, honly⟩ := hnext ret
          simpa [completes, Shared.insert] using ⟨honce, hlisted, hexclusive, hwaiting, hnone, honly⟩
      | failed => simpa [completes, Shared.insert] using hnext msErrDbInsertRecordFail
      | rejected => simpa [completes, Shared.insert] using hnext ret
  | recheck path k ret res hpc hk =>
      simpa [completes] using
        h.goto (.leaving path (if ret = msErrNone then msErrNone else res))
          (by rw [hpc]; rfl) (by simp [hpc]) (by rintro _ ⟨⟩)
  | leave path res hpc => simpa using h.leave hpc
  | receive path v rest hpc hqueue => simpa [completes] using h.receive hpc hqueue

theorem handOver_start (libNum : Nat) (held : List (Nat × Text)) :
    HandOver { shared := Shared.start libNum held } where
  listedOnce := List.nodup_nil
  listed _ := by simp [Shared.start, Pc.registering]
  exclusive _ _ _ h := nomatch h
  waiting _ h := nomatch h
  notWaiting _ := ⟨rfl, rfl⟩
  handlerOnly _ := nofun

/-- In every interleaving of the two threads and for all answers of the plug-ins, the
list holds exactly the paths being registered, and a waiting handler gets the result
of the registration it waits for, and nothing is left over. -/
theorem handOver_always (libNum : Nat) (held : List (Nat × Text)) (labels : List Label) :
    Run.Always observedStep HandOver { shared := Shared.start libNum held } labels :=
  Run.always_of_step (fun _ _ _ h hstep => observedStep_handOver h hstep)
    (handOver_start libNum held)

end MediaServer.Register
