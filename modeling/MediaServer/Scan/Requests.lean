import MediaServer.Foundation.Run
import MediaServer.Scan.Thread
import Mathlib.Data.List.Nodup

/-!
# What becomes of the scan requests

The main thread pushes request objects on `scan_queue` and the scan thread owns
them from then on: an object waits in the queue, waits in the array, is handled,
and is freed. The system below runs the scan thread against any sequence of
pushes and flag changes and records what it does with the objects.

A request is lost when `ms_connect_db` fails, and it is duplicated when it
supersedes two pending requests at once.
-/

namespace MediaServer.Scan

/-- The current object, once `_ms_dir_scan` has been called for it or is not
to be called any more. -/
def Pc.handed : Pc → List ScanData
  | .dirScan d | .scanned d | .deleteInvalid d | .updated d | .updateMmcInfo d | .release d
  | .powerOff d => [d]
  | .top | .connectDb _ | .updating _ | .deleteAll _ | .returned => []

namespace Thread

/-- The objects of which a step reads a field. -/
def reads (th : Thread) : ThreadAct → List ScanData
  | .receive =>
      match th.queue with
      | [] => []
      | d :: _ => if d.scanType = .powerOff then [d] else d :: th.array
  | .take => th.array.take 1
  | .scanFile _ | .invalidateAllItems | .scanReturn | .release | .exit => th.pc.current
  | _ => []

/-- The objects that a step passes to `_ms_dir_scan`. -/
def handsOver (th : Thread) : ThreadAct → List ScanData
  | .setUpdating =>
      match th.pc with
      | .updating d => if d.scanType = .all then [] else [d]
      | _ => []
  | .deleteAllItems _ => th.pc.current
  | _ => []

def frees (th : Thread) : ThreadAct → List ScanData
  | .release | .exit => th.pc.current
  | _ => []

/-- The array entries that a step overwrites, with the request that takes their
place. -/
def displaces (th : Thread) : ThreadAct → List (ScanData × ScanData)
  | .receive =>
      match th.queue with
      | [] => []
      | d :: _ => (displaced th.array d).map fun e => (e, d)
  | _ => []

end Thread

/-- The thread, the flags, and a record that no step reads. -/
structure Requests where
  thread : Thread := {}
  flags : Flags := {}
  /-- Every object ever pushed, the oldest first. -/
  pushed : List ScanData := []
  ran : List ScanData := []
  freed : List ScanData := []
  readFreed : Bool := false
  superseded : List (ScanData × ScanData) := []
deriving DecidableEq, Repr

inductive RequestLabel where
  | push (d : ScanData)
  | mmcStatus (status : MmcStatus)
  /-- `_power_off_cb` sets `power_off` before it pushes its request. -/
  | setPowerOff
  | thread (a : ThreadAct)
deriving DecidableEq, Repr

def requestStep (s : Requests) : RequestLabel → Option Requests
  | .push d =>
      if (∀ e ∈ s.pushed, e.id ≠ d.id) ∧ (d.scanType = .powerOff → s.flags.powerOff) then
        some { s with
          thread := { s.thread with queue := s.thread.queue ++ [d] }
          pushed := s.pushed ++ [d] }
      else none
  | .mmcStatus status => some { s with flags := { s.flags with mmcState := status } }
  | .setPowerOff => some { s with flags := { s.flags with powerOff := true } }
  | .thread a =>
      (threadStep s.flags s.thread a).map fun thread =>
        { s with
          thread
          ran := s.ran ++ s.thread.handsOver a
          freed := s.freed ++ s.thread.frees a
          readFreed := s.readFreed || (s.thread.reads a).any (· ∈ s.freed)
          superseded := s.superseded ++ s.thread.displaces a }

/-- The later request `n` took the place of `d`. -/
def SupersededBy (s : Requests) (d n : ScanData) : Prop :=
  (d, n) ∈ s.superseded ∧ [d, n].Sublist s.pushed ∧ supersedes n d

/-- A request waits, is being handled, has been run, or is excused. -/
def Accounted (s : Requests) (d : ScanData) : Prop :=
  d ∈ s.thread.queue ∨ d ∈ s.thread.array ∨ d ∈ s.thread.pc.current ∨ d ∈ s.ran ∨
    (∃ n ∈ s.pushed, SupersededBy s d n) ∨ s.flags.powerOff

/-- Nothing is duplicated and nothing is lost. -/
def RequestsSound (s : Requests) : Prop :=
  s.thread.array.Nodup ∧ s.ran.Nodup ∧ s.freed.Nodup ∧ s.readFreed = false ∧
    ∀ d ∈ s.pushed, Accounted s d

instance (s : Requests) (d : ScanData) : Decidable (Accounted s d) :=
  inferInstanceAs (Decidable (_ ∨ _ ∨ _ ∨ _ ∨
    (∃ n ∈ s.pushed, (d, n) ∈ s.superseded ∧ [d, n].Sublist s.pushed ∧ supersedes n d) ∨ _))

instance : DecidablePred RequestsSound := fun s =>
  inferInstanceAs (Decidable (s.thread.array.Nodup ∧ s.ran.Nodup ∧ s.freed.Nodup ∧
    s.readFreed = false ∧ ∀ d ∈ s.pushed, Accounted s d))

/-- A request supersedes at most one pending request, and the database answers
until the power goes off. -/
def RequestOk (s : Requests) : RequestLabel → Prop
  | .thread .receive =>
      match s.thread.queue with
      | [] => True
      | d :: _ => (displaced s.thread.array d).length ≤ 1
  | .thread (.connectDb false) => s.flags.powerOff = true
  | _ => True

/-- How often the record has an object outside the finished runs. -/
def Requests.places (s : Requests) (d : ScanData) : Nat :=
  s.thread.queue.count d + s.thread.array.count d + s.thread.pc.current.count d +
    s.freed.count d + (s.superseded.map Prod.fst).count d

structure RequestInv (s : Requests) : Prop where
  pushedOnce : s.pushed.Nodup
  placed : ∀ d, s.places d ≤ s.pushed.count d
  later : ∃ front, s.pushed = front ++ s.thread.queue ∧ ∀ e ∈ s.thread.array, e ∈ front
  ranOnce : s.ran.Nodup
  ranPlace : ∀ d ∈ s.ran, d ∈ s.freed ∨ d ∈ s.thread.pc.handed
  handed : ∀ d ∈ s.thread.pc.handed, d ∈ s.ran ∨ s.flags.powerOff = true
  powerOff : ∀ d ∈ s.pushed, d.scanType = .powerOff → s.flags.powerOff = true
  asked : ∀ d, s.thread.pc = .connectDb d → d.scanType ≠ .powerOff
  noRead : s.readFreed = false
  ordered : ∀ p ∈ s.superseded, SupersededBy s p.1 p.2
  accounted : ∀ d ∈ s.pushed, Accounted s d

section Places

variable {s : Requests} (h : RequestInv s)
include h

theorem RequestInv.places_le (d : ScanData) : s.places d ≤ 1 :=
  (h.placed d).trans (List.nodup_iff_count_le_one.mp h.pushedOnce d)

theorem RequestInv.not_freed {d : ScanData}
    (hd : d ∈ s.thread.queue ∨ d ∈ s.thread.array ∨ d ∈ s.thread.pc.current) : d ∉ s.freed := by
  intro hfreed
  have hle := h.places_le d
  have hpos := List.count_pos_iff.mpr hfreed
  rw [Requests.places] at hle
  rcases hd with hd | hd | hd
  all_goals
    have := List.count_pos_iff.mpr hd
    omega

theorem RequestInv.sound : RequestsSound s := by
  refine ⟨?_, h.ranOnce, ?_, h.noRead, h.accounted⟩
  all_goals
    refine List.nodup_iff_count_le_one.mpr fun d => ?_
    have hle := h.places_le d
    rw [Requests.places] at hle
    omega

end Places

theorem Accounted.of_place {s : Requests} {d : ScanData}
    (h : d ∈ s.thread.queue ∨ d ∈ s.thread.array ∨ d ∈ s.thread.pc.current) : Accounted s d :=
  h.imp id (Or.imp id .inl)

/-- What a step has to say about a request to keep it accounted for. -/
theorem Accounted.imp {s t : Requests} {d : ScanData} (h : Accounted s d)
    (place : d ∈ s.thread.queue ∨ d ∈ s.thread.array ∨ d ∈ s.thread.pc.current → Accounted t d)
    (ran : s.ran ⊆ t.ran) (superseded : s.superseded ⊆ t.superseded)
    (pushed : s.pushed.Sublist t.pushed) (off : s.flags.powerOff → t.flags.powerOff) :
    Accounted t d := by
  rcases h with hq | ha | hc | hr | ⟨n, hn, hmem, hsub, hover⟩ | hoff
  · exact place (.inl hq)
  · exact place (.inr (.inl ha))
  · exact place (.inr (.inr hc))
  · exact .inr (.inr (.inr (.inl (ran hr))))
  · exact .inr (.inr (.inr (.inr (.inl
      ⟨n, pushed.subset hn, superseded hmem, hsub.trans pushed, hover⟩))))
  · exact .inr (.inr (.inr (.inr (.inr (off hoff)))))

section Preservation

variable {s : Requests} (h : RequestInv s)
include h

theorem RequestInv.push {d : ScanData} (fresh : ∀ e ∈ s.pushed, e.id ≠ d.id)
    (off : d.scanType = .powerOff → s.flags.powerOff) :
    RequestInv { s with
      thread := { s.thread with queue := s.thread.queue ++ [d] }
      pushed := s.pushed ++ [d] } where
  pushedOnce := by
    refine List.nodup_append.mpr ⟨h.pushedOnce, List.nodup_singleton d, ?_⟩
    rintro e he d' hd' rfl
    exact fresh e he (by rw [List.mem_singleton.mp hd'])
  placed e := by
    have hle := h.placed e
    simp only [Requests.places, List.count_append] at hle ⊢
    omega
  later := by
    obtain ⟨front, hpushed, harray⟩ := h.later
    exact ⟨front, by rw [hpushed, List.append_assoc], harray⟩
  ranOnce := h.ranOnce
  ranPlace := h.ranPlace
  handed := h.handed
  powerOff e he := by
    cases List.mem_append.mp he with
    | inl he => exact h.powerOff e he
    | inr he =>
        obtain rfl := List.mem_singleton.mp he
        exact off
  asked := h.asked
  noRead := h.noRead
  ordered p hp := by
    obtain ⟨hmem, hsub, hover⟩ := h.ordered p hp
    exact ⟨hmem, hsub.trans (List.sublist_append_left _ _), hover⟩
  accounted e he := by
    cases List.mem_append.mp he with
    | inl he =>
        refine (h.accounted e he).imp ?_ (List.Subset.refl _) (List.Subset.refl _)
          (List.sublist_append_left _ _) id
        exact fun place => .of_place (place.imp (List.mem_append_left _) id)
    | inr he => exact .inl (List.mem_append_right _ he)

theorem RequestInv.setFlags {flags : Flags} (off : s.flags.powerOff → flags.powerOff) :
    RequestInv { s with flags } where
  pushedOnce := h.pushedOnce
  placed := h.placed
  later := h.later
  ranOnce := h.ranOnce
  ranPlace := h.ranPlace
  handed d hd := (h.handed d hd).imp id off
  powerOff d hd htype := off (h.powerOff d hd htype)
  asked := h.asked
  noRead := h.noRead
  ordered := h.ordered
  accounted d hd := (h.accounted d hd).imp (fun place => .of_place (s := { s with flags }) place)
    (List.Subset.refl _) (List.Subset.refl _) (List.Sublist.refl _) off

/-- Steps that keep the current object where it is. -/
theorem RequestInv.goto (pc : Pc) (current : pc.current = s.thread.pc.current)
    (handed : pc.handed = s.thread.pc.handed) (asked : ∀ d, pc ≠ .connectDb d) :
    RequestInv { s with thread := { s.thread with pc } } where
  pushedOnce := h.pushedOnce
  placed d := by simpa only [Requests.places, current] using h.placed d
  later := h.later
  ranOnce := h.ranOnce
  ranPlace d hd := by simpa only [handed] using h.ranPlace d hd
  handed d hd := h.handed d (handed ▸ hd)
  powerOff := h.powerOff
  asked d hd := absurd hd (asked d)
  noRead := h.noRead
  ordered := h.ordered
  accounted d hd := by simpa only [Accounted, SupersededBy, current] using h.accounted d hd

/-- The head of the queue overwrites at most one entry of the array. -/
theorem RequestInv.receive {d : ScanData} {queue : List ScanData}
    (hpc : s.thread.pc = .top) (hqueue : s.thread.queue = d :: queue)
    (one : (displaced s.thread.array d).length ≤ 1) :
    RequestInv { s with
      thread := { s.thread with queue, array := insertArray s.thread.array d }
      superseded := s.superseded ++ (displaced s.thread.array d).map fun e => (e, d) } := by
  obtain ⟨front, hpushed, harray⟩ := h.later
  rw [hqueue] at hpushed
  have hcurrent : s.thread.pc.current = [] := by rw [hpc]; rfl
  have hordered : ∀ e ∈ s.thread.array, [e, d].Sublist s.pushed := by
    intro e he
    rw [hpushed]
    exact (List.singleton_sublist.mpr (harray e he)).append
      ((List.nil_sublist queue).cons_cons d)
  constructor
  · exact h.pushedOnce
  · intro e
    have hle := h.placed e
    have hcount := count_insertArray s.thread.array d e
    rw [Nat.max_eq_left one] at hcount
    simp only [Requests.places, hqueue, List.count_cons, List.map_append, List.count_append,
      List.map_map, Function.comp_def, List.map_id', beq_iff_eq] at hle ⊢
    omega
  · refine ⟨front ++ [d], by rw [hpushed]; simp, fun e he => ?_⟩
    rcases eq_or_mem_of_mem_insertArray he with rfl | he
    · exact List.mem_append_right _ List.mem_cons_self
    · exact List.mem_append_left _ (harray e he)
  · exact h.ranOnce
  · exact h.ranPlace
  · exact h.handed
  · exact h.powerOff
  · exact h.asked
  · exact h.noRead
  · intro p hp
    cases List.mem_append.mp hp with
    | inl hold =>
        obtain ⟨-, hsub, hover⟩ := h.ordered p hold
        exact ⟨hp, hsub, hover⟩
    | inr hnew =>
        obtain ⟨e, he, rfl⟩ := List.mem_map.mp hnew
        obtain ⟨hmem, hover⟩ := supersedes_of_mem_displaced he
        exact ⟨hp, hordered e hmem, hover⟩
  · intro e he
    refine (h.accounted e he).imp ?_ (List.Subset.refl _) (List.subset_append_left _ _)
      (List.Sublist.refl _) id
    rintro (hq | ha | hc)
    · rw [hqueue] at hq
      rcases List.mem_cons.mp hq with rfl | hq
      · exact .of_place (.inr (.inl (self_mem_insertArray _ _)))
      · exact .of_place (.inl hq)
    · cases mem_insertArray_or_displaced ha with
      | inl hin => exact .of_place (.inr (.inl hin))
      | inr hout =>
          refine .inr (.inr (.inr (.inr (.inl ⟨d, ?_, ?_, hordered e ha,
            (supersedes_of_mem_displaced hout).2⟩))))
          · rw [hpushed]; simp
          · exact List.mem_append_right _ (List.mem_map.mpr ⟨e, hout, rfl⟩)
    · rw [hcurrent] at hc
      cases hc

/-- The first entry of the array becomes the current object. -/
theorem RequestInv.take {d : ScanData} {array : List ScanData} {pc : Pc}
    (hpc : s.thread.pc = .top) (harr : s.thread.array = d :: array) (current : pc.current = [d])
    (handed : ∀ e ∈ pc.handed, s.flags.powerOff = true)
    (asked : ∀ e, pc = .connectDb e → e.scanType ≠ .powerOff) :
    RequestInv { s with thread := { s.thread with array, pc } } where
  pushedOnce := h.pushedOnce
  placed e := by
    have hle := h.placed e
    have hnone : s.thread.pc.current = [] := by rw [hpc]; rfl
    simp only [Requests.places, hnone, harr, current, List.count_cons, List.count_nil] at hle ⊢
    omega
  later := by
    obtain ⟨front, hpushed, harray⟩ := h.later
    exact ⟨front, hpushed, fun e he => harray e (harr ▸ List.mem_cons_of_mem d he)⟩
  ranOnce := h.ranOnce
  ranPlace e he := by
    refine (h.ranPlace e he).imp id fun hh => ?_
    rw [hpc] at hh
    cases hh
  handed e he := .inr (handed e he)
  powerOff := h.powerOff
  asked := asked
  noRead := h.noRead
  ordered := h.ordered
  accounted e he := by
    refine (h.accounted e he).imp ?_ (List.Subset.refl _) (List.Subset.refl _)
      (List.Sublist.refl _) id
    rintro (hq | ha | hc)
    · exact .of_place (.inl hq)
    · rw [harr] at ha
      rcases List.mem_cons.mp ha with rfl | ha
      · exact .of_place (.inr (.inr (current ▸ List.mem_cons_self)))
      · exact .of_place (.inr (.inl ha))
    · rw [hpc] at hc
      cases hc

/-- A failed connection drops the current object, which only the power may do. -/
theorem RequestInv.drop {d : ScanData} (hpc : s.thread.pc = .connectDb d)
    (off : s.flags.powerOff = true) :
    RequestInv { s with thread := { s.thread with pc := .top } } where
  pushedOnce := h.pushedOnce
  placed e := by
    have hle := h.placed e
    simp only [Requests.places, hpc, Pc.current, List.count_nil] at hle ⊢
    omega
  later := h.later
  ranOnce := h.ranOnce
  ranPlace e he := by
    have hplace := h.ranPlace e he
    rwa [hpc] at hplace
  handed e he := nomatch he
  powerOff := h.powerOff
  asked e he := nomatch he
  noRead := h.noRead
  ordered := h.ordered
  accounted e he := .inr (.inr (.inr (.inr (.inr off))))

/-- `_ms_dir_scan` is called for the current object. -/
theorem RequestInv.handOver {d : ScanData} (pc : Pc) (current : s.thread.pc.current = [d])
    (handed : s.thread.pc.handed = []) (hcurrent : pc.current = [d]) (hhanded : pc.handed = [d]) :
    RequestInv { s with thread := { s.thread with pc }, ran := s.ran ++ [d] } := by
  have hmem : d ∈ s.thread.pc.current := current ▸ List.mem_cons_self
  have hnew : d ∉ s.ran := by
    intro hran
    cases h.ranPlace d hran with
    | inl hfreed => exact h.not_freed (.inr (.inr hmem)) hfreed
    | inr hh =>
        rw [handed] at hh
        cases hh
  constructor
  · exact h.pushedOnce
  · intro e
    simpa only [Requests.places, current, hcurrent] using h.placed e
  · exact h.later
  · refine List.nodup_append.mpr ⟨h.ranOnce, List.nodup_singleton d, ?_⟩
    rintro e he d' hd' rfl
    exact hnew (List.mem_singleton.mp hd' ▸ he)
  · intro e he
    cases List.mem_append.mp he with
    | inl he =>
        refine (h.ranPlace e he).imp id fun hh => ?_
        rw [handed] at hh
        cases hh
    | inr he => exact .inr (hhanded ▸ he)
  · intro e he
    exact .inl (List.mem_append_right _ (hhanded ▸ he))
  · exact h.powerOff
  · rintro e rfl
    cases hhanded
  · exact h.noRead
  · exact h.ordered
  · intro e he
    refine (h.accounted e he).imp ?_ (List.subset_append_left _ _) (List.Subset.refl _)
      (List.Sublist.refl _) id
    exact fun place => .of_place (place.imp id (Or.imp id fun hc => by
      rw [current] at hc
      exact hcurrent ▸ hc))

/-- Only an object that has been run, or the power-off, is freed. -/
theorem RequestInv.free {d : ScanData} (pc : Pc) (current : s.thread.pc.current = [d])
    (handed : s.thread.pc.handed = [d]) (hcurrent : pc.current = []) (hhanded : pc.handed = []) :
    RequestInv { s with thread := { s.thread with pc }, freed := s.freed ++ [d] } where
  pushedOnce := h.pushedOnce
  placed e := by
    have hle := h.placed e
    simp only [Requests.places, current, hcurrent, List.count_append, List.count_nil] at hle ⊢
    omega
  later := h.later
  ranOnce := h.ranOnce
  ranPlace e he := by
    cases h.ranPlace e he with
    | inl hfreed => exact .inl (List.mem_append_left _ hfreed)
    | inr hh => exact .inl (List.mem_append_right _ (handed ▸ hh))
  handed e he := by
    rw [hhanded] at he
    cases he
  powerOff := h.powerOff
  asked e he := by
    subst he
    cases hcurrent
  noRead := h.noRead
  ordered := h.ordered
  accounted e he := by
    refine (h.accounted e he).imp ?_ (List.Subset.refl _) (List.Subset.refl _)
      (List.Sublist.refl _) id
    rintro (hq | ha | hc)
    · exact .of_place (.inl hq)
    · exact .of_place (.inr (.inl ha))
    · rw [current, ← handed] at hc
      cases h.handed e hc with
      | inl hran => exact .inr (.inr (.inr (.inl hran)))
      | inr hoff => exact .inr (.inr (.inr (.inr (.inr hoff))))

/-- No step reads an object that has been freed. -/
theorem RequestInv.reads_not_freed (a : ThreadAct) :
    (s.thread.reads a).any (· ∈ s.freed) = false := by
  refine List.any_eq_false.mpr fun d hd => ?_
  have hplace : d ∈ s.thread.queue ∨ d ∈ s.thread.array ∨ d ∈ s.thread.pc.current := by
    cases a with
    | receive =>
        simp only [Thread.reads] at hd
        split at hd
        next => cases hd
        next e queue hqueue =>
          rw [hqueue]
          split at hd
          next => exact .inl (List.mem_singleton.mp hd ▸ List.mem_cons_self)
          next =>
            rcases List.mem_cons.mp hd with rfl | hd
            · exact .inl List.mem_cons_self
            · exact .inr (.inl hd)
    | take => exact .inr (.inl (List.mem_of_mem_take hd))
    | scanFile | invalidateAllItems | scanReturn | release | exit => exact .inr (.inr hd)
    | _ => cases hd
  simpa using h.not_freed hplace

end Preservation

theorem requestStep_inv {s t : Requests} {l : RequestLabel} (h : RequestInv s)
    (good : RequestOk s l) (hstep : requestStep s l = some t) : RequestInv t := by
  cases l with
  | push d =>
      simp only [requestStep] at hstep
      split at hstep
      next hok => exact Option.some.inj hstep ▸ h.push hok.1 hok.2
      next => cases hstep
  | mmcStatus status => exact Option.some.inj hstep ▸ h.setFlags id
  | setPowerOff => exact Option.some.inj hstep ▸ h.setFlags fun _ => rfl
  | thread a =>
      obtain ⟨th, hth, rfl⟩ := Option.map_eq_some_iff.mp hstep
      rw [h.reads_not_freed a, Bool.or_false]
      cases threadStep_cases hth with
      | receive hpc hqueue =>
          simp only [RequestOk, hqueue] at good
          simpa only [Thread.handsOver, Thread.frees, Thread.displaces, hqueue, List.append_nil]
            using h.receive hpc hqueue good
      | takePowerOff hpc _ harr htype =>
          obtain ⟨front, hpushed, harray⟩ := h.later
          have hmem := hpushed ▸ List.mem_append_left _ (harray _ (harr ▸ List.mem_cons_self))
          simpa only [Thread.handsOver, Thread.frees, Thread.displaces, List.append_nil]
            using h.take hpc harr rfl (fun _ _ => h.powerOff _ hmem htype) (by rintro e ⟨⟩)
      | take hpc _ harr htype =>
          simpa only [Thread.handsOver, Thread.frees, Thread.displaces, List.append_nil]
            using h.take hpc harr rfl (by rintro e ⟨⟩) (by rintro e ⟨⟩; exact htype)
      | updating hpc htype =>
          have hnext := h.handOver (.dirScan _) (congrArg Pc.current hpc)
            (congrArg Pc.handed hpc) rfl rfl
          simpa only [Thread.handsOver, Thread.frees, Thread.displaces, hpc, htype, if_false,
            List.append_nil] using hnext
      | deleteAll hpc =>
          have hnext := h.handOver (.dirScan _) (congrArg Pc.current hpc)
            (congrArg Pc.handed hpc) rfl rfl
          simpa only [Thread.handsOver, Thread.frees, Thread.displaces, hpc, Pc.current,
            List.append_nil] using hnext
      | connectFailed hpc =>
          simpa only [Thread.handsOver, Thread.frees, Thread.displaces, List.append_nil]
            using h.drop hpc good
      | scanFile =>
          simpa only [Thread.handsOver, Thread.frees, Thread.displaces, List.append_nil] using h
      | release hpc =>
          have hnext := h.free .top (congrArg Pc.current hpc) (congrArg Pc.handed hpc) rfl rfl
          simpa only [Thread.handsOver, Thread.frees, Thread.displaces, hpc, Pc.current,
            List.append_nil] using hnext
      | exit hpc =>
          have hnext := h.free .returned (congrArg Pc.current hpc) (congrArg Pc.handed hpc) rfl rfl
          simpa only [Thread.handsOver, Thread.frees, Thread.displaces, hpc, Pc.current,
            List.append_nil] using hnext
      | updatingAll hpc htype =>
          simp only [Thread.handsOver, Thread.frees, Thread.displaces, hpc, htype, if_true,
            List.append_nil]
          exact h.goto _ (congrArg Pc.current hpc).symm (congrArg Pc.handed hpc).symm
            (fun _ => by rintro ⟨⟩)
      | connected hpc | invalidate hpc | scanReturn hpc | stopped hpc | scannedPart hpc
      | scanned hpc | deleteInvalid hpc | updatedCard hpc | updated hpc | updateMmcInfo hpc =>
          simp only [Thread.handsOver, Thread.frees, Thread.displaces, List.append_nil]
          exact h.goto _ (congrArg Pc.current hpc).symm (congrArg Pc.handed hpc).symm
            (fun _ => by rintro ⟨⟩)

/-- A request that supersedes two entries stands in the array twice. -/
theorem not_sound_of_receive {s t : Requests} {d : ScanData} {queue : List ScanData}
    (hqueue : s.thread.queue = d :: queue) (two : ¬ (displaced s.thread.array d).length ≤ 1)
    (hstep : requestStep s (.thread .receive) = some t) : ¬ RequestsSound t := by
  obtain ⟨th, hth, rfl⟩ := Option.map_eq_some_iff.mp hstep
  cases threadStep_cases hth with
  | receive hpc hq =>
      obtain ⟨rfl, rfl⟩ := List.cons.inj (hqueue.symm.trans hq)
      rintro ⟨honce, -⟩
      have hle : (insertArray s.thread.array d).count d ≤ 1 :=
        List.nodup_iff_count_le_one.mp honce d
      have hcount := count_insertArray s.thread.array d d
      have hdisplaced := count_displaced_le s.thread.array d d
      rw [if_pos rfl] at hcount
      omega

/-- A request whose connection fails is nowhere any more. -/
theorem not_sound_of_connectDb {s t : Requests} (h : RequestInv s)
    (on : ¬ s.flags.powerOff = true)
    (hstep : requestStep s (.thread (.connectDb false)) = some t) : ¬ RequestsSound t := by
  obtain ⟨th, hth, rfl⟩ := Option.map_eq_some_iff.mp hstep
  cases threadStep_cases hth with
  | @connectFailed d hpc =>
      have hcurrent : s.thread.pc.current = [d] := congrArg Pc.current hpc
      have hle := h.places_le d
      have hone : [d].count d = 1 := List.count_singleton_self
      rw [Requests.places, hcurrent, hone] at hle
      rintro ⟨-, -, -, -, haccounted⟩
      have hpushed : d ∈ s.pushed := by
        have := h.placed d
        rw [Requests.places, hcurrent, hone] at this
        exact List.count_pos_iff.mp (by omega)
      rcases haccounted d hpushed with hq | ha | hc | hr | ⟨n, -, hn, -⟩ | hoff
      · have := List.count_pos_iff.mpr hq
        simp only at this
        omega
      · have := List.count_pos_iff.mpr ha
        simp only at this
        omega
      · cases hc
      · rcases h.ranPlace d (by simpa only [Thread.handsOver, List.append_nil] using hr)
          with hfreed | hhanded
        · have := List.count_pos_iff.mpr hfreed
          omega
        · rw [hpc] at hhanded
          cases hhanded
      · simp only [Thread.displaces, List.append_nil] at hn
        have hmem : d ∈ s.superseded.map Prod.fst := List.mem_map_of_mem hn
        have := List.count_pos_iff.mpr hmem
        omega
      · exact on hoff

theorem requestInv_start : RequestInv {} where
  pushedOnce := List.nodup_nil
  placed _ := Nat.le_refl _
  later := ⟨[], rfl, fun _ h => nomatch h⟩
  ranOnce := List.nodup_nil
  ranPlace _ h := nomatch h
  handed _ h := nomatch h
  powerOff _ h := nomatch h
  asked _ h := nomatch h
  noRead := rfl
  ordered _ h := nomatch h
  accounted _ h := nomatch h

/-- For every sequence of pushes, interleaved with the thread and with any
outcomes of `ms_connect_db`, the requests are sound throughout if and only if
every step meets `RequestOk`. -/
theorem requests_sound_iff (labels : List RequestLabel) :
    Run.Always requestStep RequestsSound {} labels ↔
      Run.EachStep requestStep RequestOk {} labels := by
  refine Run.always_iff_eachStep (I := RequestInv)
    (fun _ _ _ h good hstep => requestStep_inv h good hstep) (fun _ h => h.sound) ?_
    requestInv_start
  intro s l t h bad hstep
  cases l with
  | thread a =>
      cases a with
      | receive =>
          simp only [RequestOk] at bad
          split at bad
          next => exact absurd trivial bad
          next hqueue => exact not_sound_of_receive hqueue bad hstep
      | connectDb ok =>
          cases ok with
          | false => exact not_sound_of_connectDb h bad hstep
          | true => exact absurd trivial bad
      | _ => exact absurd trivial bad
  | _ => exact absurd trivial bad

/-- Two full scans of the card are pending when the card is removed. -/
def removedTwice : List RequestLabel :=
  let card (id : Nat) (scanType : ScanType) : ScanData :=
    { id, path := some msRootPathExternal, storageType := .external, scanType }
  [.push (card 0 .all), .push (card 1 .all), .push (card 2 .invalid), .thread .receive,
    .thread .receive, .thread .receive]

theorem requests_unsound : ¬ Run.Always requestStep RequestsSound {} removedTwice := by
  decide

end MediaServer.Scan
