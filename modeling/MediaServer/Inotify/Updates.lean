import MediaServer.Inotify.Service

/-!
# Writes to known files

The end of a write to a file that the plug-ins know leads to a refresh of its item,
unless the thread takes the event for the end of a creation, or finds the path on the
list of ignored files. An entry of the list of created files stays until the next such
event of its name, and an ignored path until `ms_delete_item` meets a DRM file there.

The calls of an event are made one by one. Between them and between the events the
socket thread registers files, the scan thread stores and deletes items, and a card
may be removed. The answers of `ms_is_drm_file` belong to the moment of each call.
-/

namespace MediaServer.Inotify

/-- What one call meets outside. -/
structure CallWorld where
  /-- `ms_is_drm_file`. -/
  isDrm : Text → Bool
  /-- Another thread has the path on `reg_list`. -/
  registering : Text → Bool := fun _ => false
  /-- The plug-in accepts the file, and none of its functions fails. -/
  carriesOut : Nat → Bool

structure Service where
  inoti : Inoti := {}
  /-- The calls of the last event that are still to be made. -/
  pending : List ServiceCall := []
  /-- The items, each with the index of its plug-in. -/
  held : List (Nat × Text) := []
  /-- The list that `latest_ignore_file` holds. -/
  ignore : List Text := []
  /-- The events that got to a branch, the latest first. No step reads them. -/
  handled : List (Branch × Int × Text) := []
  /-- The operations on the ignore list, the latest first. No step reads them. -/
  ignoreOps : List IgnoreOp := []

inductive ServiceLabel where
  | event (w : World) (isDrm : Text → Bool) (e : Event)
  /-- The next call of the last event. -/
  | next (c : CallWorld)
  /-- `ms_register_file` in the socket thread. -/
  | client (path : Text) (c : CallWorld)
  /-- `ms_validate_item` or `ms_insert_item_batch` in the scan thread. -/
  | scan (path : Text) (c : CallWorld)
  /-- The scan thread deletes items of a storage. -/
  | prune (gone : Nat → Text → Bool)
  /-- `ms_mmc_removed_handler`. -/
  | mmcRemoved

/-- `ms_inoti_remove_watch_recursive`. -/
def Inoti.removeWatchRecursive (s : Inoti) (path : Text) : Inoti :=
  { s with
    watches := s.watches.filter fun node => ¬ strstr node.name path
    kernel := s.kernel.filter fun wd =>
      ∀ node ∈ s.watches, strstr node.name path → node.wd ≠ wd }

namespace Service

variable (libNum : Nat) (s : Service)

/-- `ms_check_exist` finds the item. -/
def Known (path : Text) : Prop := ∀ i < libNum, (i, path) ∈ s.held

instance (path : Text) : Decidable (s.Known libNum path) :=
  inferInstanceAs (Decidable (∀ i < libNum, (i, path) ∈ s.held))

def operate (op : IgnoreOp) : Service :=
  { s with ignore := op.onPaths s.ignore, ignoreOps := op :: s.ignoreOps }

/-- `_ms_get_mime`. -/
def getMime (c : CallWorld) (path : Text) : Service :=
  if c.isDrm path then s.operate (.add path) else s

/-- The plug-ins that carry it out insert the item. -/
def insertItem (c : CallWorld) (path : Text) : Service :=
  { s with held := s.held ++ ((List.range libNum).filter c.carriesOut).map fun i => (i, path) }

/-- One call. -/
def serve (c : CallWorld) : ServiceCall → Service
  | .register path =>
      if s.Known libNum path ∨ c.registering path then s
      else (s.getMime c path).insertItem libNum c path
  | .store path => (s.getMime c path).insertItem libNum c path
  | .delete path =>
      let s := { s with held := s.held.filter fun x => ¬ (x.2 = path ∧ c.carriesOut x.1) }
      if c.isDrm path then s.operate (.delete path) else s
  | .move srcPath dstPath =>
      let s := s.getMime c dstPath
      { s with
        held := s.held.map fun x =>
          if x.2 = srcPath ∧ c.carriesOut x.1 then (x.1, dstPath) else x }
  | .refresh path => s.getMime c path

/-- The list of ignored files answers for the world. -/
def world (w : World) : World := { w with ignored := fun path => path ∈ s.ignore }

/-- The path of an event that gets to the branch for `IN_CLOSE_WRITE`. -/
def written (w : World) (e : Event) : Option Text :=
  if s.inoti.reaches (s.world w) e ∧ branch e.mask = .fileCloseWrite then
    (s.inoti.received e).map Prod.snd
  else none

end Service

def serviceStep (libNum : Nat) (s : Service) : ServiceLabel → Option Service
  | .event w _ e =>
      if s.pending = [] then
        some
          { s with
            inoti := s.inoti.event (s.world w) e
            pending := s.inoti.serviceCalls (s.world w) e
            handled :=
              if s.inoti.reaches (s.world w) e then (branch e.mask, e.wd, e.name) :: s.handled
              else s.handled }
      else none
  | .next c =>
      match s.pending with
      | [] => none
      | call :: calls => some ({ s with pending := calls }.serve libNum c call)
  | .client path c => some (s.serve libNum c (.register path))
  | .scan path c => some (s.serve libNum c (.store path))
  | .prune gone => some { s with held := s.held.filter fun x => ¬ gone x.1 x.2 }
  | .mmcRemoved =>
      some
        { s.operate .deleteMmc with inoti := s.inoti.removeWatchRecursive msRootPathExternal }

/-- The start of the thread. -/
def Service.start (watches : List Watch) (held : List (Nat × Text)) : Service :=
  { inoti := { watches }, held }

section Frame

variable {libNum : Nat} {s t : Service}

/-- A call has no part in the thread's own state. -/
theorem serve_frame (c : CallWorld) (call : ServiceCall) :
    (s.serve libNum c call).inoti = s.inoti ∧ (s.serve libNum c call).handled = s.handled := by
  cases call with
  | register path =>
      rw [Service.serve]
      split
      · exact ⟨rfl, rfl⟩
      · rw [Service.getMime]
        split <;> exact ⟨rfl, rfl⟩
  | store path | move srcPath path | refresh path =>
      rw [Service.serve, Service.getMime]
      split <;> exact ⟨rfl, rfl⟩
  | delete path =>
      rw [Service.serve]
      split <;> exact ⟨rfl, rfl⟩

theorem written_eq_some {w : World} {e : Event} {path : Text} (h : path ∈ s.written w e) :
    s.inoti.reaches (s.world w) e = true ∧ branch e.mask = .fileCloseWrite ∧
      s.inoti.received e = some (e.name, path) := by
  rw [Service.written] at h
  split at h
  next hreaches =>
    obtain ⟨⟨name, path'⟩, hreceived, rfl⟩ := Option.map_eq_some_iff.mp h
    obtain rfl : name = e.name := (msStrcopy_name hreceived).2
    exact ⟨hreaches.1, hreaches.2, hreceived⟩
  next => cases h

/-- The only call, if any, for the end of a write. -/
theorem serviceCalls_of_written {w : World} {e : Event} {path : Text}
    (h : path ∈ s.written w e) :
    s.inoti.serviceCalls (s.world w) e =
      if s.inoti.endsCreation e e.name then [.register path]
      else if path ∈ s.ignore then [] else [.refresh path] := by
  obtain ⟨hreaches, hbranch, hreceived⟩ := written_eq_some h
  simp only [Inoti.serviceCalls, hreaches, hbranch, hreceived, if_true]
  simp only [Service.world, decide_eq_true_eq]

end Frame

/-! ### Refreshes -/

/-- A write to a file that every plug-in holds and that is not ignored leads to the call
of `ms_refresh_item`. -/
def Refreshed (libNum : Nat) (s : Service) : ServiceLabel → Prop
  | .event w _ e =>
      ∀ path ∈ s.written w e, s.Known libNum path → path ∉ s.ignore →
        .refresh path ∈ s.inoti.serviceCalls (s.world w) e
  | _ => True

instance (libNum : Nat) (s : Service) : DecidablePred (Refreshed libNum s)
  | .event w _ e =>
      inferInstanceAs (Decidable (∀ path ∈ s.written w e, s.Known libNum path → path ∉ s.ignore →
        .refresh path ∈ s.inoti.serviceCalls (s.world w) e))
  | .next _ | .client _ _ | .scan _ _ | .prune _ | .mmcRemoved => isTrue trivial

/-- The creations of a file that no later `IN_CLOSE_WRITE` event has ended. -/
def outstanding (x : Int × Text) : List (Branch × Int × Text) → Nat
  | [] => 0
  | (.fileCreate, y) :: older => outstanding x older + if y = x then 1 else 0
  | (.fileCloseWrite, y) :: older => outstanding x older - if y = x then 1 else 0
  | _ :: older => outstanding x older

/-- Every creation of the file has ended before. -/
def CreationsEnded (libNum : Nat) (s : Service) : ServiceLabel → Prop
  | .event w _ e =>
      ∀ path ∈ s.written w e, s.Known libNum path → path ∉ s.ignore →
        outstanding (e.wd, e.name) s.handled = 0
  | _ => True

section Refresh

variable {libNum : Nat} {s t : Service} {l : ServiceLabel}

theorem event_createFiles (w : World) (s : Inoti) (e : Event) :
    (s.event w e).createFiles =
      if s.reaches w e then
        match branch e.mask with
        | .fileCreate => (e.wd, e.name) :: s.createFiles
        | .fileCloseWrite => s.createFiles.erase (e.wd, e.name)
        | _ => s.createFiles
      else s.createFiles := by
  cases hreaches : s.reaches w e with
  | false => rcases event_of_not_reaches hreaches with hevent | hevent <;> rw [hevent] <;> rfl
  | true =>
      obtain ⟨name, path, hreceived, hevent⟩ := event_of_reaches hreaches
      obtain rfl : name = e.name := (msStrcopy_name hreceived).2
      rw [hevent, if_pos rfl, Inoti.handle]
      cases branch e.mask with
      | dirMovedFrom | dirDelete | fileMovedFrom | fileCreate | fileDelete | other => rfl
      | dirMovedTo =>
          cases s.renameCall e with
          | none => rfl
          | some call => exact (SameLoop.scanRenamedFolder _ s call.1 call.2).createFiles
      | dirCreate => exact (SameLoop.directoryScan _ s path).createFiles
      | fileMovedTo => exact (SameLoop.registerFile path).createFiles
      | fileCloseWrite =>
          by_cases hends : s.endsCreation e e.name
          · exact congrArg Inoti.createFiles (closeWrite_of_ends hends)
          · have hmem : (e.wd, e.name) ∉ s.createFiles := fun hmem => hends (.inl hmem)
            simp only [closeWrite_of_not_ends hends, List.erase_of_not_mem hmem]
            split <;> rfl

/-- The list of created files bears each file as often as it has creations
outstanding. -/
def CreatesCounted (s : Service) : Prop :=
  ∀ x, s.inoti.createFiles.count x = outstanding x s.handled

theorem serviceStep_createsCounted (h : CreatesCounted s)
    (hstep : serviceStep libNum s l = some t) : CreatesCounted t := by
  intro x
  cases l with
  | event w isDrm e =>
      rw [serviceStep] at hstep
      split at hstep
      next =>
        obtain rfl := Option.some.inj hstep
        simp only [event_createFiles]
        split
        next =>
          cases branch e.mask with
          | fileCreate => simp only [List.count_cons, h x, outstanding, beq_iff_eq]
          | fileCloseWrite => simp only [List.count_erase, h x, outstanding, beq_iff_eq]
          | _ => exact h x
        next => exact h x
      next => cases hstep
  | next c =>
      rw [serviceStep] at hstep
      cases hpending : s.pending with
      | nil => rw [hpending] at hstep; cases hstep
      | cons call calls =>
          rw [hpending] at hstep
          obtain rfl := Option.some.inj hstep
          simp only [serve_frame]
          exact h x
  | client path c | scan path c =>
      obtain rfl := Option.some.inj hstep
      simp only [serve_frame]
      exact h x
  | prune gone | mmcRemoved =>
      obtain rfl := Option.some.inj hstep
      exact h x

theorem endsCreation_iff {e : Event} (h : CreatesCounted s) :
    s.inoti.endsCreation e e.name ↔ outstanding (e.wd, e.name) s.handled ≠ 0 := by
  have hmask : ¬ (s.inoti.prevMask &&& inIsDir) &&& inCreate ≠ 0 :=
    not_not_intro (prevMask_test s.inoti.prevMask)
  rw [Inoti.endsCreation, or_iff_left hmask, ← h, ← List.count_pos_iff, Nat.pos_iff_ne_zero]

theorem refreshed_iff (h : CreatesCounted s) :
    Refreshed libNum s l ↔ CreationsEnded libNum s l := by
  cases l with
  | event w isDrm e =>
      refine forall₂_congr fun path hpath => forall₂_congr fun _ hignore => ?_
      rw [serviceCalls_of_written hpath, if_neg hignore]
      by_cases hends : s.inoti.endsCreation e e.name
      · have hout := (endsCreation_iff h).mp hends
        simp [hends, hout]
      · have hout := not_imp_comm.mp (endsCreation_iff h).mpr hends
        simp [hends, hout]
  | _ => exact Iff.rfl

end Refresh

/-- A known file is refreshed after each write exactly when all its creations have ended
before. -/
theorem refreshed_iff_creationsEnded (libNum : Nat) (watches : List Watch)
    (held : List (Nat × Text)) (labels : List ServiceLabel) :
    Run.EachStep (serviceStep libNum) (Refreshed libNum) (.start watches held) labels ↔
      Run.EachStep (serviceStep libNum) (CreationsEnded libNum) (.start watches held) labels :=
  Run.eachStep_congr_of_step (I := CreatesCounted)
    (fun _ _ _ h hstep => serviceStep_createsCounted h hstep) (fun _ _ h => refreshed_iff h)
    (fun _ => rfl)

/-- An event of a file in `/opt/media`, which has the descriptor 1. -/
def fileEvent (mask : Nat) (name : Text) (h : name.length < 16) : Event :=
  { wd := 1, mask, cookie := 0, len := 16, name, terminated := terminated_of_short h }

/-- A client registers a file between its creation and the end of the first write to
it. -/
theorem refresh_lost :
    ¬ Run.EachStep (serviceStep 1) (Refreshed 1) (.start [⟨msRootPathInternal, 1⟩] [])
      [.event closedWorld (fun _ => false) (fileEvent inCreate "a".toList (by decide)),
        .client "/opt/media/a".toList ⟨fun _ => false, fun _ => false, fun _ => true⟩,
        .event closedWorld (fun _ => false) (fileEvent inCloseWrite "a".toList (by decide))] := by
  decide

/-! ### Ignored files -/

/-- The path of an `IN_CLOSE_WRITE` event that is skipped because the list of ignored
files bears it. -/
def Service.skipped (s : Service) (w : World) (e : Event) : Option Text :=
  (s.written w e).filter fun path => ¬ s.inoti.endsCreation e e.name ∧ path ∈ s.ignore

/-- A file whose event is skipped is a DRM file. -/
def SkipsDrmOnly (s : Service) : ServiceLabel → Prop
  | .event w isDrm e => ∀ path ∈ s.skipped w e, isDrm path
  | _ => True

instance (s : Service) : DecidablePred (SkipsDrmOnly s)
  | .event w isDrm e => inferInstanceAs (Decidable (∀ path ∈ s.skipped w e, isDrm path))
  | .next _ | .client _ _ | .scan _ _ | .prune _ | .mmcRemoved => isTrue trivial

/-- The operation takes the path off the list. -/
def TakesOff (path : Text) : IgnoreOp → Prop
  | .add _ | .find _ => False
  | .delete path' => path' = path
  | .deleteMmc => onCard path

/-- A DRM file was met at the path, and nothing has taken the path off since: no
`ms_delete_item` met a DRM file there, and no card with it was removed. -/
def StillListed (path : Text) (ops : List IgnoreOp) : Prop :=
  ∃ newer older, ops = newer ++ .add path :: older ∧ ∀ op ∈ newer, ¬ TakesOff path op

/-- Where a file is written that is no DRM file, none is still listed. -/
def DrmUnlisted (s : Service) : ServiceLabel → Prop
  | .event w isDrm e =>
      ∀ path ∈ s.written w e, ¬ s.inoti.endsCreation e e.name → ¬ isDrm path →
        ¬ StillListed path s.ignoreOps
  | _ => True

section Ignore

variable {libNum : Nat} {s t : Service} {l : ServiceLabel} {path : Text}

theorem mem_skipped {w : World} {e : Event} :
    path ∈ s.skipped w e ↔
      path ∈ s.written w e ∧ ¬ s.inoti.endsCreation e e.name ∧ path ∈ s.ignore := by
  simp [Service.skipped]

/-- A skipped event leads to no call. -/
theorem serviceCalls_of_skipped {w : World} {e : Event} (h : path ∈ s.skipped w e) :
    s.inoti.serviceCalls (s.world w) e = [] := by
  obtain ⟨hwritten, hends, hignore⟩ := mem_skipped.mp h
  rw [serviceCalls_of_written hwritten, if_neg hends, if_pos hignore]

theorem stillListed_cons {op : IgnoreOp} {ops : List IgnoreOp} :
    StillListed path (op :: ops) ↔
      op = .add path ∨ (StillListed path ops ∧ ¬ TakesOff path op) := by
  constructor
  · rintro ⟨newer, older, heq, hkeeps⟩
    cases newer with
    | nil => exact .inl (List.cons.inj heq).1
    | cons first newer =>
        obtain ⟨rfl, htail⟩ := List.cons.inj heq
        exact .inr ⟨⟨newer, older, htail, fun op hop => hkeeps op (List.mem_cons_of_mem _ hop)⟩,
          hkeeps _ List.mem_cons_self⟩
  · rintro (rfl | ⟨⟨newer, older, rfl, hkeeps⟩, hop⟩)
    · exact ⟨[], ops, rfl, nofun⟩
    · exact ⟨op :: newer, older, rfl, List.forall_mem_cons.mpr ⟨hop, hkeeps⟩⟩

theorem mem_onPaths {paths : List Text} (h : paths.Nodup) (op : IgnoreOp) :
    path ∈ op.onPaths paths ↔ op = .add path ∨ (path ∈ paths ∧ ¬ TakesOff path op) := by
  cases op with
  | add path' =>
      rw [IgnoreOp.onPaths]
      by_cases hpath : path = path'
      · subst hpath
        split <;> simp [*]
      · have hne : path' ≠ path := Ne.symm hpath
        split <;> simp [TakesOff, hpath, hne]
  | find path' => simp [IgnoreOp.onPaths, TakesOff]
  | delete path' =>
      simp only [IgnoreOp.onPaths, h.mem_erase_iff, TakesOff, reduceCtorEq, false_or, ne_comm,
        and_comm, ne_eq]
  | deleteMmc => simp [IgnoreOp.onPaths, TakesOff]

theorem nodup_onPaths {paths : List Text} (h : paths.Nodup) (op : IgnoreOp) :
    (op.onPaths paths).Nodup := by
  cases op with
  | add path =>
      rw [IgnoreOp.onPaths]
      split
      next => exact h
      next hnot => exact List.nodup_cons.mpr ⟨hnot, h⟩
  | find path => exact h
  | delete path => exact h.erase path
  | deleteMmc => exact h.filter _

/-- The list of ignored files bears what its history says, once. -/
structure IgnoreReplayed (s : Service) : Prop where
  nodup : s.ignore.Nodup
  mem_iff : ∀ path, path ∈ s.ignore ↔ StillListed path s.ignoreOps

theorem IgnoreReplayed.congr (h : IgnoreReplayed s) (hignore : t.ignore = s.ignore)
    (hops : t.ignoreOps = s.ignoreOps) : IgnoreReplayed t where
  nodup := hignore ▸ h.nodup
  mem_iff path := by rw [hignore, hops, h.mem_iff]

theorem IgnoreReplayed.operate (h : IgnoreReplayed s) (op : IgnoreOp) :
    IgnoreReplayed (s.operate op) where
  nodup := nodup_onPaths h.nodup op
  mem_iff path := by
    rw [Service.operate, mem_onPaths h.nodup, h.mem_iff, stillListed_cons]

theorem IgnoreReplayed.getMime (h : IgnoreReplayed s) (c : CallWorld) (path : Text) :
    IgnoreReplayed (s.getMime c path) := by
  rw [Service.getMime]
  split
  · exact h.operate _
  · exact h

theorem IgnoreReplayed.serve (h : IgnoreReplayed s) (c : CallWorld) (call : ServiceCall) :
    IgnoreReplayed (s.serve libNum c call) := by
  cases call with
  | register path =>
      rw [Service.serve]
      split
      · exact h
      · exact (h.getMime c path).congr rfl rfl
  | store path => exact (h.getMime c path).congr rfl rfl
  | delete path =>
      rw [Service.serve]
      split
      · exact (h.operate (.delete path)).congr rfl rfl
      · exact h.congr rfl rfl
  | move srcPath dstPath => exact (h.getMime c dstPath).congr rfl rfl
  | refresh path => exact h.getMime c path

theorem serviceStep_ignoreReplayed (h : IgnoreReplayed s)
    (hstep : serviceStep libNum s l = some t) : IgnoreReplayed t := by
  cases l with
  | event w isDrm e =>
      rw [serviceStep] at hstep
      split at hstep
      next => exact Option.some.inj hstep ▸ h.congr rfl rfl
      next => cases hstep
  | next c =>
      rw [serviceStep] at hstep
      cases hpending : s.pending with
      | nil => rw [hpending] at hstep; cases hstep
      | cons call calls =>
          rw [hpending] at hstep
          obtain rfl := Option.some.inj hstep
          exact (h.congr (t := { s with pending := calls }) rfl rfl).serve c call
  | client path c | scan path c =>
      obtain rfl := Option.some.inj hstep
      exact h.serve c _
  | prune gone => exact Option.some.inj hstep ▸ h.congr rfl rfl
  | mmcRemoved =>
      obtain rfl := Option.some.inj hstep
      exact (h.operate .deleteMmc).congr rfl rfl

theorem skipsDrmOnly_iff (h : IgnoreReplayed s) : SkipsDrmOnly s l ↔ DrmUnlisted s l := by
  cases l with
  | event w isDrm e =>
      simp only [SkipsDrmOnly, DrmUnlisted, mem_skipped, h.mem_iff]
      constructor
      · intro hdrm path hwritten hends hnot hlisted
        exact hnot (hdrm path ⟨hwritten, hends, hlisted⟩)
      · rintro hdrm path ⟨hwritten, hends, hlisted⟩
        by_contra hnot
        exact hdrm path hwritten hends hnot hlisted
  | _ => exact Iff.rfl

end Ignore

/-- Skipped files are DRM files exactly when no other file is written where a DRM file
is still listed. -/
theorem skipsDrmOnly_iff_drmUnlisted (libNum : Nat) (watches : List Watch)
    (held : List (Nat × Text)) (labels : List ServiceLabel) :
    Run.EachStep (serviceStep libNum) SkipsDrmOnly (.start watches held) labels ↔
      Run.EachStep (serviceStep libNum) DrmUnlisted (.start watches held) labels :=
  Run.eachStep_congr_of_step (I := IgnoreReplayed)
    (fun _ _ _ h hstep => serviceStep_ignoreReplayed h hstep) (fun _ _ h => skipsDrmOnly_iff h)
    ⟨List.nodup_nil, fun _ => iff_of_false List.not_mem_nil fun ⟨_, _, heq, _⟩ =>
      nomatch List.nil_eq_append_iff.mp heq⟩

/-- A DRM file is deleted, and with it what `ms_is_drm_file` would need to see; another
file takes its place and is written. -/
theorem skips_plain_file :
    ¬ Run.EachStep (serviceStep 1) SkipsDrmOnly (.start [⟨msRootPathInternal, 1⟩] [])
      [.client "/opt/media/a".toList ⟨fun _ => true, fun _ => false, fun _ => true⟩,
        .event closedWorld (fun _ => false) (fileEvent inDelete "a".toList (by decide)),
        .next ⟨fun _ => false, fun _ => false, fun _ => true⟩,
        .event closedWorld (fun _ => false) (fileEvent inMovedTo "a".toList (by decide)),
        .next ⟨fun _ => false, fun _ => false, fun _ => true⟩,
        .event closedWorld (fun _ => false) (fileEvent inCloseWrite "a".toList (by decide))] := by
  decide

end MediaServer.Inotify
