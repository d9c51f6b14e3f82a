import MediaServer.Foundation.Run
import MediaServer.Inotify.Frame

/-!
# The two halves of a rename

The kernel gives the two events of one rename the same cookie. The thread does
not look at it: it joins an `IN_MOVED_TO` event of a directory with whatever the
last such `IN_MOVED_FROM` event left in `prev_wd` and `prev_name`. Another rename,
or the end of a write to a file, may have come in between.
-/

namespace MediaServer.Inotify

namespace Inoti

variable (w : World) (s : Inoti) (e : Event)

/-- The event gets to the branches. -/
def reaches : Bool :=
  ¬ s.stopped ∧ ¬ w.powerOff ∧ e.name ≠ "_POWER_OFF".toList ∧
    e.name ≠ "_FILEOPERATION_END".toList ∧ (s.received e).isSome

/-- The call of `_ms_inoti_scan_renamed_folder` that the event causes. -/
def calls : Option (Text × Text) := if s.reaches w e then s.renameCall e else none

end Inoti

/-- What an event does with `prev_wd` and `prev_name`. -/
inductive SlotUse where
  | sets
  | clears
  | keeps
deriving DecidableEq, Repr

def slotUse (w : World) (s : Inoti) (e : Event) : SlotUse :=
  if s.reaches w e then
    match branch e.mask with
    | .dirMovedFrom => .sets
    | .dirMovedTo => if (s.renameCall e).isSome then .clears else .keeps
    | .fileCloseWrite =>
        if (s.received e).any fun (name, path) =>
          (e.wd, name) ∉ s.createFiles ∧ ¬ w.ignored path ∧ w.refreshFails path
        then .keeps else .clears
    | _ => .keeps
  else .keeps

/-- The thread with the events it has received, the latest first. -/
structure Traced where
  inoti : Inoti := {}
  history : List (Event × SlotUse) := []

def tracedStep (t : Traced) : World × Event → Option Traced
  | (w, e) => some
      { inoti := t.inoti.event w e
        history := (e, slotUse w t.inoti e) :: t.history }

/-- `m` has set the slot, and no event has touched it since. -/
def Pending (history : List (Event × SlotUse)) (m : Event) : Prop :=
  ∃ newer older, history = newer ++ (m, .sets) :: older ∧ ∀ x ∈ newer, x.2 = .keeps

/-- A call for an event joins it with an earlier event of the same cookie, at the
path of that event's directory and name. -/
def Paired (t : Traced) (x : World × Event) : Prop :=
  ∀ call ∈ t.inoti.calls x.1 x.2,
    ∃ m ∈ t.history.map Prod.fst, branch m.mask = .dirMovedFrom ∧ m.cookie = x.2.cookie ∧
      ∃ node ∈ t.inoti.watches, node.wd = m.wd ∧ call.1 = node.name ++ '/' :: m.name

instance (t : Traced) : DecidablePred (Paired t) := fun x =>
  inferInstanceAs (Decidable (∀ call ∈ t.inoti.calls x.1 x.2,
    ∃ m ∈ t.history.map Prod.fst, branch m.mask = .dirMovedFrom ∧ m.cookie = x.2.cookie ∧
      ∃ node ∈ t.inoti.watches, node.wd = m.wd ∧ call.1 = node.name ++ '/' :: m.name))

/-- The event that set the slot last belongs to the same rename, its directory is
still watched, and the path is not too long for the buffer. -/
def SlotMatches (t : Traced) (x : World × Event) : Prop :=
  (t.inoti.calls x.1 x.2).isSome → ∃ m, Pending t.history m ∧ m.cookie = x.2.cookie ∧
    ∃ node, Inoti.findNode m.wd t.inoti.watches = some node ∧ node.wd = m.wd ∧
      (node.name ++ '/' :: m.name).length ≤ msFilePathLenMax - 2

section Slot

/-- A step of a walker leaves `prev_wd` and `prev_name` alone. -/
def SameSlot (s t : Inoti) : Prop := t.prevWd = s.prevWd ∧ t.prevName = s.prevName

theorem SameSlot.refl (s : Inoti) : SameSlot s s := ⟨rfl, rfl⟩

variable {w : World} {s : Inoti} {e : Event}

theorem SameLoop.sameSlot {t : Inoti} (h : SameLoop s t) : SameSlot s t :=
  ⟨h.prevWd, h.prevName⟩

/-- `IN_ISDIR` and `IN_CREATE` are different bits. -/
theorem prevMask_test (mask : Nat) : (mask &&& inIsDir) &&& inCreate = 0 := by
  rw [Nat.and_assoc]
  exact Nat.and_zero mask

/-- A name that gets to the branches is copied whole. -/
theorem msStrcopy_name {name path : Text} (h : s.received e = some (name, path)) :
    msStrcopy (msFileNameLenMax + 1) e.name = some e.name ∧ name = e.name := by
  rw [Inoti.received] at h
  split at h
  next => cases h
  next =>
    split at h
    next hlen =>
      have hname : e.name.length ≤ msFileNameLenMax - 1 := by
        cases e.terminated with
        | inl hlt => exact Nat.le_sub_one_of_lt (Nat.lt_of_lt_of_le hlt hlen.2)
        | inr hzero => exact absurd hzero hlen.1
      have hcopy : msStrcopy (msFileNameLenMax + 1) e.name = some e.name := by
        rw [msStrcopy, if_pos (by omega), List.take_of_length_le (by omega)]
      rw [hcopy, Option.bind_some] at h
      obtain ⟨p, -, heq⟩ := Option.map_eq_some_iff.mp h
      exact ⟨hcopy, (Prod.mk.inj heq).1.symm⟩
    next => cases h

theorem event_of_not_reaches (h : s.reaches w e = false) :
    s.event w e = s ∨ s.event w e = s.leave := by
  simp only [Inoti.reaches, decide_eq_false_iff_not] at h
  rw [Inoti.event]
  by_cases hstop : s.stopped = true
  · rw [if_pos hstop]
    exact .inl rfl
  · by_cases hoff : w.powerOff = true ∨ e.name = "_POWER_OFF".toList
    · rw [if_neg hstop, if_pos hoff]
      exact .inr rfl
    · by_cases hend : e.name = "_FILEOPERATION_END".toList
      · rw [if_neg hstop, if_neg hoff, if_pos hend]
        exact .inl rfl
      · rw [if_neg hstop, if_neg hoff, if_neg hend]
        rw [not_or] at hoff
        cases hreceived : s.received e with
        | none => exact .inl rfl
        | some received => exact absurd ⟨hstop, hoff.1, hoff.2, hend, by rw [hreceived]; rfl⟩ h

theorem event_of_reaches (h : s.reaches w e = true) :
    ∃ name path, s.received e = some (name, path) ∧ s.event w e = s.handle w e name path := by
  simp only [Inoti.reaches, decide_eq_true_eq] at h
  obtain ⟨hstop, hoff, hpower, hend, hreceived⟩ := h
  obtain ⟨⟨name, path⟩, hreceived⟩ := Option.isSome_iff_exists.mp hreceived
  refine ⟨name, path, hreceived, ?_⟩
  rw [Inoti.event, if_neg hstop, if_neg (not_or.mpr ⟨hoff, hpower⟩), if_neg hend, hreceived]

/-- What happens to the slot is what `slotUse` says. -/
theorem event_slot (w : World) (s : Inoti) (e : Event) :
    match slotUse w s e with
    | .sets => branch e.mask = .dirMovedFrom ∧ (s.event w e).prevWd = e.wd ∧
        (s.event w e).prevName = e.name
    | .keeps => SameSlot s (s.event w e)
    | .clears => True := by
  cases hreaches : s.reaches w e with
  | false =>
      simp only [slotUse, hreaches, Bool.false_eq_true, if_false]
      rcases event_of_not_reaches hreaches with hevent | hevent <;> rw [hevent]
      · exact .refl s
      · exact ⟨rfl, rfl⟩
  | true =>
      obtain ⟨name, path, hreceived, hevent⟩ := event_of_reaches hreaches
      simp only [slotUse, hreaches, if_true, hevent, Inoti.handle]
      cases hbranch : branch e.mask with
      | dirMovedFrom => exact ⟨rfl, rfl, by rw [(msStrcopy_name hreceived).1]; rfl⟩
      | dirMovedTo =>
          cases hcall : s.renameCall e with
          | none => exact .refl s
          | some call => trivial
      | dirCreate => exact (SameLoop.directoryScan _ s path).sameSlot
      | dirDelete | fileMovedFrom | fileCreate | fileDelete => exact ⟨rfl, rfl⟩
      | fileMovedTo => exact (SameLoop.registerFile path).sameSlot
      | fileCloseWrite =>
          have hname : name = e.name := (msStrcopy_name hreceived).2
          by_cases hfails : (e.wd, name) ∉ s.createFiles ∧ ¬ w.ignored path ∧ w.refreshFails path
          · simp only [hreceived, Option.any_some, decide_eq_true hfails, if_true]
            rw [Inoti.closeWrite, if_neg, if_pos hfails.2]
            · exact .refl s
            · rintro (hmem | hmask)
              · exact hfails.1 hmem
              · exact hmask (prevMask_test s.prevMask)
          · simp only [hreceived, Option.any_some, decide_eq_false hfails, Bool.false_eq_true,
              if_false]
      | other => exact .refl s

/-- The slot holds the event that is pending. -/
def SlotInv (t : Traced) : Prop :=
  ∀ m, Pending t.history m → branch m.mask = .dirMovedFrom ∧ t.inoti.prevWd = m.wd ∧
    t.inoti.prevName = m.name

theorem pending_cons {use : SlotUse} {history : List (Event × SlotUse)} {m : Event}
    (h : Pending ((e, use) :: history) m) :
    (use = .sets ∧ e = m) ∨ (use = .keeps ∧ Pending history m) := by
  obtain ⟨newer, older, heq, hkeeps⟩ := h
  cases newer with
  | nil =>
      obtain ⟨hhead, -⟩ := List.cons.inj heq
      exact .inl ⟨(Prod.mk.inj hhead).2, (Prod.mk.inj hhead).1⟩
  | cons x newer =>
      obtain ⟨rfl, htail⟩ := List.cons.inj heq
      exact .inr ⟨hkeeps _ List.mem_cons_self, newer, older, htail,
        fun y hy => hkeeps y (List.mem_cons_of_mem _ hy)⟩

theorem tracedStep_inv {t t' : Traced} {x : World × Event} (h : SlotInv t)
    (hstep : tracedStep t x = some t') : SlotInv t' := by
  obtain rfl := Option.some.inj hstep
  intro m hm
  have hslot := event_slot x.1 t.inoti x.2
  rcases pending_cons hm with ⟨huse, rfl⟩ | ⟨huse, hold⟩
  · rw [huse] at hslot
    exact hslot
  · rw [huse] at hslot
    obtain ⟨hbranch, hwd, hname⟩ := h m hold
    exact ⟨hbranch, hslot.1.trans hwd, hslot.2.trans hname⟩

theorem mem_of_findNode {wd : Int} {watches : List Watch} {node : Watch}
    (h : Inoti.findNode wd watches = some node) : node ∈ watches := by
  induction watches with
  | nil => cases h
  | cons head rest ih =>
      cases rest with
      | nil => exact Option.some.inj h ▸ List.mem_singleton_self _
      | cons next rest =>
          rw [Inoti.findNode] at h
          split at h
          · exact Option.some.inj h ▸ List.mem_cons_self
          · exact List.mem_cons_of_mem _ (ih h)

theorem findNode_of_mem {wd : Int} {watches : List Watch} (h : ∃ node ∈ watches, node.wd = wd) :
    ∃ node ∈ watches, node.wd = wd ∧ Inoti.findNode wd watches = some node := by
  induction watches with
  | nil =>
      obtain ⟨node, hnode, -⟩ := h
      cases hnode
  | cons head rest ih =>
      cases rest with
      | nil =>
          obtain ⟨node, hnode, hwd⟩ := h
          obtain rfl := List.mem_singleton.mp hnode
          exact ⟨node, hnode, hwd, rfl⟩
      | cons next rest =>
          rw [Inoti.findNode]
          by_cases hwd : wd = head.wd
          · exact ⟨head, List.mem_cons_self, hwd.symm, if_pos hwd⟩
          · rw [if_neg hwd]
            obtain ⟨node, hnode, hnodeWd⟩ := h
            rcases List.mem_cons.mp hnode with rfl | hnode
            · exact absurd hnodeWd.symm hwd
            · obtain ⟨found, hfound, hfoundWd, hfind⟩ := ih ⟨node, hnode, hnodeWd⟩
              exact ⟨found, List.mem_cons_of_mem _ hfound, hfoundWd, hfind⟩

theorem getFullPath_of_call {call : Text × Text} (h : call ∈ s.calls w e) :
    s.getFullPath s.prevWd s.prevName = some call.1 := by
  rw [Inoti.calls] at h
  split at h
  next =>
    rw [Inoti.renameCall] at h
    split at h
    next =>
      obtain ⟨pathFrom, hpath, rfl⟩ := Option.map_eq_some_iff.mp h
      exact hpath
    next => cases h
  next => cases h

/-- A matching slot gives the call the path of its own rename. -/
theorem paired_of_slotMatches {t : Traced} {x : World × Event} (h : SlotInv t)
    (good : SlotMatches t x) : Paired t x := by
  intro call hcall
  obtain ⟨m, hm, hcookie, node, hnode, hwd, hlen⟩ := good (Option.isSome_of_mem hcall)
  obtain ⟨hbranch, hprevWd, hprevName⟩ := h m hm
  obtain ⟨newer, older, hhistory, -⟩ := hm
  refine ⟨m, ?_, hbranch, hcookie, node, mem_of_findNode hnode, hwd, ?_⟩
  · rw [hhistory]
    simp
  · have hpath := getFullPath_of_call hcall
    rw [hprevWd, hprevName, Inoti.getFullPath, hnode, Option.bind_some, msStrappend] at hpath
    split at hpath
    next =>
      rw [List.take_of_length_le hlen] at hpath
      exact (Option.some.inj hpath).symm
    next => cases hpath

end Slot

/-- In every run whose calls find a matching slot, the calls join the two events
of one rename. -/
theorem renames_paired (inoti : Inoti) (events : List (World × Event))
    (good : Run.EachStep tracedStep SlotMatches { inoti } events) :
    Run.EachStep tracedStep Paired { inoti } events :=
  Run.eachStep_of_eachStep (I := SlotInv) (G := SlotMatches)
    (fun _ _ _ h _ hstep => tracedStep_inv h hstep)
    (fun _ _ _ h hgood _ => paired_of_slotMatches h hgood)
    (fun m hm => by
      obtain ⟨newer, older, heq, -⟩ := hm
      cases newer <;> cases heq) good

/-- A file system in which nothing can be opened. -/
def closedWorld : World where
  fs := { entries := fun _ => [], opens := fun _ => false }
  inotifyAddWatch := fun _ => 0

theorem terminated_of_short {name : Text} (h : name.length < 16) :
    name.length < 16 ∨ 16 = 0 := .inl h

/-- A directory event below `/opt/media`. -/
def dirEvent (mask cookie : Nat) (name : Text) (h : name.length < 16) : World × Event :=
  (closedWorld,
    { wd := 1, mask := inIsDir ||| mask, cookie, len := 16, name, terminated := terminated_of_short h })

def watchedRoot : Inoti := { watches := [⟨msRootPathInternal, 1⟩] }

theorem renames_paired_adjacent :
    Run.EachStep tracedStep Paired { inoti := watchedRoot }
      [dirEvent inMovedFrom 7 "a".toList (by decide),
        dirEvent inMovedTo 7 "b".toList (by decide)] := by
  refine renames_paired _ _ ?_
  rintro _ ⟨⟩
  refine ⟨fun h => absurd h (by decide), ?_⟩
  rintro _ ⟨⟩
  refine ⟨fun _ => ⟨(dirEvent inMovedFrom 7 "a".toList (by decide)).2, ⟨[], [], ?_, nofun⟩, rfl,
    ⟨msRootPathInternal, 1⟩, rfl, rfl, by decide⟩, trivial⟩
  decide

/-- A directory is moved out of the tree, and another one into it. -/
theorem renames_mispaired :
    ¬ Run.EachStep tracedStep Paired { inoti := watchedRoot }
      [dirEvent inMovedFrom 1 "a".toList (by decide),
        dirEvent inMovedTo 2 "b".toList (by decide)] := by
  decide

end MediaServer.Inotify
