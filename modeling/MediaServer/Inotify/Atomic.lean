import MediaServer.Foundation.Refinement
import MediaServer.Inotify.Rest

/-!
# Events handled at once

`Sys.step` lets the thread handle all events of an operation before the next one, and takes
a scan as one step, in the order of the directory. When nothing disturbs the thread that is
what it does, system call by system call.
-/

namespace MediaServer.Inotify

open Scan

/-! ### The order of the directory -/

section Children

variable {t : Tree} {p : Path}

theorem nodup_named {l : List Path} (h : l.Nodup) (dType : Nat) :
    (l.filterMap fun q => (Tree.childName p q).map fun name => (⟨name, dType⟩ : Dirent)).Nodup := by
  refine h.filterMap fun q q' e he he' => ?_
  obtain ⟨name, hname, rfl⟩ := Option.map_eq_some_iff.mp he
  obtain ⟨name', hname', heq⟩ := Option.map_eq_some_iff.mp he'
  have hsame : name' = name := congrArg Dirent.name heq
  rw [Tree.eq_concat_of_childName hname, Tree.eq_concat_of_childName hname', hsame]

theorem nodup_children (wf : t.Wf) (hfiles : t.files.Nodup) : (t.children p).Nodup := by
  refine List.Nodup.append ?_ (nodup_named hfiles dtReg) ?_
  · have hdirs := nodup_named (p := p) wf.dirsNodup dtDir
    rwa [List.filterMap_map] at hdirs
  · intro e he he'
    obtain ⟨d, -, hd⟩ := List.mem_filterMap.mp he
    obtain ⟨q, -, hq⟩ := List.mem_filterMap.mp he'
    obtain ⟨name, -, rfl⟩ := Option.map_eq_some_iff.mp hd
    obtain ⟨name', -, heq⟩ := Option.map_eq_some_iff.mp hq
    have htype : dtReg = dtDir := congrArg Dirent.dType heq
    exact absurd htype (by decide)

end Children

/-! ### A scan -/

/-- What `_ms_inoti_directory_scan_and_register_file` does for an entry. -/
def Inoti.scanEntry (w : World) (depth : Nat) (dirPath : Text) (s : Inoti) (ent : Dirent) :
    Inoti :=
  if ent.hidden then s
  else
    match msStrappend dirPath ent.name with
    | none => s
    | some path =>
        if ent.dType = dtDir then s.directoryScanAndRegisterFile w depth path
        else s.registerFile path

section Scans

variable {t : Tree} {p : Path} {w : World} {depth : Nat} {i : Inoti} {path : Text}
variable {s : Growth} {scanner scanner' : Scanner} {calls : List Visiting} {call : Visiting}
variable {next : Option Dirent}

theorem directoryScan_of_opendir {entries : List Dirent} (h : w.fs.opendir path = some entries) :
    i.directoryScanAndRegisterFile w (depth + 1) path =
      entries.foldl (Inoti.scanEntry w depth path) (i.addWatch w path) := by
  rw [Inoti.directoryScanAndRegisterFile, h]
  rfl

theorem directoryScan_of_closed (h : w.fs.opendir path = none) :
    i.directoryScanAndRegisterFile w (depth + 1) path = i := by
  rw [Inoti.directoryScanAndRegisterFile, h]

theorem alone_visit (hcalls : scanner.calls = call :: calls)
    (hvisit : scanner.visit s.tree.world next calls call = some scanner') :
    Growth.alone { s with server := .running scanner } next =
      some { s with server := .running scanner' } := by
  simp only [Growth.alone, Growth.step, Party.step, hcalls, hvisit, Option.map_some]

/-- Undisturbed, the thread gets from one point of its scan to the other. -/
def Goes (s : Growth) (scanner scanner' : Scanner) : Prop :=
  ∃ entries, Run.exec Growth.alone { s with server := .running scanner } entries =
    some { s with server := .running scanner' }

theorem Goes.refl (s : Growth) (scanner : Scanner) : Goes s scanner scanner := ⟨[], rfl⟩

theorem Goes.visit (hcalls : scanner.calls = call :: calls)
    (hvisit : scanner.visit s.tree.world next calls call = some scanner') :
    Goes s scanner scanner' := by
  refine ⟨[next], ?_⟩
  rw [Run.exec_cons, alone_visit hcalls hvisit]
  rfl

theorem Goes.trans {scanner'' : Scanner} (first : Goes s scanner scanner')
    (second : Goes s scanner' scanner'') : Goes s scanner scanner'' := by
  obtain ⟨entries, hfirst⟩ := first
  obtain ⟨entries', hsecond⟩ := second
  refine ⟨entries ++ entries', ?_⟩
  rw [Run.exec_append, hfirst]
  exact hsecond

/-- Undisturbed, the activation for the directory is the scan at once. -/
def ScansAtOnce (s : Growth) (depth : Nat) (p : Path) : Prop :=
  ∀ (scanner : Scanner) (calls : List Visiting), scanner.calls = .entered (text p) :: calls →
    Goes s scanner ({ scanner with
      inoti := scanner.inoti.directoryScanAndRegisterFile s.tree.world depth (text p) }.ret calls)

/-- After an entry, and the scan of it where it is a directory, the stream goes on. -/
theorem goes_entry (fits : ∀ d ∈ s.tree.dirs, Fits d.1)
    (hsub : ∀ name, s.tree.IsDir (p ++ [name]) → ScansAtOnce s depth (p ++ [name]))
    {e : Dirent} (hmem : e ∈ s.tree.children p) {entries returned : List Dirent} :
    Goes s (scanner.entry ⟨text p, entries, returned⟩ e calls)
      { scanner with
        inoti := scanner.inoti.scanEntry s.tree.world depth (text p) e
        calls := .reading ⟨text p, entries, returned⟩ :: calls } := by
  by_cases hhidden : e.hidden
  · simp only [Scanner.entry, Inoti.scanEntry, hhidden, if_true]
    exact .refl _ _
  cases happend : msStrappend (text p) e.name with
  | none =>
      simp only [Scanner.entry, Inoti.scanEntry, hhidden, Bool.false_eq_true, if_false, happend]
      exact .refl _ _
  | some path =>
      by_cases htype : e.dType = dtDir
      · simp only [Scanner.entry, Inoti.scanEntry, hhidden, Bool.false_eq_true, if_false,
          happend, htype, if_true]
        obtain ⟨id, hid⟩ : s.tree.IsDir (p ++ [e.name]) := by
          rcases Tree.mem_children.mp hmem with ⟨hsubdir, -⟩ | ⟨-, hreg⟩
          · exact hsubdir
          · rw [hreg] at htype
            exact absurd htype (by decide)
        obtain rfl : text (p ++ [e.name]) = path :=
          Option.some.inj ((msStrappend_text (fits _ hid)).symm.trans happend)
        exact hsub e.name ⟨id, hid⟩ { scanner with
          calls := .entered (text (p ++ [e.name])) :: .reading ⟨text p, entries, returned⟩ ::
            calls } _ rfl
      · simp only [Scanner.entry, Inoti.scanEntry, hhidden, Bool.false_eq_true, if_false,
          happend, htype]
        exact .refl _ _

/-- The stream goes on from entry to entry. -/
theorem goes_stream (hfiles : s.tree.files.Nodup) (fits : ∀ d ∈ s.tree.dirs, Fits d.1)
    (hdir : s.tree.IsDir p)
    (hsub : ∀ name, s.tree.IsDir (p ++ [name]) → ScansAtOnce s depth (p ++ [name]))
    {rest done : List Dirent} (hrest : s.tree.children p = done ++ rest) (scanner : Scanner)
    (hcalls : scanner.calls = .reading ⟨text p, s.tree.children p, done⟩ :: calls) :
    Goes s scanner ({ scanner with
      inoti := rest.foldl (Inoti.scanEntry s.tree.world depth (text p)) scanner.inoti
      }.ret calls) := by
  induction rest generalizing done scanner with
  | nil =>
      rw [List.append_nil] at hrest
      have hvisit : scanner.visit s.tree.world none calls
          (.reading ⟨text p, s.tree.children p, done⟩) = some (scanner.ret calls) := by
        rw [Scanner.visit, Dir.readdir, if_pos (by rw [hrest]; exact fun e he => he)]
        rfl
      exact .visit hcalls hvisit
  | cons e rest ih =>
      have hmem : e ∈ s.tree.children p := by
        rw [hrest]
        exact List.mem_append_right _ List.mem_cons_self
      have hnew : e ∉ done := by
        have hnodup := nodup_children (p := p) s.wf hfiles
        rw [hrest] at hnodup
        exact fun hold => (List.nodup_append.mp hnodup).2.2 e hold e List.mem_cons_self rfl
      have hrest' : s.tree.children p = (done ++ [e]) ++ rest := by
        rw [hrest, List.append_assoc, List.singleton_append]
      have hvisit : scanner.visit s.tree.world (some e) calls
          (.reading ⟨text p, s.tree.children p, done⟩) =
            some (scanner.entry ⟨text p, s.tree.children p, done ++ [e]⟩ e calls) := by
        rw [Scanner.visit, Dir.readdir, if_pos ⟨by rwa [entries_text s.wf hdir], hnew⟩]
        rfl
      exact (Goes.visit hcalls hvisit).trans ((goes_entry fits hsub hmem).trans (ih hrest' _ rfl))

/-- A scan that nobody disturbs is the scan at once. -/
theorem scansAtOnce (hfiles : s.tree.files.Nodup) (fits : ∀ d ∈ s.tree.dirs, Fits d.1)
    (hdir : s.tree.IsDir p) (hdepth : msFilePathLenMax ≤ depth + p.length) :
    ScansAtOnce s depth p := by
  intro scanner calls hcalls
  induction depth generalizing p scanner calls with
  | zero =>
      obtain ⟨id, hmem⟩ := hdir
      have hlength : p.length < msFilePathLenMax := length_lt_of_fits (fits _ hmem)
      omega
  | succ depth ih =>
      have hopen := s.wf.opendir_text hdir
      have hsub : ∀ name, s.tree.IsDir (p ++ [name]) → ScansAtOnce s depth (p ++ [name]) := by
        intro name hsubdir scanner calls hcalls
        refine ih hsubdir ?_ scanner calls hcalls
        rw [List.length_append, List.length_singleton]
        omega
      have hentered : scanner.visit s.tree.world none calls (.entered (text p)) =
          some { scanner with calls := .opened (text p) (s.tree.children p) :: calls } := by
        rw [Scanner.visit, hopen]
      have hwatched : Scanner.visit s.tree.world
          { scanner with calls := .opened (text p) (s.tree.children p) :: calls } none calls
          (.opened (text p) (s.tree.children p)) = some { scanner with
            inoti := scanner.inoti.addWatch s.tree.world (text p)
            calls := .reading ⟨text p, s.tree.children p, []⟩ :: calls } := rfl
      have hopened : Goes s { scanner with calls := .opened (text p) (s.tree.children p) :: calls }
          { scanner with
            inoti := scanner.inoti.addWatch s.tree.world (text p)
            calls := .reading ⟨text p, s.tree.children p, []⟩ :: calls } :=
        .visit rfl hwatched
      rw [directoryScan_of_opendir hopen]
      exact (Goes.visit hcalls hentered).trans (hopened.trans
        (goes_stream hfiles fits hdir hsub (List.nil_append _).symm _ rfl))

end Scans

/-! ### The events of the queue -/

section Queue

variable {w : World} {i : Inoti} {e : Event} {path : Text} {s : Growth} {scanner : Scanner}

theorem event_of_scanCall (hrunning : i.stopped = false) (h : i.scanCall w e = some path) :
    i.event w e =
      { i.directoryScanAndRegisterFile w Inoti.maxDepth path with prevMask := e.mask } := by
  rw [Inoti.scanCall] at h
  split at h
  · cases h
  next hcontrol =>
    split at h
    next name path' hreceived hbranch =>
      obtain rfl := Option.some.inj h
      have hpower : ¬ (w.powerOff = true ∨ e.name = "_POWER_OFF".toList) := fun h =>
        hcontrol (h.imp_right .inl)
      have hend : ¬ e.name = "_FILEOPERATION_END".toList := fun h => hcontrol (.inr (.inr h))
      rw [Inoti.event, hrunning, if_neg hpower, if_neg hend, hreceived]
      simp only [Bool.false_eq_true, if_false, Inoti.handle, hbranch]
    next => cases h

theorem foldl_event_of_stopped (hstopped : i.stopped = true) (es : List Event) :
    es.foldl (Inoti.event w) i = i := by
  induction es with
  | nil => rfl
  | cons e es ih =>
      have hevent : i.event w e = i := if_pos hstopped
      rw [List.foldl_cons, hevent, ih]

theorem alone_event {queue : List Event} (hcalls : scanner.calls = [])
    (hrunning : scanner.inoti.stopped = false) :
    Growth.alone { s with queue := e :: queue, server := .running scanner } none =
      some { s with queue, server := .running (scanner.event s.tree.world e) } := by
  simp only [Growth.alone, Growth.step, Party.step, hcalls, hrunning, Bool.false_eq_true, if_false,
    Option.map_some]

/-- The scan that an event leads to, of a directory that may be gone. -/
theorem goes_scan (hfiles : s.tree.files.Nodup) (fits : ∀ d ∈ s.tree.dirs, Fits d.1)
    (scanner : Scanner) (hcalls : scanner.calls = [.entered path]) :
    Goes s scanner ({ scanner with
      inoti := scanner.inoti.directoryScanAndRegisterFile s.tree.world Inoti.maxDepth path
      }.ret []) := by
  cases hopen : s.tree.world.fs.opendir path with
  | none =>
      have hvisit : scanner.visit s.tree.world none [] (.entered path) = some (scanner.ret []) := by
        rw [Scanner.visit, hopen]
      rw [Inoti.maxDepth, directoryScan_of_closed hopen]
      exact .visit hcalls hvisit
  | some entries =>
      obtain ⟨p, hdir, rfl, -⟩ := opendir_eq hopen
      have hdepth : msFilePathLenMax ≤ Inoti.maxDepth + p.length :=
        (Nat.le_succ _).trans (Nat.le_add_right _ _)
      exact scansAtOnce hfiles fits hdir hdepth scanner [] hcalls

/-- One event, with the scan that it may lead to. -/
theorem exec_event (hfiles : s.tree.files.Nodup) (fits : ∀ d ∈ s.tree.dirs, Fits d.1)
    (hcalls : scanner.calls = []) (hrunning : scanner.inoti.stopped = false) (queue : List Event) :
    ∃ entries scanner',
      Run.exec Growth.alone { s with queue := e :: queue, server := .running scanner } entries =
        some { s with queue, server := .running scanner' } ∧
      scanner'.calls = [] ∧ scanner'.inoti = scanner.inoti.event s.tree.world e := by
  have hevent : Growth.alone { s with queue := e :: queue, server := .running scanner } none =
      some { s with queue, server := .running (scanner.event s.tree.world e) } :=
    alone_event hcalls hrunning
  cases hcall : scanner.inoti.scanCall s.tree.world e with
  | none =>
      refine ⟨[none], { scanner with inoti := scanner.inoti.event s.tree.world e }, ?_, hcalls,
        rfl⟩
      rw [Run.exec_cons, hevent, Scanner.event, hcall]
      rfl
  | some path =>
      have hstart : scanner.event s.tree.world e =
          { scanner with calls := [.entered path], mask := e.mask } := by
        rw [Scanner.event, hcall]
      rw [event_of_scanCall hrunning hcall]
      obtain ⟨entries, hexec⟩ := goes_scan (s := { s with queue }) hfiles fits
        { scanner with calls := [.entered path], mask := e.mask } rfl
      refine ⟨none :: entries, { scanner with
        inoti := scanner.inoti.directoryScanAndRegisterFile s.tree.world Inoti.maxDepth path
        calls := [.entered path], mask := e.mask }.ret [], ?_, ret_calls, rfl⟩
      rw [Run.exec_cons, hevent, hstart, Option.bind_some]
      exact hexec

/-- Undisturbed, the thread handles the events one after the other, each one at once. -/
theorem exec_queue (hfiles : s.tree.files.Nodup) (fits : ∀ d ∈ s.tree.dirs, Fits d.1)
    (hcalls : scanner.calls = []) (queue : List Event) :
    ∃ entries t,
      Run.exec Growth.alone { s with queue, server := .running scanner } entries = some t ∧
      t.Idle ∧ t.inoti = queue.foldl (Inoti.event s.tree.world) scanner.inoti := by
  induction queue generalizing scanner with
  | nil => exact ⟨[], _, rfl, ⟨scanner, rfl, hcalls, .inl rfl⟩, rfl⟩
  | cons e queue ih =>
      cases hstopped : scanner.inoti.stopped with
      | true =>
          refine ⟨[], _, rfl, ⟨scanner, rfl, hcalls, .inr hstopped⟩, ?_⟩
          rw [foldl_event_of_stopped hstopped]
          rfl
      | false =>
          obtain ⟨first, scanner', hfirst, hcalls', hinoti⟩ :=
            exec_event (e := e) hfiles fits hcalls hstopped queue
          obtain ⟨last, t, hlast, hidle, hend⟩ := ih hcalls'
          refine ⟨first ++ last, t, ?_, hidle, ?_⟩
          · rw [Run.exec_append, hfirst]
            exact hlast
          · rw [hend, hinoti]
            rfl

end Queue

/-! ### Operations at once -/

/-- The operation makes or writes something, with a path that the server can hold if it is a
directory. -/
def Op.Grows : Op → Prop
  | .mkdir place => Fits place.path
  | .write _ => True
  | .unlink _ | .rmdir _ | .rename _ _ _ => False

instance : DecidablePred Op.Grows
  | .mkdir place => inferInstanceAs (Decidable (Fits place.path))
  | .write _ => inferInstanceAs (Decidable True)
  | .unlink _ | .rmdir _ | .rename _ _ _ => inferInstanceAs (Decidable False)

/-- The two systems agree between two operations. -/
structure AtOnce (u : Sys) (s : Growth) : Prop where
  sys : s.sys = u
  idle : s.Idle
  files : s.tree.files.Nodup
  fits : ∀ d ∈ s.tree.dirs, Fits d.1

section Operations

variable {root : Root} {s s' : Growth} {u v : Sys} {op : Op} {place : Place} {new : List Event}

theorem notify_congr (hdirs : s'.tree.dirs = s.tree.dirs) (hserver : s'.server = s.server)
    (mask cookie : Nat) : s'.sys.notify place mask cookie = s.sys.notify place mask cookie := by
  have hinoti : s'.inoti = s.inoti := congrArg Party.inoti hserver
  simp only [Sys.notify, Tree.idOf, Growth.sys, hdirs, hinoti]
  rfl

theorem nodup_addFile {t : Tree} {p : Path} (h : t.files.Nodup) : (t.addFile p).files.Nodup := by
  rw [Tree.addFile]
  split
  · exact h
  next hnew =>
    refine h.append (List.nodup_singleton _) ?_
    rwa [List.disjoint_singleton]

/-- Once the others have put events into the queue, the thread handles them. -/
theorem AtOnce.finish (hidle : s.Idle) (hserver : s'.server = s.server)
    (hqueue : s'.queue = s.queue ++ new) (hfiles : s'.tree.files.Nodup)
    (hfits : ∀ d ∈ s'.tree.dirs, Fits d.1) (htree : v.tree = s'.tree)
    (hinoti : v.inoti = new.foldl (Inoti.event v.tree.world) s.inoti)
    (hbehind : v.behind = s.sys.behind) :
    ∃ ops t, Run.exec Growth.step s' ops = some t ∧ AtOnce v t := by
  obtain ⟨scanner, hrunning, hcalls, hwaits⟩ := hidle
  have hold : s.inoti = scanner.inoti := Growth.inoti_of_running hrunning
  have hstart : s' = { s' with queue := s'.queue, server := .running scanner } := by
    rw [← hrunning, ← hserver]
  obtain ⟨entries, t, hexec, hend, hresult⟩ :=
    exec_queue (s := s') hfiles hfits hcalls s'.queue
  rw [← hstart] at hexec
  have hkept := (exec_keeps hexec).1
  refine ⟨entries.map .server, t, exec_alone hexec, ?_, hend, hkept ▸ hfiles, hkept ▸ hfits⟩
  have hevents : t.inoti = v.inoti := by
    rw [hresult, hinoti, htree, hqueue, hold]
    rcases hwaits with hnone | hstopped
    · rw [hnone, List.nil_append]
    · rw [foldl_event_of_stopped hstopped, foldl_event_of_stopped hstopped]
  obtain ⟨tree, inoti, wf, behind⟩ := v
  obtain rfl : tree = t.tree := htree.trans hkept.symm
  obtain rfl : inoti = t.inoti := hevents.symm
  obtain rfl : behind = s.sys.behind := hbehind
  rfl

theorem AtOnce.mkdir (h : AtOnce u s) (hgrow : Fits place.path)
    (hstep : u.step root (.mkdir place) = some v) :
    ∃ ops t, Run.exec Growth.step s ops = some t ∧ AtOnce v t := by
  obtain rfl := h.sys
  obtain ⟨henabled, htree, hinoti⟩ := Sys.step_eq hstep
  obtain ⟨s', hmade, hserver, hgrown, hqueue⟩ : ∃ s', s.step (.mkdir place) = some s' ∧
      s'.server = s.server ∧ s'.tree = s.tree.addDir place.path ∧
        s'.queue = s.queue ++ s.sys.notify place (inIsDir ||| inCreate) 0 :=
    ⟨_, dif_pos henabled, rfl, rfl, rfl⟩
  have hfits : ∀ d ∈ s'.tree.dirs, Fits d.1 := by
    intro d hd
    rw [hgrown] at hd
    rcases Tree.mem_addDir.mp hd with hd | rfl
    · exact h.fits d hd
    · exact hgrow
  have hfiles : s'.tree.files.Nodup := by
    rw [hgrown]
    exact h.files
  obtain ⟨ops, t, hexec, hend⟩ := AtOnce.finish h.idle hserver hqueue hfiles hfits
    (htree.trans hgrown.symm) (htree.symm ▸ hinoti) (Sys.step_behind hstep)
  refine ⟨.mkdir place :: ops, t, ?_, hend⟩
  rw [Run.exec_cons, hmade]
  exact hexec

/-- A file that exists is opened and closed, another one is created and closed. -/
theorem exists_write (henabled : (Op.write place).Enabled root s.tree) :
    ∃ ops s', Run.exec Growth.step s ops = some s' ∧ s'.server = s.server ∧
      s'.tree = s.tree.addFile place.path ∧
        s'.queue = s.queue ++ s.sys.events (.write place) := by
  obtain ⟨hdir, hname, hnot⟩ := id henabled
  by_cases hold : place.path ∈ s.tree.files
  · obtain ⟨s', hopened, hwriting, hserver, htree, hqueue⟩ : ∃ s',
        s.step (.open place) = some s' ∧ place.path ∈ s'.writing ∧ s'.server = s.server ∧
          s'.tree = s.tree ∧ s'.queue = s.queue :=
      ⟨_, dif_pos hold, List.mem_append_right _ (List.mem_singleton_self _), rfl, rfl, rfl⟩
    obtain ⟨s'', hclosed, hserver', htree', hqueue'⟩ : ∃ s'',
        s'.step (.close place) = some s'' ∧ s''.server = s'.server ∧ s''.tree = s'.tree ∧
          s''.queue = s'.queue ++ s'.sys.notify place inCloseWrite 0 :=
      ⟨_, if_pos hwriting, rfl, rfl, rfl⟩
    refine ⟨[.open place, .close place], s'', ?_, hserver'.trans hserver, ?_, ?_⟩
    · rw [Run.exec_cons, hopened, Option.bind_some, Run.exec_cons, hclosed]
      rfl
    · rw [htree', htree, Tree.addFile, if_pos hold]
    · rw [hqueue', hqueue, notify_congr (congrArg Tree.dirs htree) hserver, Sys.events,
        if_pos (show place.path ∈ s.sys.tree.files from hold)]
      rfl
  · have hfree : ¬ s.tree.Has place.path := fun hhas => hhas.elim hnot hold
    obtain ⟨s', hcreated, hwriting, hserver, htree, hqueue⟩ : ∃ s',
        s.step (.create place) = some s' ∧ place.path ∈ s'.writing ∧ s'.server = s.server ∧
          s'.tree = s.tree.addFile place.path ∧
            s'.queue = s.queue ++ s.sys.notify place inCreate 0 :=
      ⟨_, dif_pos ⟨hdir, hname, hfree⟩, List.mem_append_right _ (List.mem_singleton_self _), rfl,
        rfl, rfl⟩
    obtain ⟨s'', hclosed, hserver', htree', hqueue'⟩ : ∃ s'',
        s'.step (.close place) = some s'' ∧ s''.server = s'.server ∧ s''.tree = s'.tree ∧
          s''.queue = s'.queue ++ s'.sys.notify place inCloseWrite 0 :=
      ⟨_, if_pos hwriting, rfl, rfl, rfl⟩
    have hdirs : s'.tree.dirs = s.tree.dirs := by rw [htree, Tree.addFile_dirs]
    refine ⟨[.create place, .close place], s'', ?_, hserver'.trans hserver, ?_, ?_⟩
    · rw [Run.exec_cons, hcreated, Option.bind_some, Run.exec_cons, hclosed]
      rfl
    · rw [htree', htree]
    · rw [hqueue', hqueue, notify_congr hdirs hserver, Sys.events,
        if_neg (show place.path ∉ s.sys.tree.files from hold), List.append_assoc]

theorem AtOnce.write (h : AtOnce u s) (hstep : u.step root (.write place) = some v) :
    ∃ ops t, Run.exec Growth.step s ops = some t ∧ AtOnce v t := by
  obtain rfl := h.sys
  obtain ⟨henabled, htree, hinoti⟩ := Sys.step_eq hstep
  obtain ⟨first, s', hfirst, hserver, hgrown, hqueue⟩ := exists_write (s := s) henabled
  have hfiles : s'.tree.files.Nodup := by
    rw [hgrown]
    exact nodup_addFile h.files
  have hfits : ∀ d ∈ s'.tree.dirs, Fits d.1 := by
    rw [hgrown, Tree.addFile_dirs]
    exact h.fits
  obtain ⟨ops, t, hexec, hend⟩ := AtOnce.finish h.idle hserver hqueue hfiles hfits
    (htree.trans hgrown.symm) (htree.symm ▸ hinoti) (Sys.step_behind hstep)
  refine ⟨first ++ ops, t, ?_, hend⟩
  rw [Run.exec_append, hfirst]
  exact hexec

/-- What the system of operations at once does, as long as nothing is removed or renamed and
the server can hold the paths of all directories, the system of system calls does too. -/
theorem atomic_refined (root : Root) {ops : List Op} (hidle : s.Idle)
    (hfiles : s.tree.files.Nodup) (hfits : ∀ d ∈ s.tree.dirs, Fits d.1)
    (hgrows : ∀ op ∈ ops, op.Grows) (hexec : Run.exec (Sys.step root) s.sys ops = some v) :
    ∃ steps t, Run.exec Growth.step s steps = some t ∧ t.sys = v ∧ t.Idle := by
  obtain ⟨steps, t, hrun, hend⟩ := Run.exec_of_matched (R := AtOnce) (G := Op.Grows)
    (fun u op v s h hgrow hstep => by
      cases op with
      | mkdir place => exact h.mkdir hgrow hstep
      | write place => exact h.write hstep
      | unlink place => exact hgrow.elim
      | rmdir place => exact hgrow.elim
      | rename cookie src dst => exact hgrow.elim) ⟨rfl, hidle, hfiles, hfits⟩ hgrows hexec
  exact ⟨steps, t, hrun, hend.sys, hend.idle⟩

/-- After its walk the server handles what is made at once. -/
def atOnceRun : List Op :=
  [.write ⟨media.path ++ ["a".toList], "f".toList⟩,
    .mkdir ⟨media.path ++ ["a".toList], "c".toList⟩,
    .write ⟨media.path ++ ["a".toList, "c".toList], "g".toList⟩,
    .write ⟨media.path ++ ["a".toList], "f".toList⟩]

theorem atomic_refined_walked :
    ∃ s v, Run.exec Growth.step booting (bootingRun ++ threadRun) = some s ∧
      Run.exec (Sys.step media) s.sys atOnceRun = some v ∧
      ∃ steps t, Run.exec Growth.step s steps = some t ∧ t.sys = v ∧ t.Idle := by
  have hfits : ∀ s ∈ Run.exec Growth.step booting (bootingRun ++ threadRun),
      s.tree.files.Nodup ∧ ∀ d ∈ s.tree.dirs, Fits d.1 := by decide
  have hgrows : ∀ op ∈ atOnceRun, op.Grows := by decide
  exact ⟨_, _, rfl, rfl, atomic_refined media ⟨_, rfl, rfl, .inl rfl⟩ (hfits _ rfl).1
    (hfits _ rfl).2 hgrows rfl⟩

end Operations

end MediaServer.Inotify
