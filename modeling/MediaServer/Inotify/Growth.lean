import MediaServer.Foundation.Discovery
import MediaServer.Inotify.Mirror
import MediaServer.Scan.NodeTree

/-!
# Directories that come in while the server looks around

Other programs do not wait for the server. Here they make directories and files, and
write to them, between any two of its steps. `main` first goes through the storage and
adds a watch for each directory; then `ms_inoti_thread` handles the events that have
come together in the meantime, and those that come later.

A directory stream returns what was in the directory at `opendir`. What has come in
since may be returned or not.
-/

namespace MediaServer.Inotify

open Scan

/-- One `DIR`. -/
structure Dir where
  path : Text
  /-- The entries at `opendir`. -/
  opened : List Dirent
  /-- What `readdir_r` has returned. -/
  returned : List Dirent := []
deriving DecidableEq, Repr

/-- `readdir_r`, which returns this entry, or nothing at the end. -/
def Dir.readdir (fs : FileSystem) (dp : Dir) : Option Dirent → Option Dir
  | some e =>
      if e ∈ fs.entries dp.path ∧ e ∉ dp.returned then
        some { dp with returned := dp.returned ++ [e] }
      else none
  | none => if ∀ e ∈ dp.opened, e ∈ dp.returned then some dp else none

theorem Dir.readdir_some {fs : FileSystem} {dp dp' : Dir} {e : Dirent}
    (hread : dp.readdir fs (some e) = some dp') :
    e ∈ fs.entries dp.path ∧ e ∉ dp.returned ∧
      dp' = { dp with returned := dp.returned ++ [e] } := by
  rw [readdir] at hread
  split at hread
  next hentry => exact ⟨hentry.1, hentry.2, (Option.some.inj hread).symm⟩
  next => cases hread

theorem Dir.readdir_none {fs : FileSystem} {dp dp' : Dir}
    (hread : dp.readdir fs none = some dp') :
    (∀ e ∈ dp.opened, e ∈ dp.returned) ∧ dp' = dp := by
  rw [readdir] at hread
  split at hread
  next hall => exact ⟨hall, (Option.some.inj hread).symm⟩
  next => cases hread

/-! ### The thread -/

/-- An activation of `_ms_inoti_directory_scan_and_register_file`. -/
inductive Visiting where
  | entered (dirPath : Text)
  /-- The watch is still to be added. -/
  | opened (dirPath : Text) (entries : List Dirent)
  | reading (dp : Dir)
deriving DecidableEq, Repr

/-- The thread is in its loop, or in these activations, the innermost first. -/
structure Scanner where
  inoti : Inoti
  calls : List Visiting := []
  /-- The mask of the event that has led to them. -/
  mask : Nat := 0
deriving DecidableEq, Repr

/-- The argument of `_ms_inoti_directory_scan_and_register_file`, if the event leads to a
call of it. -/
def Inoti.scanCall (w : World) (s : Inoti) (e : Event) : Option Text :=
  if w.powerOff ∨ e.name = powerOffName ∨ e.name = "_FILEOPERATION_END".toList then none
  else
    match s.received e, branch e.mask with
    | some (_, path), .dirCreate => some path
    | _, _ => none

namespace Scanner

variable (w : World) (s : Scanner)

/-- The innermost activation returns. The loop goes on after the outermost one. -/
def ret : List Visiting → Scanner
  | [] => { s with calls := [], inoti := { s.inoti with prevMask := s.mask } }
  | calls => { s with calls }

/-- What is done for an entry that `readdir_r` has returned. -/
def entry (dp : Dir) (e : Dirent) (calls : List Visiting) : Scanner :=
  if e.hidden then { s with calls := .reading dp :: calls }
  else
    match msStrappend dp.path e.name with
    | none => { s with calls := .reading dp :: calls }
    | some path =>
        if e.dType = dtDir then { s with calls := .entered path :: .reading dp :: calls }
        else { s with inoti := s.inoti.registerFile path, calls := .reading dp :: calls }

/-- One system call of the innermost activation. -/
def visit (next : Option Dirent) (calls : List Visiting) : Visiting → Option Scanner
  | .entered dirPath =>
      match w.fs.opendir dirPath with
      | none => some (s.ret calls)
      | some entries => some { s with calls := .opened dirPath entries :: calls }
  | .opened dirPath entries =>
      some { s with
        inoti := s.inoti.addWatch w dirPath
        calls := .reading ⟨dirPath, entries, []⟩ :: calls }
  | .reading dp =>
      (dp.readdir w.fs next).map fun dp =>
        match next with
        | none => s.ret calls
        | some e => s.entry dp e calls

/-- One event of the buffer. -/
def event (e : Event) : Scanner :=
  match s.inoti.scanCall w e with
  | some path => { s with calls := [.entered path], mask := e.mask }
  | none => { s with inoti := s.inoti.event w e }

end Scanner

/-! ### The walk of `main` -/

/-- The variables of `ms_inoti_add_watch_all_directory` before the first path. -/
def rootWalker (root : Text) (inoti : Inoti) : Walker Inoti where
  nodes := [⟨root, none, none⟩]
  tmpRoot := 0
  prvNode := 0
  recorded := inoti

/-- Where `ms_inoti_add_watch_all_directory` stands. -/
inductive Standing where
  | start
  /-- The directory is opened next. -/
  | before (path : Text)
  | reading (dp : Dir)
  /-- `readdir_r` has returned this entry. -/
  | entry (dp : Dir) (e : Dirent)
deriving DecidableEq, Repr

/-- `main` creates the thread when its walk is over. -/
inductive Party where
  | walking (walker : Walker Inoti) (standing : Standing)
  | running (scanner : Scanner)

namespace Party

def inoti : Party → Inoti
  | walking walker _ => walker.recorded
  | running scanner => scanner.inoti

/-- `_ms_get_path_from_current_node`, and what follows on its result. -/
def next (walker : Walker Inoti) : Option Party :=
  walker.getNextPath.map fun (path, walker) =>
    match path with
    | none => .running { inoti := walker.recorded }
    | some path => .walking { walker with findFolder := 0 } (.before path)

/-- One step of the walk. -/
def walk (w : World) (walker : Walker Inoti) (entry : Option Dirent) : Standing → Option Party
  | .start =>
      (walker.getFullPath 0).bind fun (path, walker) =>
        match path with
        | none => some (.running { inoti := walker.recorded })
        | some path =>
            (walker.addNode (fun s path => s.addWatch w path) 0).map fun walker =>
              .walking walker (.before path)
  | .before path =>
      match w.fs.opendir path with
      | none => next { walker with depth := walker.depth + 1 }
      | some entries =>
          some (.walking { walker with depth := walker.depth + 1 } (.reading ⟨path, entries, []⟩))
  | .reading dp =>
      (dp.readdir w.fs entry).bind fun dp =>
        match entry with
        | none => next walker
        | some e => some (.walking walker (if e.hidden then .reading dp else .entry dp e))
  | .entry dp e =>
      (walkEntry w.fs (fun s path => s.addWatch w path) dp.path walker e).map fun walker =>
        .walking walker (.reading dp)

/-- One step of `main` in its walk, or of the thread, with the events that are left. -/
def step (w : World) (queue : List Event) (entry : Option Dirent) :
    Party → Option (List Event × Party)
  | walking walker standing => (walk w walker entry standing).map fun party => (queue, party)
  | running s =>
      match s.calls with
      | call :: calls => (s.visit w entry calls call).map fun s => (queue, .running s)
      | [] =>
          match queue with
          | [] => none
          | e :: queue => if s.inoti.stopped then none else some (queue, .running (s.event w e))

theorem walking_cases {w : World} {queue queue' : List Event} {entry : Option Dirent}
    {walker : Walker Inoti} {standing : Standing} {server : Party}
    (hstep : (walking walker standing).step w queue entry = some (queue', server)) :
    queue' = queue ∧ walk w walker entry standing = some server := by
  obtain ⟨party, hwalk, heq⟩ := Option.map_eq_some_iff.mp hstep
  obtain ⟨rfl, rfl⟩ := Prod.mk.inj heq
  exact ⟨rfl, hwalk⟩

/-- The thread goes on with its scan, or takes the next event. -/
theorem running_cases {w : World} {queue queue' : List Event} {entry : Option Dirent}
    {scanner : Scanner} {server : Party}
    (hstep : (running scanner).step w queue entry = some (queue', server)) :
    (∃ call calls scanner', scanner.calls = call :: calls ∧
      scanner.visit w entry calls call = some scanner' ∧ queue' = queue ∧
      server = .running scanner') ∨
    ∃ e, scanner.calls = [] ∧ queue = e :: queue' ∧ scanner.inoti.stopped = false ∧
      server = .running (scanner.event w e) := by
  cases hcalls : scanner.calls with
  | cons call calls =>
      simp only [step, hcalls] at hstep
      obtain ⟨scanner', hvisit, heq⟩ := Option.map_eq_some_iff.mp hstep
      obtain ⟨rfl, rfl⟩ := Prod.mk.inj heq
      exact .inl ⟨call, calls, scanner', rfl, hvisit, rfl, rfl⟩
  | nil =>
      simp only [step, hcalls] at hstep
      split at hstep
      next => cases hstep
      next e rest =>
        split at hstep
        next => cases hstep
        next hrunning =>
          obtain ⟨rfl, rfl⟩ := Prod.mk.inj (Option.some.inj hstep)
          exact .inr ⟨e, rfl, rfl, Bool.eq_false_iff.mpr hrunning, rfl⟩

end Party

/-! ### The system -/

structure Growth where
  tree : Tree
  /-- The files that somebody has open for writing. -/
  writing : List Path := []
  /-- The events that have not been read. -/
  queue : List Event := []
  server : Party
  wf : tree.Wf
  written : ∀ q ∈ writing, q ∈ tree.files

inductive Growing where
  | mkdir (place : Place)
  /-- Make a file and open it for writing. -/
  | create (place : Place)
  | open (place : Place)
  | close (place : Place)
  /-- A step of the server, with the entry for `readdir_r`. -/
  | server (entry : Option Dirent)
deriving DecidableEq, Repr

namespace Growth

variable (s : Growth)

def inoti : Inoti := s.server.inoti

/-- What the atomic system sees. -/
def sys : Sys := { tree := s.tree, inoti := s.inoti, wf := s.wf }

theorem wf_mkdir {place : Place} (h : s.tree.IsDir place.dir ∧ ValidName place.name ∧
    ¬ s.tree.Has place.path) : (s.tree.addDir place.path).Wf :=
  s.wf.addDir h.1 h.2.1 h.2.2

theorem wf_create {place : Place} (h : s.tree.IsDir place.dir ∧ ValidName place.name ∧
    ¬ s.tree.Has place.path) : (s.tree.addFile place.path).Wf :=
  s.wf.addFile h.1 h.2.1 fun hdir => h.2.2 (.inl hdir)

theorem written_create {place : Place} :
    ∀ q ∈ s.writing ++ [place.path], q ∈ (s.tree.addFile place.path).files := by
  intro q hq
  rw [Tree.mem_addFile]
  exact (List.mem_append.mp hq).imp (s.written q) List.mem_singleton.mp

theorem written_open {place : Place} (h : place.path ∈ s.tree.files) :
    ∀ q ∈ s.writing ++ [place.path], q ∈ s.tree.files := by
  intro q hq
  cases List.mem_append.mp hq with
  | inl hq => exact s.written q hq
  | inr hq => rwa [List.mem_singleton.mp hq]

theorem written_close (place : Place) : ∀ q ∈ s.writing.erase place.path, q ∈ s.tree.files :=
  fun q hq => s.written q (List.mem_of_mem_erase hq)

def step (s : Growth) : Growing → Option Growth
  | .mkdir place =>
      if h : s.tree.IsDir place.dir ∧ ValidName place.name ∧ ¬ s.tree.Has place.path then
        some { s with
          tree := s.tree.addDir place.path
          queue := s.queue ++ s.sys.notify place (inIsDir ||| inCreate) 0
          wf := s.wf_mkdir h
          written := s.written }
      else none
  | .create place =>
      if h : s.tree.IsDir place.dir ∧ ValidName place.name ∧ ¬ s.tree.Has place.path then
        some { s with
          tree := s.tree.addFile place.path
          writing := s.writing ++ [place.path]
          queue := s.queue ++ s.sys.notify place inCreate 0
          wf := s.wf_create h
          written := s.written_create }
      else none
  | .open place =>
      if h : place.path ∈ s.tree.files then
        some { s with writing := s.writing ++ [place.path], written := s.written_open h }
      else none
  | .close place =>
      if place.path ∈ s.writing then
        some { s with
          writing := s.writing.erase place.path
          queue := s.queue ++ s.sys.notify place inCloseWrite 0
          written := s.written_close place }
      else none
  | .server entry =>
      (s.server.step s.tree.world s.queue entry).map fun (queue, server) =>
        { s with queue, server }

/-- The thread waits for an event, and there is none. -/
def AtRest (s : Growth) : Prop :=
  s.queue = [] ∧ ∃ scanner, s.server = .running scanner ∧ scanner.calls = []

end Growth

end MediaServer.Inotify
