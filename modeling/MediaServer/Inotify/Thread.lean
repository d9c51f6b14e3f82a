import MediaServer.Path

/-!
# The inotify thread

`ms_inoti_thread` reads events and keeps three things up to date: the watch list
that maps watch descriptors to directory names, the list of files that are being
created, and the items of the plug-ins. A rename of a directory arrives as two
events; the first is remembered in the variables `prev_wd` and `prev_name`.

The events meet a world: the file system that the walkers read and the answers of
`inotify_add_watch`. One plug-in accepts every file and its calls succeed; the
database is then the list of its paths.
-/

namespace MediaServer.Inotify

/-- One `ms_inoti_dir_data`. -/
structure Watch where
  name : Text
  wd : Int
deriving DecidableEq, Repr

/-- What the thread finds outside when it handles an event. -/
structure World where
  fs : FileSystem
  inotifyAddWatch : Text → Int
  powerOff : Bool := false
  /-- Whether `ms_inoti_find_ignore_file` finds a node. -/
  ignored : Text → Bool := fun _ => false
  refreshFails : Text → Bool := fun _ => false

structure Inoti where
  /-- The list that `first_inoti_node` heads. -/
  watches : List Watch := []
  /-- The descriptors that the kernel has handed out. -/
  kernel : List Int := []
  /-- The list of created files, the latest first. -/
  createFiles : List (Int × Text) := []
  prevMask : Nat := 0
  prevWd : Int := -1
  prevName : Text := []
  db : List Text := []
  /-- The thread has left its loop. -/
  stopped : Bool := false
  /-- A number has been formatted with `%s`, which crashes the server: what follows in a
  run stands for nothing. -/
  faulted : Bool := false
deriving DecidableEq, Repr

/-- One `struct inotify_event`; the name is terminated within its `len` bytes. Where there are
none, the name is what the buffer holds behind the record. -/
structure Event where
  wd : Int
  mask : Nat
  cookie : Nat
  len : Nat
  name : Text
  terminated : name.length < len ∨ len = 0
deriving DecidableEq

def inCloseWrite : Nat := 0x8
def inMovedFrom : Nat := 0x40
def inMovedTo : Nat := 0x80
def inCreate : Nat := 0x100
def inDelete : Nat := 0x200
def inIsDir : Nat := 0x40000000

/-- The branches that the tests of the mask select, in their order. -/
inductive Branch where
  | dirMovedFrom
  | dirMovedTo
  | dirCreate
  | dirDelete
  | fileMovedFrom
  | fileMovedTo
  | fileCreate
  | fileDelete
  | fileCloseWrite
  | other
deriving DecidableEq, Repr

def branch (mask : Nat) : Branch :=
  if mask &&& inIsDir ≠ 0 then
    if mask &&& inMovedFrom ≠ 0 then .dirMovedFrom
    else if mask &&& inMovedTo ≠ 0 then .dirMovedTo
    else if mask &&& inCreate ≠ 0 then .dirCreate
    else if mask &&& inDelete ≠ 0 then .dirDelete
    else .other
  else if mask &&& inMovedFrom ≠ 0 then .fileMovedFrom
  else if mask &&& inMovedTo ≠ 0 then .fileMovedTo
  else if mask &&& inCreate ≠ 0 then .fileCreate
  else if mask &&& inDelete ≠ 0 then .fileDelete
  else if mask &&& inCloseWrite ≠ 0 then .fileCloseWrite
  else .other

namespace Inoti

variable (w : World) (s : Inoti)

/-! ### The watch list -/

/-- `ms_inoti_add_watch`. -/
def addWatch (path : Text) : Inoti :=
  if ∃ node ∈ s.watches, node.name = path then s
  else
    let wd := w.inotifyAddWatch path
    if wd > 0 then
      { s with
        watches := s.watches ++ [⟨path, wd⟩]
        kernel := if wd ∈ s.kernel then s.kernel else s.kernel ++ [wd] }
    else s

/-- `ms_inoti_remove_watch`. -/
def removeWatch (path : Text) : Inoti :=
  { s with watches := s.watches.eraseP fun node => node.name = path }

/-- The loop of `ms_inoti_modify_watch`: rename the first entry with the name. -/
def renameFirst (pathFrom pathTo : Text) : List Watch → List Watch
  | [] => []
  | node :: rest =>
      if node.name = pathFrom then { node with name := pathTo } :: rest
      else node :: renameFirst pathFrom pathTo rest

/-- `ms_inoti_modify_watch`. The first entry of the list is compared, but not
renamed. -/
def modifyWatch (pathFrom pathTo : Text) : Inoti :=
  match s.watches with
  | [] => s.addWatch w pathTo
  | head :: rest =>
      if head.name = pathFrom then s.addWatch w pathTo
      else if ∃ node ∈ rest, node.name = pathFrom then
        { s with watches := head :: renameFirst pathFrom pathTo rest }
      else s.addWatch w pathTo

/-- The loop of `_ms_inoti_get_full_path`, which ends at the last entry. -/
def findNode (wd : Int) : List Watch → Option Watch
  | [] => none
  | [node] => some node
  | node :: next :: rest =>
      if wd = node.wd then some node else findNode wd (next :: rest)

/-- `_ms_inoti_get_full_path`. -/
def getFullPath (wd : Int) (name : Text) : Option Text :=
  (findNode wd s.watches).bind fun node => msStrappend node.name name

/-! ### The items -/

/-- `ms_register_file`, undisturbed by the other thread. -/
def registerFile (path : Text) : Inoti :=
  if path ∈ s.db then s else { s with db := s.db ++ [path] }

/-- `ms_delete_item`. -/
def deleteItem (path : Text) : Inoti := { s with db := s.db.erase path }

/-- `ms_move_item`, which changes the key of an item that exists. -/
def moveItem (srcPath dstPath : Text) : Inoti :=
  if srcPath ∈ s.db then { s with db := (s.db.erase srcPath).insert dstPath } else s

/-- A regular file of a renamed directory. The branch for a path on no storage logs the
type of the storage as a string. -/
def moveFile (pathFrom pathTo : Text) : Inoti :=
  if msGetStorageTypeByFull pathFrom ≠ .invalidFilePath ∧
      msGetStorageTypeByFull pathTo ≠ .invalidFilePath then
    s.moveItem pathFrom pathTo
  else { s with faulted := true }

/-! ### The walkers

A path grows with every level of the recursion, so no directory below the limit
of `ms_strappend` lies deeper than that limit. -/

def maxDepth : Nat := msFilePathLenMax + 1

/-- `_ms_inoti_directory_scan_and_register_file`. -/
def directoryScanAndRegisterFile : Nat → Inoti → Text → Inoti
  | 0, s, _ => s
  | depth + 1, s, dirPath =>
      match w.fs.opendir dirPath with
      | none => s
      | some entries =>
          entries.foldl (fun s ent =>
            if ent.hidden then s
            else
              match msStrappend dirPath ent.name with
              | none => s
              | some path =>
                  if ent.dType = dtDir then directoryScanAndRegisterFile depth s path
                  else s.registerFile path)
            (s.addWatch w dirPath)

/-- `_ms_inoti_scan_renamed_folder`. -/
def scanRenamedFolder : Nat → Inoti → Text → Text → Inoti
  | 0, s, _, _ => s
  | depth + 1, s, orgPath, chgPath =>
      match w.fs.opendir chgPath with
      | none => s
      | some entries =>
          entries.foldl (fun s ent =>
            if ent.hidden then s
            else
              match msStrappend orgPath ent.name, msStrappend chgPath ent.name with
              | some pathFrom, some pathTo =>
                  let s :=
                    if ent.dType = dtDir then scanRenamedFolder depth s pathFrom pathTo else s
                  if ent.dType = dtReg then s.moveFile pathFrom pathTo else s
              | _, _ => s)
            (s.modifyWatch w orgPath chgPath)

/-! ### The event loop -/

/-- The tests before the branches: the copy of the name and the full path of an
event that reaches them. -/
def received (e : Event) : Option (Text × Text) :=
  if e.name.head? = some '.' ∨ e.wd < 1 then none
  else if e.len ≠ 0 ∧ e.len ≤ msFileNameLenMax then
    (msStrcopy (msFileNameLenMax + 1) e.name).bind fun name =>
      (s.getFullPath e.wd name).map fun path => (name, path)
  else none

/-- The arguments of the call of `_ms_inoti_scan_renamed_folder`, if the event leads
to one. -/
def renameCall (e : Event) : Option (Text × Text) :=
  match s.received e, branch e.mask with
  | some (_, path), .dirMovedTo =>
      (s.getFullPath s.prevWd s.prevName).map fun fullPathFrom => (fullPathFrom, path)
  | _, _ => none

/-- The branch for `IN_CLOSE_WRITE`. The test of `prev_mask` joins two different
bits, and a failed refresh skips the reset. -/
def closeWrite (e : Event) (name path : Text) : Inoti :=
  if (e.wd, name) ∈ s.createFiles ∨ (s.prevMask &&& inIsDir) &&& inCreate ≠ 0 then
    { s.registerFile path with
      createFiles := s.createFiles.erase (e.wd, name)
      prevMask := 0
      prevWd := 0 }
  else if ¬ w.ignored path ∧ w.refreshFails path then s
  else { s with prevMask := 0, prevWd := 0 }

/-- The branches for an event with its name and path. -/
def handle (e : Event) (name path : Text) : Inoti :=
  match branch e.mask with
  | .dirMovedFrom =>
      { s with
        prevMask := e.mask
        prevWd := e.wd
        prevName := (msStrcopy (msFileNameLenMax + 1) e.name).getD s.prevName }
  | .dirMovedTo =>
      match s.renameCall e with
      | none => s
      | some (fullPathFrom, path) =>
          { scanRenamedFolder w maxDepth s fullPathFrom path with prevMask := 0, prevWd := 0 }
  | .dirCreate =>
      { directoryScanAndRegisterFile w maxDepth s path with prevMask := e.mask }
  | .dirDelete => s.removeWatch path
  | .fileMovedFrom | .fileDelete => s.deleteItem path
  | .fileMovedTo => s.registerFile path
  | .fileCreate => { s with createFiles := (e.wd, name) :: s.createFiles }
  | .fileCloseWrite => s.closeWrite w e name path
  | .other => s

/-- The label `POWER_OFF`. -/
def leave : Inoti :=
  let s := s.removeWatch msDbUpdateNotiPath
  { s with
    watches := s.watches.filter fun node =>
      ¬ strstr node.name msRootPathInternal ∧ ¬ strstr node.name msRootPathExternal
    kernel := []
    stopped := true }

/-- One event of the buffer. -/
def event (e : Event) : Inoti :=
  if s.stopped then s
  else if w.powerOff ∨ e.name = "_POWER_OFF".toList then s.leave
  else if e.name = "_FILEOPERATION_END".toList then s
  else
    match s.received e with
    | none => s
    | some (name, path) => s.handle w e name path

end Inoti

end MediaServer.Inotify
