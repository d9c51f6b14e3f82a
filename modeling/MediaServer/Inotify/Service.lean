import MediaServer.Inotify.IgnoreFile
import MediaServer.Inotify.Pairing

/-!
# What the thread asks the plug-ins for

Each event leads to a list of calls of `media-server-db-svc.c`. The calls change the
items of the plug-ins and, on the way, the ignore list: every lookup of a mime type
puts a DRM file on it. The clients and the scan thread make such calls too.

A step is one event, or one call of another thread, during which the files do not
change. The list of ignored files is taken as the list of its paths.
-/

namespace MediaServer.Inotify

inductive ServiceCall where
  /-- `ms_register_file`. -/
  | register (path : Text)
  /-- `ms_validate_item` and `ms_insert_item_batch`. -/
  | store (path : Text)
  /-- `ms_delete_item`. -/
  | delete (path : Text)
  /-- `ms_move_item`. -/
  | move (srcPath dstPath : Text)
  /-- `ms_refresh_item`. -/
  | refresh (path : Text)
deriving DecidableEq, Repr

section Calls

variable (w : World)

/-- The calls of `_ms_inoti_directory_scan_and_register_file`. -/
def registerCalls : Nat → Text → List ServiceCall
  | 0, _ => []
  | depth + 1, dirPath =>
      match w.fs.opendir dirPath with
      | none => []
      | some entries =>
          entries.flatMap fun ent =>
            if ent.hidden then []
            else
              match msStrappend dirPath ent.name with
              | none => []
              | some path =>
                  if ent.dType = dtDir then registerCalls depth path else [.register path]

/-- The calls of `_ms_inoti_scan_renamed_folder`. The list goes on behind a file on no
storage, over which the server crashes. -/
def moveCalls : Nat → Text → Text → List ServiceCall
  | 0, _, _ => []
  | depth + 1, orgPath, chgPath =>
      match w.fs.opendir chgPath with
      | none => []
      | some entries =>
          entries.flatMap fun ent =>
            if ent.hidden then []
            else
              match msStrappend orgPath ent.name, msStrappend chgPath ent.name with
              | some pathFrom, some pathTo =>
                  (if ent.dType = dtDir then moveCalls depth pathFrom pathTo else []) ++
                    if ent.dType = dtReg ∧
                        msGetStorageTypeByFull pathFrom ≠ .invalidFilePath ∧
                        msGetStorageTypeByFull pathTo ≠ .invalidFilePath then
                      [.move pathFrom pathTo]
                    else []
              | _, _ => []

namespace Inoti

variable (s : Inoti) (e : Event)

/-- An `IN_CLOSE_WRITE` event is taken for the end of a creation. -/
def endsCreation (name : Text) : Prop :=
  (e.wd, name) ∈ s.createFiles ∨ (s.prevMask &&& inIsDir) &&& inCreate ≠ 0

instance (name : Text) : Decidable (s.endsCreation e name) :=
  inferInstanceAs (Decidable (_ ∨ _))

/-- The calls that an event leads to, in their order. -/
def serviceCalls : List ServiceCall :=
  if s.reaches w e then
    match s.received e with
    | none => []
    | some (name, path) =>
        match branch e.mask with
        | .dirMovedTo =>
            match s.renameCall e with
            | none => []
            | some (fullPathFrom, path) => moveCalls w maxDepth fullPathFrom path
        | .dirCreate => registerCalls w maxDepth path
        | .fileMovedFrom | .fileDelete => [.delete path]
        | .fileMovedTo => [.register path]
        | .fileCloseWrite =>
            if s.endsCreation e name then [.register path]
            else if w.ignored path then []
            else [.refresh path]
        | .dirMovedFrom | .dirDelete | .fileCreate | .other => []
  else []

end Inoti

/-- The effect of a call on the items of a single plug-in that accepts every file. -/
def ServiceCall.onItems (db : List Text) : ServiceCall → List Text
  | .register path | .store path => if path ∈ db then db else db ++ [path]
  | .delete path => db.erase path
  | .move srcPath dstPath => if srcPath ∈ db then (db.erase srcPath).insert dstPath else db
  | .refresh _ => db

end Calls

section Members

variable {w : World} {depth : Nat} {org path : Text} {call : ServiceCall}

/-- The directory opens and has this entry, which is not hidden. -/
def Shows (fs : FileSystem) (path : Text) (e : Dirent) : Prop :=
  fs.opens path ∧ e ∈ fs.entries path ∧ ¬ e.hidden

/-- A request of the walk over a new directory is about an entry or one below it. -/
theorem mem_registerCalls_succ :
    call ∈ registerCalls w (depth + 1) path ↔ ∃ e p, Shows w.fs path e ∧
      msStrappend path e.name = some p ∧
        if e.dType = dtDir then call ∈ registerCalls w depth p else call = .register p := by
  rw [registerCalls, FileSystem.opendir]
  by_cases hopens : w.fs.opens path = true
  · rw [if_pos hopens]
    simp only [List.mem_flatMap]
    refine exists_congr fun e => ?_
    cases hhidden : e.hidden with
    | true => simp [Shows, hhidden]
    | false =>
        cases msStrappend path e.name with
        | none => simp
        | some p =>
            simp only [Bool.false_eq_true, if_false, Option.some_inj, exists_eq_left',
              exists_and_left, Shows, hopens, hhidden, not_false_eq_true, and_true, true_and]
            split <;> simp
  · rw [if_neg hopens]
    simp [Shows, hopens]

/-- So is one of the walk over a renamed directory. -/
theorem mem_moveCalls_succ :
    call ∈ moveCalls w (depth + 1) org path ↔ ∃ e src dst, Shows w.fs path e ∧
      msStrappend org e.name = some src ∧ msStrappend path e.name = some dst ∧
        (e.dType = dtDir ∧ call ∈ moveCalls w depth src dst ∨
          e.dType = dtReg ∧ msGetStorageTypeByFull src ≠ .invalidFilePath ∧
            msGetStorageTypeByFull dst ≠ .invalidFilePath ∧ call = .move src dst) := by
  rw [moveCalls, FileSystem.opendir]
  by_cases hopens : w.fs.opens path = true
  · rw [if_pos hopens]
    simp only [List.mem_flatMap]
    refine exists_congr fun e => ?_
    cases hhidden : e.hidden with
    | true => simp [Shows, hhidden]
    | false =>
        cases msStrappend org e.name with
        | none => simp
        | some src =>
            cases msStrappend path e.name with
            | none => simp
            | some dst =>
                simp only [Bool.false_eq_true, if_false, Option.some_inj, exists_and_left,
                  exists_eq_left', Shows, hopens, hhidden, not_false_eq_true, and_true, true_and,
                  List.mem_append]
                refine and_congr_right fun _ => or_congr ?_ ?_
                · split
                  next hdir => simp only [hdir, true_and]
                  next hdir => simp only [hdir, false_and, List.not_mem_nil]
                · split
                  next hmove => simp only [hmove, ne_eq, not_false_eq_true, true_and,
                    List.mem_singleton]
                  next hmove => simp only [← and_assoc, hmove, false_and, List.not_mem_nil]
  · rw [if_neg hopens]
    simp [Shows, hopens]

end Members

section Agreement

variable {w : World} {s : Inoti} {e : Event}

theorem registerFile_db (path : Text) :
    (s.registerFile path).db = (ServiceCall.register path).onItems s.db := by
  rw [Inoti.registerFile, ServiceCall.onItems]
  split <;> rfl

theorem moveItem_db (srcPath dstPath : Text) :
    (s.moveItem srcPath dstPath).db = (ServiceCall.move srcPath dstPath).onItems s.db := by
  rw [Inoti.moveItem, ServiceCall.onItems]
  split <;> rfl

theorem directoryScan_db (depth : Nat) (s : Inoti) (dirPath : Text) :
    (Inoti.directoryScanAndRegisterFile w depth s dirPath).db =
      (registerCalls w depth dirPath).foldl ServiceCall.onItems s.db := by
  induction depth generalizing s dirPath with
  | zero => rfl
  | succ depth ih =>
      rw [Inoti.directoryScanAndRegisterFile, registerCalls]
      cases w.fs.opendir dirPath with
      | none => rfl
      | some entries =>
          simp only
          have hwatch : (s.addWatch w dirPath).db = s.db := addWatch_db
          rw [List.foldl_flatMap, ← hwatch]
          refine (List.foldl_hom Inoti.db fun s ent => ?_).symm
          cases ent.hidden with
          | true => rfl
          | false =>
              cases msStrappend dirPath ent.name with
              | none => rfl
              | some path =>
                  by_cases hdir : ent.dType = dtDir
                  · simp only [hdir, if_true, Bool.false_eq_true, if_false, ih]
                  · simp only [hdir, Bool.false_eq_true, if_false, registerFile_db]
                    rfl

theorem scanRenamedFolder_db (depth : Nat) (s : Inoti) (orgPath chgPath : Text) :
    (Inoti.scanRenamedFolder w depth s orgPath chgPath).db =
      (moveCalls w depth orgPath chgPath).foldl ServiceCall.onItems s.db := by
  induction depth generalizing s orgPath chgPath with
  | zero => rfl
  | succ depth ih =>
      rw [Inoti.scanRenamedFolder, moveCalls]
      cases w.fs.opendir chgPath with
      | none => rfl
      | some entries =>
          simp only
          have hwatch : (s.modifyWatch w orgPath chgPath).db = s.db := modifyWatch_db
          rw [List.foldl_flatMap, ← hwatch]
          refine (List.foldl_hom Inoti.db fun s ent => ?_).symm
          cases ent.hidden with
          | true => rfl
          | false =>
              cases msStrappend orgPath ent.name with
              | none => rfl
              | some pathFrom =>
                  cases msStrappend chgPath ent.name with
                  | none => rfl
                  | some pathTo =>
                      have hdir : (if ent.dType = dtDir then moveCalls w depth pathFrom pathTo
                            else []).foldl ServiceCall.onItems s.db =
                          (if ent.dType = dtDir then
                            Inoti.scanRenamedFolder w depth s pathFrom pathTo else s).db := by
                        split
                        · exact (ih s pathFrom pathTo).symm
                        · rfl
                      simp only [Bool.false_eq_true, if_false, List.foldl_append, hdir]
                      generalize (if ent.dType = dtDir then
                        Inoti.scanRenamedFolder w depth s pathFrom pathTo else s) = s'
                      by_cases hreg : ent.dType = dtReg
                      · simp only [hreg, true_and, if_true, Inoti.moveFile]
                        split
                        · exact (moveItem_db pathFrom pathTo).symm
                        · rfl
                      · simp only [hreg, false_and, if_false, List.foldl_nil]

theorem closeWrite_of_ends {name path : Text} (h : s.endsCreation e name) :
    s.closeWrite w e name path =
      { s.registerFile path with
        createFiles := s.createFiles.erase (e.wd, name)
        prevMask := 0
        prevWd := 0 } :=
  if_pos h

theorem closeWrite_of_not_ends {name path : Text} (h : ¬ s.endsCreation e name) :
    s.closeWrite w e name path =
      if ¬ w.ignored path ∧ w.refreshFails path then s
      else { s with prevMask := 0, prevWd := 0 } :=
  if_neg h

/-- With one plug-in that accepts every file, the calls leave the items that the loop
leaves. -/
theorem event_db (w : World) (s : Inoti) (e : Event) :
    (s.event w e).db = (s.serviceCalls w e).foldl ServiceCall.onItems s.db := by
  rw [Inoti.serviceCalls]
  cases hreaches : s.reaches w e with
  | false => rcases event_of_not_reaches hreaches with hevent | hevent <;> rw [hevent] <;> rfl
  | true =>
      obtain ⟨name, path, hreceived, hevent⟩ := event_of_reaches hreaches
      simp only [if_true, hevent, hreceived, Inoti.handle]
      cases branch e.mask with
      | dirMovedFrom | dirDelete | fileMovedFrom | fileCreate | fileDelete | other => rfl
      | dirMovedTo =>
          cases s.renameCall e with
          | none => rfl
          | some call => exact scanRenamedFolder_db Inoti.maxDepth s call.1 call.2
      | dirCreate => exact directoryScan_db Inoti.maxDepth s path
      | fileMovedTo => exact registerFile_db path
      | fileCloseWrite =>
          by_cases hends : s.endsCreation e name
          · simp only [hends, if_true]
            rw [closeWrite_of_ends hends]
            exact registerFile_db path
          · simp only [hends, if_false]
            rw [closeWrite_of_not_ends hends]
            cases w.ignored path with
            | true => rfl
            | false => cases w.refreshFails path <;> rfl

end Agreement

end MediaServer.Inotify
