import MediaServer.Inotify.Thread

/-!
# What a walk leaves alone

The walkers add and rename watches, and register and move items. The variables of
the event loop are none of their business.
-/

namespace MediaServer.Inotify

/-- Only the watch list, the descriptors and the items may differ. -/
structure SameLoop (s t : Inoti) : Prop where
  createFiles : t.createFiles = s.createFiles
  prevMask : t.prevMask = s.prevMask
  prevWd : t.prevWd = s.prevWd
  prevName : t.prevName = s.prevName
  stopped : t.stopped = s.stopped

namespace SameLoop

variable {w : World} {s t u : Inoti}

theorem refl (s : Inoti) : SameLoop s s := ⟨rfl, rfl, rfl, rfl, rfl⟩

theorem trans (h : SameLoop s t) (h' : SameLoop t u) : SameLoop s u where
  createFiles := h'.createFiles.trans h.createFiles
  prevMask := h'.prevMask.trans h.prevMask
  prevWd := h'.prevWd.trans h.prevWd
  prevName := h'.prevName.trans h.prevName
  stopped := h'.stopped.trans h.stopped

theorem foldl {β : Type} {f : Inoti → β → Inoti} (hf : ∀ s b, SameLoop s (f s b)) (bs : List β)
    (s : Inoti) : SameLoop s (bs.foldl f s) := by
  induction bs generalizing s with
  | nil => exact .refl s
  | cons b bs ih => exact (hf s b).trans (ih (f s b))

theorem addWatch (path : Text) : SameLoop s (s.addWatch w path) := by
  rw [Inoti.addWatch]
  split
  · exact .refl s
  · simp only
    split
    · exact ⟨rfl, rfl, rfl, rfl, rfl⟩
    · exact .refl s

theorem modifyWatch (pathFrom pathTo : Text) : SameLoop s (s.modifyWatch w pathFrom pathTo) := by
  rw [Inoti.modifyWatch]
  split
  · exact addWatch pathTo
  · split
    · exact addWatch pathTo
    · split
      · exact ⟨rfl, rfl, rfl, rfl, rfl⟩
      · exact addWatch pathTo

theorem registerFile (path : Text) : SameLoop s (s.registerFile path) := by
  rw [Inoti.registerFile]
  split
  · exact .refl s
  · exact ⟨rfl, rfl, rfl, rfl, rfl⟩

theorem moveItem (srcPath dstPath : Text) : SameLoop s (s.moveItem srcPath dstPath) := by
  rw [Inoti.moveItem]
  split
  · exact ⟨rfl, rfl, rfl, rfl, rfl⟩
  · exact .refl s

theorem moveFile (pathFrom pathTo : Text) : SameLoop s (s.moveFile pathFrom pathTo) := by
  rw [Inoti.moveFile]
  split
  · exact moveItem pathFrom pathTo
  · exact ⟨rfl, rfl, rfl, rfl, rfl⟩

theorem directoryScan (depth : Nat) (s : Inoti) (dirPath : Text) :
    SameLoop s (Inoti.directoryScanAndRegisterFile w depth s dirPath) := by
  induction depth generalizing s dirPath with
  | zero => exact .refl s
  | succ depth ih =>
      rw [Inoti.directoryScanAndRegisterFile]
      split
      · exact .refl s
      · refine (addWatch dirPath).trans (foldl (fun s ent => ?_) _ _)
        split
        · exact .refl s
        · split
          · exact .refl s
          · split
            · exact ih s _
            · exact registerFile _

theorem scanRenamedFolder (depth : Nat) (s : Inoti) (orgPath chgPath : Text) :
    SameLoop s (Inoti.scanRenamedFolder w depth s orgPath chgPath) := by
  induction depth generalizing s orgPath chgPath with
  | zero => exact .refl s
  | succ depth ih =>
      rw [Inoti.scanRenamedFolder]
      split
      · exact .refl s
      · refine (modifyWatch orgPath chgPath).trans (foldl (fun s ent => ?_) _ _)
        split
        · exact .refl s
        · split
          next pathFrom pathTo _ _ =>
            have hdir : SameLoop s
                (if ent.dType = dtDir then
                  Inoti.scanRenamedFolder w depth s pathFrom pathTo else s) := by
              split
              · exact ih s pathFrom pathTo
              · exact .refl s
            simp only
            split
            · exact hdir.trans (moveFile pathFrom pathTo)
            · exact hdir
          next => exact .refl s

end SameLoop

variable {w : World} {s : Inoti} {e : Event} {name path pathFrom pathTo : Text}

@[simp] theorem addWatch_db : (s.addWatch w path).db = s.db := by
  rw [Inoti.addWatch]
  split
  · rfl
  · simp only
    split <;> rfl

@[simp] theorem modifyWatch_db : (s.modifyWatch w pathFrom pathTo).db = s.db := by
  rw [Inoti.modifyWatch]
  split
  · exact addWatch_db
  · split
    · exact addWatch_db
    · split
      · rfl
      · exact addWatch_db

/-! ### What crashes the server

Only the scan of a renamed directory gets to the line that does. -/

@[simp] theorem addWatch_faulted : (s.addWatch w path).faulted = s.faulted := by
  rw [Inoti.addWatch]
  split
  · rfl
  · simp only
    split <;> rfl

@[simp] theorem modifyWatch_faulted :
    (s.modifyWatch w pathFrom pathTo).faulted = s.faulted := by
  rw [Inoti.modifyWatch]
  split
  · exact addWatch_faulted
  · split
    · exact addWatch_faulted
    · split
      · rfl
      · exact addWatch_faulted

@[simp] theorem registerFile_faulted : (s.registerFile path).faulted = s.faulted := by
  rw [Inoti.registerFile]
  split <;> rfl

theorem moveFile_faulted (hfrom : msGetStorageTypeByFull pathFrom ≠ .invalidFilePath)
    (hto : msGetStorageTypeByFull pathTo ≠ .invalidFilePath) :
    (s.moveFile pathFrom pathTo).faulted = s.faulted := by
  rw [Inoti.moveFile, if_pos ⟨hfrom, hto⟩, Inoti.moveItem]
  split <;> rfl

theorem foldl_faulted {β : Type} {f : Inoti → β → Inoti} {bs : List β}
    (hf : ∀ s, ∀ b ∈ bs, (f s b).faulted = s.faulted) : (bs.foldl f s).faulted = s.faulted := by
  induction bs generalizing s with
  | nil => rfl
  | cons b bs ih =>
      rw [List.foldl_cons, ih fun s b' hb' => hf s b' (List.mem_cons_of_mem _ hb')]
      exact hf s b List.mem_cons_self

theorem directoryScan_faulted (depth : Nat) (s : Inoti) (dirPath : Text) :
    (Inoti.directoryScanAndRegisterFile w depth s dirPath).faulted = s.faulted := by
  induction depth generalizing s dirPath with
  | zero => rfl
  | succ depth ih =>
      rw [Inoti.directoryScanAndRegisterFile]
      split
      · rfl
      · refine (foldl_faulted fun s ent _ => ?_).trans addWatch_faulted
        split
        · rfl
        · split
          · rfl
          · split
            · exact ih s _
            · exact registerFile_faulted

theorem event_faulted (hbranch : branch e.mask ≠ .dirMovedTo) :
    (s.event w e).faulted = s.faulted := by
  rw [Inoti.event]
  split
  · rfl
  · split
    · rfl
    · split
      · rfl
      · split
        · rfl
        next name path _ =>
          rw [Inoti.handle]
          cases h : branch e.mask with
          | dirMovedTo => exact absurd h hbranch
          | dirMovedFrom | dirDelete | fileMovedFrom | fileCreate | fileDelete | other => rfl
          | dirCreate => exact directoryScan_faulted _ s path
          | fileMovedTo => exact registerFile_faulted
          | fileCloseWrite =>
              simp only [Inoti.closeWrite]
              split
              · exact registerFile_faulted
              · split <;> rfl

/-- No branch of the loop stops it. -/
theorem handle_stopped : (s.handle w e name path).stopped = s.stopped := by
  rw [Inoti.handle]
  split
  · rfl
  · split
    · rfl
    · exact (SameLoop.scanRenamedFolder _ _ _ _).stopped
  · exact (SameLoop.directoryScan _ _ _).stopped
  · rfl
  · rfl
  · rfl
  · exact (SameLoop.registerFile _).stopped
  · rfl
  · rw [Inoti.closeWrite]
    split
    · exact (SameLoop.registerFile _).stopped
    · split <;> rfl
  · rfl

end MediaServer.Inotify
