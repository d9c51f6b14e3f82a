import MediaServer.Inotify.Service
import MediaServer.Inotify.Walk

/-!
# The relabelling of a renamed subtree

`_ms_inoti_scan_renamed_folder` walks over a directory that has got a new path, with the
old path beside the new one. When the old one is the path under which the subtree has been
watched, every entry of a directory of the subtree gets its new name, and every file is
moved once.

The walk is taken over any static file system, with entries of any type.
-/

namespace MediaServer.Inotify

/-- A call of `ms_move_item`. -/
structure MoveItemCall where
  srcStore : StorageType
  dstStore : StorageType
  srcPath : Text
  dstPath : Text
deriving DecidableEq, Repr

def moveItemCall (srcPath dstPath : Text) : MoveItemCall where
  srcStore := msGetStorageTypeByFull srcPath
  dstStore := msGetStorageTypeByFull dstPath
  srcPath := srcPath
  dstPath := dstPath

/-- The calls of `ms_move_item` in `_ms_inoti_scan_renamed_folder`. -/
def moveItemCalls (w : World) : Nat → Text → Text → List MoveItemCall
  | 0, _, _ => []
  | depth + 1, orgPath, chgPath =>
      match w.fs.opendir chgPath with
      | none => []
      | some entries =>
          entries.flatMap fun ent =>
            if ent.hidden then []
            else
              match msStrappend orgPath ent.name, msStrappend chgPath ent.name with
              | some pathFrom, some pathTo =>
                  (if ent.dType = dtDir then moveItemCalls w depth pathFrom pathTo else []) ++
                    if ent.dType = dtReg ∧
                        msGetStorageTypeByFull pathFrom ≠ .invalidFilePath ∧
                        msGetStorageTypeByFull pathTo ≠ .invalidFilePath then
                      [moveItemCall pathFrom pathTo]
                    else []
              | _, _ => []

/-- They are the calls that the service is asked for. -/
theorem moveCalls_eq (w : World) (depth : Nat) (orgPath chgPath : Text) :
    moveCalls w depth orgPath chgPath =
      (moveItemCalls w depth orgPath chgPath).map fun call =>
        .move call.srcPath call.dstPath := by
  induction depth generalizing orgPath chgPath with
  | zero => rfl
  | succ depth ih =>
      rw [moveCalls, moveItemCalls]
      cases w.fs.opendir chgPath with
      | none => rfl
      | some entries =>
          simp only [List.map_flatMap]
          refine List.flatMap_congr fun ent _ => ?_
          split
          next => rfl
          next =>
            cases msStrappend orgPath ent.name with
            | none => rfl
            | some pathFrom =>
                cases msStrappend chgPath ent.name with
                | none => rfl
                | some pathTo =>
                    simp only [List.map_append, ih]
                    congr 1
                    · split <;> rfl
                    · split <;> rfl

/-- The directories of a tree that no hidden name leads to, by the names from its top. -/
inductive Folder (fs : FileSystem) (dirPath : Text) : Path → Prop where
  | top : Folder fs dirPath []
  | sub {rel : Path} {ent : Dirent} (parent : Folder fs dirPath rel)
      (hent : ent ∈ fs.entries (dirPath ++ text rel)) (hshown : ¬ ent.hidden)
      (htype : ent.dType = dtDir) : Folder fs dirPath (rel ++ [ent.name])

/-- The regular files in these directories that are not hidden. -/
def RegularFile (fs : FileSystem) (dirPath : Text) (rel : Path) : Prop :=
  ∃ folder, ∃ ent ∈ fs.entries (dirPath ++ text folder), Folder fs dirPath folder ∧
    ¬ ent.hidden ∧ ent.dType = dtReg ∧ rel = folder ++ [ent.name]

/-- The tree at `chgPath` can be read, its names are those of a file system, and the
buffers hold its paths, the old and the new ones. -/
structure RenamedTree (fs : FileSystem) (orgPath chgPath : Text) : Prop where
  opens : ∀ rel, Folder fs chgPath rel → fs.opens (chgPath ++ text rel)
  validName : ∀ rel, Folder fs chgPath rel →
    ∀ ent ∈ fs.entries (chgPath ++ text rel), ValidName ent.name
  distinct : ∀ rel, Folder fs chgPath rel →
    ((fs.entries (chgPath ++ text rel)).map Dirent.name).Nodup
  fits : ∀ rel, Folder fs chgPath rel →
    ∀ ent ∈ fs.entries (chgPath ++ text rel), ¬ ent.hidden →
      (orgPath ++ text (rel ++ [ent.name])).length ≤ msFilePathLenMax - 2 ∧
        (chgPath ++ text (rel ++ [ent.name])).length ≤ msFilePathLenMax - 2

/-- The list as `main` leaves it, with the subtree under its old path. -/
structure WatchedTree (fs : FileSystem) (orgPath chgPath : Text) (watches : List Watch) :
    Prop where
  distinct : (watches.map Watch.name).Nodup
  first : watches.head?.map Watch.name = some msDbUpdateNotiPath
  folders : ∀ rel, Folder fs chgPath rel → ∃ node ∈ watches, node.name = orgPath ++ text rel
  unnamed : ∀ node ∈ watches, ¬ Under chgPath node.name

/-- The entries of the subtree are renamed in place, and its files are moved once each. -/
structure Relabels (w : World) (s : Inoti) (orgPath chgPath : Text) : Prop where
  watches : ∃ relabel : Watch → Watch,
    (Inoti.scanRenamedFolder w Inoti.maxDepth s orgPath chgPath).watches =
        s.watches.map relabel ∧
      ∀ node ∈ s.watches,
        (∀ rel, Folder w.fs chgPath rel → node.name = orgPath ++ text rel →
          relabel node = { node with name := chgPath ++ text rel }) ∧
        ((∀ rel, Folder w.fs chgPath rel → node.name ≠ orgPath ++ text rel) →
          relabel node = node)
  once : (moveItemCalls w Inoti.maxDepth orgPath chgPath).Nodup
  calls : ∀ call, call ∈ moveItemCalls w Inoti.maxDepth orgPath chgPath ↔
    ∃ rel, RegularFile w.fs chgPath rel ∧
      call = moveItemCall (orgPath ++ text rel) (chgPath ++ text rel)

/-! ### What the walk comes upon -/

/-- What an entry of a directory leads to. -/
def entryVisits (below : Path → List Visit) (rel : Path) (ent : Dirent) : List Visit :=
  if ent.hidden then []
  else if ent.dType = dtDir then below (rel ++ [ent.name])
  else if ent.dType = dtReg then [.file (rel ++ [ent.name])]
  else []

def folderVisits (fs : FileSystem) (dirPath : Text) : Nat → Path → List Visit
  | 0, _ => []
  | depth + 1, rel =>
      .dir rel :: (fs.entries (dirPath ++ text rel)).flatMap
        (entryVisits (folderVisits fs dirPath depth) rel)

def Visit.file? : Visit → Option Path
  | .dir _ => none
  | .file rel => some rel

def Visit.rel : Visit → Path
  | .dir rel | .file rel => rel

def Visit.Seen (fs : FileSystem) (dirPath : Text) : Visit → Prop
  | .dir rel => Folder fs dirPath rel
  | .file rel => RegularFile fs dirPath rel

theorem nodup_files {vs : List Visit} (h : vs.Nodup) : (vs.filterMap Visit.file?).Nodup := by
  refine h.filterMap fun v v' rel hv hv' => ?_
  cases v with
  | dir _ => cases hv
  | file _ =>
      cases v' with
      | dir _ => cases hv'
      | file _ => exact congrArg Visit.file ((Option.some.inj hv).trans (Option.some.inj hv').symm)

theorem mem_files {vs : List Visit} {rel : Path} :
    rel ∈ vs.filterMap Visit.file? ↔ .file rel ∈ vs := by
  rw [List.mem_filterMap]
  constructor
  · rintro ⟨v, hv, heq⟩
    cases v with
    | dir rel' => cases heq
    | file rel' => rwa [← Option.some.inj heq]
  · exact fun h => ⟨_, h, rfl⟩

section Visits

variable {fs : FileSystem} {dirPath orgPath chgPath : Text} {rel : Path} {depth : Nat}

theorem Folder.shown (h : Folder fs dirPath rel) : Shown rel := by
  induction h with
  | top => exact nofun
  | sub _ _ hshown _ ih => exact ih.concat hshown

theorem RegularFile.shown (h : RegularFile fs dirPath rel) : Shown rel := by
  obtain ⟨folder, ent, -, hfolder, hshown, -, rfl⟩ := h
  exact hfolder.shown.concat hshown

theorem mem_entryVisits {below : Path → List Visit} {ent : Dirent} {v : Visit} :
    v ∈ entryVisits below rel ent ↔ ¬ ent.hidden ∧
      (ent.dType = dtDir ∧ v ∈ below (rel ++ [ent.name]) ∨
        ent.dType = dtReg ∧ v = .file (rel ++ [ent.name])) := by
  have hkinds : dtReg ≠ dtDir := by decide
  rw [entryVisits]
  by_cases hhidden : ent.hidden
  · simp [hhidden]
  · by_cases hdir : ent.dType = dtDir
    · simp [hhidden, hdir, hkinds.symm]
    · by_cases hreg : ent.dType = dtReg
      · simp [hhidden, hreg, hkinds]
      · simp [hhidden, hdir, hreg]

theorem mem_folderVisits_succ {v : Visit} :
    v ∈ folderVisits fs dirPath (depth + 1) rel ↔ v = .dir rel ∨
      ∃ ent ∈ fs.entries (dirPath ++ text rel),
        v ∈ entryVisits (folderVisits fs dirPath depth) rel ent := by
  rw [folderVisits, List.mem_cons, List.mem_flatMap]

theorem seen_of_mem_folderVisits (depth : Nat) (hrel : Folder fs dirPath rel) :
    ∀ v ∈ folderVisits fs dirPath depth rel, v.Seen fs dirPath := by
  induction depth generalizing rel with
  | zero => exact nofun
  | succ depth ih =>
      intro v hv
      cases mem_folderVisits_succ.mp hv with
      | inl hhere => exact hhere ▸ hrel
      | inr hbelow =>
          obtain ⟨ent, hent, hv⟩ := hbelow
          obtain ⟨hshown, hkind⟩ := mem_entryVisits.mp hv
          cases hkind with
          | inl hdir => exact ih (hrel.sub hent hshown hdir.1) v hdir.2
          | inr hreg => exact hreg.2 ▸ ⟨rel, ent, hent, hrel, hshown, hreg.1, rfl⟩

/-- What is come upon in a directory lies at or below it, and what an entry leads to at or
below the entry. -/
theorem prefix_of_mem_folderVisits :
    ∀ v ∈ folderVisits fs dirPath depth rel, rel <+: v.rel := by
  induction depth generalizing rel with
  | zero => exact nofun
  | succ depth ih =>
      intro v hv
      cases mem_folderVisits_succ.mp hv with
      | inl hhere => exact hhere ▸ List.prefix_rfl
      | inr hbelow =>
          obtain ⟨ent, -, hv⟩ := hbelow
          obtain ⟨-, hkind⟩ := mem_entryVisits.mp hv
          cases hkind with
          | inl hdir => exact (List.prefix_append _ _).trans (ih v hdir.2)
          | inr hreg => exact hreg.2 ▸ List.prefix_append _ _

theorem prefix_of_mem_entryVisits {ent : Dirent} {v : Visit}
    (hv : v ∈ entryVisits (folderVisits fs dirPath depth) rel ent) :
    rel ++ [ent.name] <+: v.rel := by
  obtain ⟨-, hkind⟩ := mem_entryVisits.mp hv
  cases hkind with
  | inl hdir => exact prefix_of_mem_folderVisits v hdir.2
  | inr hreg => exact hreg.2 ▸ List.prefix_rfl

/-- The walk goes on into a directory that it has come upon while it may go deeper. -/
theorem mem_folderVisits_of_entry {sub : Path} {ent : Dirent} {v : Visit}
    (hsub : .dir sub ∈ folderVisits fs dirPath depth rel)
    (hent : ent ∈ fs.entries (dirPath ++ text sub)) (hdepth : sub.length + 1 < depth + rel.length)
    (hv : ∀ n, 0 < n → v ∈ entryVisits (folderVisits fs dirPath n) sub ent) :
    v ∈ folderVisits fs dirPath depth rel := by
  induction depth generalizing rel with
  | zero => cases hsub
  | succ depth ih =>
      refine mem_folderVisits_succ.mpr (.inr ?_)
      cases mem_folderVisits_succ.mp hsub with
      | inl hhere =>
          obtain rfl := Visit.dir.inj hhere
          exact ⟨ent, hent, hv depth (by omega)⟩
      | inr hbelow =>
          obtain ⟨between, hbetween, hsub⟩ := hbelow
          obtain ⟨hshown, hkind⟩ := mem_entryVisits.mp hsub
          refine ⟨between, hbetween, mem_entryVisits.mpr ⟨hshown, ?_⟩⟩
          cases hkind with
          | inl hdir =>
              refine .inl ⟨hdir.1, ih hdir.2 ?_⟩
              rw [List.length_append, List.length_singleton]
              omega
          | inr hreg => exact nomatch hreg.2

theorem Folder.mem_folderVisits (h : Folder fs dirPath rel) (hdepth : rel.length < depth) :
    .dir rel ∈ folderVisits fs dirPath depth [] := by
  induction h with
  | top =>
      cases depth with
      | zero => cases hdepth
      | succ depth => exact mem_folderVisits_succ.mpr (.inl rfl)
  | sub parent hent hshown htype ih =>
      rw [List.length_append, List.length_singleton] at hdepth
      refine mem_folderVisits_of_entry (ih (by omega)) hent hdepth fun n hn => ?_
      refine mem_entryVisits.mpr ⟨hshown, .inl ⟨htype, ?_⟩⟩
      cases n with
      | zero => cases hn
      | succ n => exact mem_folderVisits_succ.mpr (.inl rfl)

theorem RegularFile.mem_folderVisits (h : RegularFile fs dirPath rel)
    (hdepth : rel.length < depth) : .file rel ∈ folderVisits fs dirPath depth [] := by
  obtain ⟨folder, ent, hent, hfolder, hshown, htype, rfl⟩ := h
  rw [List.length_append, List.length_singleton] at hdepth
  refine mem_folderVisits_of_entry (hfolder.mem_folderVisits (by omega)) hent hdepth fun n _ => ?_
  exact mem_entryVisits.mpr ⟨hshown, .inr ⟨htype, rfl⟩⟩

/-- Nothing is come upon twice: different entries of a directory lead to different places. -/
theorem folderVisits_nodup (depth : Nat)
    (hdistinct : ∀ rel, Folder fs dirPath rel →
      ((fs.entries (dirPath ++ text rel)).map Dirent.name).Nodup)
    (hrel : Folder fs dirPath rel) : (folderVisits fs dirPath depth rel).Nodup := by
  induction depth generalizing rel with
  | zero => exact List.nodup_nil
  | succ depth ih =>
      rw [folderVisits, List.nodup_cons, List.nodup_flatMap]
      refine ⟨fun hmem => ?_, fun ent hent => ?_, ?_⟩
      · obtain ⟨ent, -, hv⟩ := List.mem_flatMap.mp hmem
        have hle := (prefix_of_mem_entryVisits hv).length_le
        rw [List.length_append, List.length_singleton] at hle
        exact absurd hle (Nat.not_succ_le_self _)
      · rw [entryVisits]
        split
        next => exact List.nodup_nil
        next hshown =>
          split
          next htype => exact ih (hrel.sub hent hshown htype)
          next =>
            split
            next => exact List.nodup_singleton _
            next => exact List.nodup_nil
      · refine (List.pairwise_map.mp (hdistinct rel hrel)).imp fun {ent other} hne v hv hv' => ?_
        have hlength : (rel ++ [ent.name]).length = (rel ++ [other.name]).length := by
          rw [List.length_append, List.length_append, List.length_singleton, List.length_singleton]
        have hsame := (List.prefix_of_prefix_length_le (prefix_of_mem_entryVisits hv)
          (prefix_of_mem_entryVisits hv') (Nat.le_of_eq hlength)).eq_of_length hlength
        exact hne (List.singleton_inj.mp (List.append_cancel_left hsame))

end Visits

section Paths

variable {fs : FileSystem} {dirPath orgPath chgPath path : Text} {rel : Path} {name : Text}

theorem append_text_concat (path : Text) (rel : Path) (name : Text) :
    path ++ text (rel ++ [name]) = (path ++ text rel) ++ '/' :: name := by
  rw [text_append, text_singleton, List.append_assoc]

/-- Neither storage holds the directory that the file manager signals with. -/
theorem notiPath_ne (h : msGetStorageTypeByFull path ≠ .invalidFilePath) :
    msDbUpdateNotiPath ≠ path := by
  rintro rfl
  exact h (by decide)

/-- A path that begins with a slash can be taken apart. -/
theorem exists_text (rest : Text) : ∃ q, text q = '/' :: rest := by
  induction rest with
  | nil => exact ⟨[[]], rfl⟩
  | cons c rest ih =>
      obtain ⟨q, hq⟩ := ih
      by_cases hc : c = '/'
      · exact ⟨[] :: q, by rw [hc, ← hq]; rfl⟩
      · cases q with
        | nil => cases hq
        | cons n q =>
            have hrest : n ++ text q = rest := (List.cons.inj hq).2
            exact ⟨(c :: n) :: q, by rw [← hrest]; rfl⟩

theorem exists_text_of_storage (h : msGetStorageTypeByFull path ≠ .invalidFilePath) :
    ∃ q, text q = path := by
  rw [msGetStorageTypeByFull] at h
  split at h
  next hinternal =>
    obtain ⟨rest, rfl⟩ := hinternal
    exact exists_text _
  next =>
    split at h
    next hexternal =>
      obtain ⟨rest, rfl⟩ := hexternal
      exact exists_text _
    next => exact absurd rfl h

namespace RenamedTree

variable (tree : RenamedTree fs orgPath chgPath)

include tree

theorem slashless (h : Folder fs chgPath rel) : ∀ name ∈ rel, '/' ∉ name := by
  induction h with
  | top => exact nofun
  | sub parent hent hshown htype ih =>
      intro name hname
      cases List.mem_append.mp hname with
      | inl hname => exact ih name hname
      | inr hname => exact List.mem_singleton.mp hname ▸ (tree.validName _ parent _ hent).2

theorem slashless_file (h : RegularFile fs chgPath rel) : ∀ name ∈ rel, '/' ∉ name := by
  obtain ⟨folder, ent, hent, hfolder, -, -, rfl⟩ := h
  intro name hname
  cases List.mem_append.mp hname with
  | inl hname => exact tree.slashless hfolder name hname
  | inr hname => exact List.mem_singleton.mp hname ▸ (tree.validName _ hfolder _ hent).2

theorem length_lt {folder : Path} {ent : Dirent} (hfolder : Folder fs chgPath folder)
    (hent : ent ∈ fs.entries (chgPath ++ text folder)) (hshown : ¬ ent.hidden) :
    (folder ++ [ent.name]).length < Inoti.maxDepth := by
  have hfits := (tree.fits folder hfolder ent hent hshown).2
  have hlength := length_le_text (folder ++ [ent.name])
  rw [List.length_append] at hfits
  rw [Inoti.maxDepth]
  omega

theorem folder_length_lt (h : Folder fs chgPath rel) : rel.length < Inoti.maxDepth := by
  cases h with
  | top => decide
  | sub parent hent hshown _ => exact tree.length_lt parent hent hshown

theorem file_length_lt (h : RegularFile fs chgPath rel) : rel.length < Inoti.maxDepth := by
  obtain ⟨folder, ent, hent, hfolder, hshown, -, rfl⟩ := h
  exact tree.length_lt hfolder hent hshown

theorem opendir {w : World} (hfs : w.fs = fs) (h : Folder fs chgPath rel) :
    w.fs.opendir (chgPath ++ text rel) = some (fs.entries (chgPath ++ text rel)) := by
  rw [FileSystem.opendir, hfs, if_pos (tree.opens rel h)]

theorem strappend {ent : Dirent} (h : Folder fs chgPath rel)
    (hent : ent ∈ fs.entries (chgPath ++ text rel)) (hshown : ¬ ent.hidden) :
    msStrappend (orgPath ++ text rel) ent.name = some (orgPath ++ text (rel ++ [ent.name])) ∧
      msStrappend (chgPath ++ text rel) ent.name =
        some (chgPath ++ text (rel ++ [ent.name])) := by
  obtain ⟨horg, hchg⟩ := tree.fits rel h ent hent hshown
  rw [append_text_concat] at horg hchg
  rw [append_text_concat, append_text_concat]
  exact ⟨msStrappend_whole horg, msStrappend_whole hchg⟩

end RenamedTree

end Paths

section Walk

variable {w : World} {s : Inoti} {orgPath chgPath : Text} {rel q : Path}

/-- The recursion is the fold over what the walk comes upon. -/
theorem scanRenamedFolder_eq_visits (depth : Nat) (tree : RenamedTree w.fs orgPath chgPath)
    (hto : ∀ rel, text (q ++ rel) = chgPath ++ text rel) (s : Inoti)
    (hrel : Folder w.fs chgPath rel) :
    Inoti.scanRenamedFolder w depth s (orgPath ++ text rel) (chgPath ++ text rel) =
      (folderVisits w.fs chgPath depth rel).foldl
        (Visit.apply w q fun rel => orgPath ++ text rel) s := by
  induction depth generalizing rel s with
  | zero => rfl
  | succ depth ih =>
      rw [Inoti.scanRenamedFolder, tree.opendir rfl hrel, folderVisits, List.foldl_cons,
        List.foldl_flatMap, Visit.apply, hto]
      apply List.foldl_ext
      intro s ent hent
      by_cases hhidden : ent.hidden
      · rw [entryVisits, if_pos hhidden, if_pos hhidden, List.foldl_nil]
      · obtain ⟨hfrom, hpath⟩ := tree.strappend hrel hent hhidden
        rw [entryVisits, if_neg hhidden, if_neg hhidden]
        by_cases hdir : ent.dType = dtDir
        · have hkind : ¬ dtDir = dtReg := by decide
          simp only [hfrom, hpath, hdir, if_true, hkind, if_false]
          exact ih s (hrel.sub hent hhidden hdir)
        · by_cases hreg : ent.dType = dtReg
          · simp only [hfrom, hpath, if_neg hdir, if_pos hreg, List.foldl_cons, List.foldl_nil,
              Visit.apply, hto]
          · simp only [hfrom, hpath, if_neg hdir, List.foldl_nil, hreg, if_false]

theorem moveItemCalls_eq_visits (depth : Nat) (tree : RenamedTree w.fs orgPath chgPath)
    (horg : msGetStorageTypeByFull orgPath ≠ .invalidFilePath)
    (hchg : msGetStorageTypeByFull chgPath ≠ .invalidFilePath)
    (hrel : Folder w.fs chgPath rel) :
    moveItemCalls w depth (orgPath ++ text rel) (chgPath ++ text rel) =
      ((folderVisits w.fs chgPath depth rel).filterMap Visit.file?).map fun rel =>
        moveItemCall (orgPath ++ text rel) (chgPath ++ text rel) := by
  induction depth generalizing rel with
  | zero => rfl
  | succ depth ih =>
      have hcons : (folderVisits w.fs chgPath (depth + 1) rel).filterMap Visit.file? =
          ((w.fs.entries (chgPath ++ text rel)).flatMap
            (entryVisits (folderVisits w.fs chgPath depth) rel)).filterMap Visit.file? := rfl
      rw [moveItemCalls, tree.opendir rfl hrel, hcons, List.filterMap_flatMap, List.map_flatMap]
      refine List.flatMap_congr fun ent hent => ?_
      by_cases hhidden : ent.hidden
      · rw [entryVisits, if_pos hhidden, if_pos hhidden]
        rfl
      · obtain ⟨hfrom, hpath⟩ := tree.strappend hrel hent hhidden
        rw [entryVisits, if_neg hhidden, if_neg hhidden]
        by_cases hdir : ent.dType = dtDir
        · have hkind : ¬ dtDir = dtReg := by decide
          simp only [hfrom, hpath, hdir, if_true, hkind, false_and, if_false, List.append_nil]
          exact ih (hrel.sub hent hhidden hdir)
        · by_cases hreg : ent.dType = dtReg
          · have hstored := storage_append horg (text (rel ++ [ent.name]))
            have hstored' := storage_append hchg (text (rel ++ [ent.name]))
            simp only [hfrom, hpath, if_neg hdir, if_pos hreg, List.nil_append]
            rw [if_pos ⟨hreg, hstored, hstored'⟩]
            rfl
          · simp only [hfrom, hpath, if_neg hdir, hreg, false_and, if_false]
            rfl

/-- The directories and files of a walk as a tree of their own. -/
def Tree.ofVisits (q : Path) (vs : List Visit) : Tree where
  dirs := (vs.filterMap Visit.dir?).map fun rel => (q ++ rel, 1)
  files := (vs.filterMap Visit.file?).map fun rel => q ++ rel
  nextId := 2

theorem isDir_ofVisits {vs : List Visit} :
    (Tree.ofVisits q vs).IsDir (q ++ rel) ↔ .dir rel ∈ vs := by
  rw [← mem_dirs]
  constructor
  · rintro ⟨id, hmem⟩
    obtain ⟨rel', hrel', heq⟩ := List.mem_map.mp hmem
    rwa [← List.append_cancel_left (Prod.mk.inj heq).1]
  · exact fun h => ⟨1, List.mem_map.mpr ⟨rel, h, rfl⟩⟩

theorem sound_ofVisits {vs : List Visit} (hshown : ∀ v ∈ vs, Shown v.rel) :
    ∀ v ∈ vs, v.Sound (Tree.ofVisits q vs) q := by
  intro v hv
  cases v with
  | dir rel => exact ⟨isDir_ofVisits.mpr hv, hshown _ hv⟩
  | file rel => exact ⟨List.mem_map_of_mem (mem_files.mpr hv), hshown _ hv⟩

theorem watchedTree_known (tree : RenamedTree w.fs orgPath chgPath)
    (watched : WatchedTree w.fs orgPath chgPath s.watches)
    (horg : msGetStorageTypeByFull orgPath ≠ .invalidFilePath)
    (hto : ∀ rel, text (q ++ rel) = chgPath ++ text rel) {vs : List Visit}
    (hvs : ∀ v ∈ vs, v.Seen w.fs chgPath) :
    Known (Tree.ofVisits q vs) q (fun rel => orgPath ++ text rel) s.watches := by
  have hfolder : ∀ rel, (Visit.dir rel).Sound (Tree.ofVisits q vs) q → Folder w.fs chgPath rel :=
    fun rel hsound => hvs _ (isDir_ofVisits.mp hsound.1)
  refine ⟨fun rel rel' hrel hrel' heq => ?_, fun rel rel' hrel hrel' heq => ?_,
    fun rel hrel node hnode heq => ?_, fun rel hrel => ?_⟩
  · exact text_inj (tree.slashless (hfolder _ hrel)) (tree.slashless (hfolder _ hrel'))
      (List.append_cancel_left heq)
  · obtain ⟨node, hnode, hname⟩ := watched.folders rel (hfolder _ hrel)
    refine watched.unnamed node hnode ?_
    rw [hname, heq, hto]
    exact under_append_text chgPath rel'
  · have hfirst := watched.first
    rw [Option.mem_def.mp hnode, Option.map_some, heq] at hfirst
    exact notiPath_ne (storage_append horg (text rel)) (Option.some.inj hfirst).symm
  · have hthere := watched.folders rel (hfolder _ hrel)
    refine Nat.le_antisymm (countP_name_le_one watched.distinct) (List.countP_pos_iff.mpr ?_)
    simpa using hthere

end Walk

/-- A renamed directory takes the watches of its subtree and the items of its files along. -/
theorem scanRenamedFolder_relabels {w : World} {s : Inoti} {orgPath chgPath : Text}
    (horg : msGetStorageTypeByFull orgPath ≠ .invalidFilePath)
    (hchg : msGetStorageTypeByFull chgPath ≠ .invalidFilePath)
    (tree : RenamedTree w.fs orgPath chgPath)
    (watched : WatchedTree w.fs orgPath chgPath s.watches) : Relabels w s orgPath chgPath := by
  obtain ⟨q, hq⟩ := exists_text_of_storage hchg
  have hto : ∀ rel, text (q ++ rel) = chgPath ++ text rel := by
    intro rel
    rw [text_append, hq]
  have htop : Folder w.fs chgPath [] := .top
  have hwalk := scanRenamedFolder_eq_visits Inoti.maxDepth tree hto s htop
  have hcalls := moveItemCalls_eq_visits Inoti.maxDepth tree horg hchg htop
  rw [show text [] = [] from rfl, List.append_nil, List.append_nil] at hwalk hcalls
  have hseen := seen_of_mem_folderVisits Inoti.maxDepth htop
  have hnodup := folderVisits_nodup Inoti.maxDepth tree.distinct htop
  set vs := folderVisits w.fs chgPath Inoti.maxDepth [] with vs_def
  have hfolder : ∀ rel, .dir rel ∈ vs ↔ Folder w.fs chgPath rel := fun rel =>
    ⟨fun h => hseen _ h, fun h => h.mem_folderVisits (tree.folder_length_lt h)⟩
  have hfile : ∀ rel, .file rel ∈ vs ↔ RegularFile w.fs chgPath rel := fun rel =>
    ⟨fun h => hseen _ h, fun h => h.mem_folderVisits (tree.file_length_lt h)⟩
  have hshown : ∀ v ∈ vs, Shown v.rel := by
    intro v hv
    cases v with
    | dir rel => exact ((hfolder rel).mp hv).shown
    | file rel => exact ((hfile rel).mp hv).shown
  have known := watchedTree_known tree watched horg hto hseen
  have hsound := sound_ofVisits (q := q) hshown
  refine ⟨⟨retitle q (fun rel => orgPath ++ text rel) (vs.filterMap Visit.dir?), ?_, ?_⟩, ?_, ?_⟩
  · rw [hwalk]
    exact (foldl_known known vs hsound).1
  · refine fun node hnode => ⟨fun rel hrel hname => ?_, fun hother => ?_⟩
    · rw [retitle_of_mem known (fun rel hrel => hsound _ (mem_dirs.mp hrel))
        (mem_dirs.mpr ((hfolder rel).mpr hrel)) hname, hto]
    · refine retitle_of_absent fun rel hrel heq => ?_
      exact hother rel ((hfolder rel).mp (mem_dirs.mp hrel)) heq.symm
  · rw [hcalls]
    refine (nodup_files hnodup).map_on fun rel hrel rel' hrel' heq => ?_
    have hslashless := tree.slashless_file ((hfile rel).mp (mem_files.mp hrel))
    have hslashless' := tree.slashless_file ((hfile rel').mp (mem_files.mp hrel'))
    have hdst : chgPath ++ text rel = chgPath ++ text rel' := congrArg MoveItemCall.dstPath heq
    exact text_inj hslashless hslashless' (List.append_cancel_left hdst)
  · intro call
    rw [hcalls, List.mem_map]
    refine exists_congr fun rel => ?_
    rw [mem_files, hfile, eq_comm]

/-- An album with a file in it and a directory with another one. -/
def albumFs : FileSystem where
  entries := fun path =>
    if path = "/opt/media/b".toList then
      [⟨".".toList, dtDir⟩, ⟨"sub".toList, dtDir⟩, ⟨"f".toList, dtReg⟩]
    else if path = "/opt/media/b/sub".toList then [⟨"g".toList, dtReg⟩]
    else []
  opens := fun _ => true

theorem folder_albumFs {rel : Path} (h : Folder albumFs "/opt/media/b".toList rel) :
    rel = [] ∨ rel = ["sub".toList] := by
  induction h with
  | top => exact .inl rfl
  | @sub rel ent parent hent hshown htype ih =>
      cases ih with
      | inl htop =>
          subst htop
          have hentries : ent ∈ [⟨".".toList, dtDir⟩, ⟨"sub".toList, dtDir⟩, ⟨"f".toList, dtReg⟩] :=
            hent
          simp only [List.mem_cons, List.not_mem_nil, or_false] at hentries
          rcases hentries with rfl | rfl | rfl
          · exact absurd (by decide) hshown
          · exact .inr rfl
          · cases htype
      | inr hsub =>
          subst hsub
          have hentries : ent ∈ [⟨"g".toList, dtReg⟩] := hent
          obtain rfl := List.mem_singleton.mp hentries
          cases htype

theorem scanRenamedFolder_relabels_album :
    Relabels { fs := albumFs, inotifyAddWatch := fun _ => -1 }
      { watches := [⟨msDbUpdateNotiPath, 1⟩, ⟨"/opt/media/a".toList, 2⟩, ⟨"/opt/media/c".toList, 3⟩,
          ⟨"/opt/media/a/sub".toList, 4⟩] }
      "/opt/media/a".toList "/opt/media/b".toList := by
  have hall : ∀ p : Path → Prop, p [] → p ["sub".toList] →
      ∀ rel, Folder albumFs "/opt/media/b".toList rel → p rel := by
    intro p htop hsub rel hrel
    cases folder_albumFs hrel with
    | inl heq => exact heq ▸ htop
    | inr heq => exact heq ▸ hsub
  refine scanRenamedFolder_relabels (by decide) (by decide) ⟨?_, ?_, ?_, ?_⟩ ⟨?_, ?_, ?_, ?_⟩
  · exact hall _ (by decide) (by decide)
  · exact hall _ (by decide) (by decide)
  · exact hall _ (by decide) (by decide)
  · exact hall _ (by decide) (by decide)
  · decide
  · decide
  · exact hall _ (by decide) (by decide)
  · decide

end MediaServer.Inotify
