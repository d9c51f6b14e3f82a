import MediaServer.Types

/-!
# Paths

The helpers of `media-server-utils.c` that build paths in buffers of
`MS_FILE_PATH_LEN_MAX` bytes, and the directory entries that the walkers read.
-/

namespace MediaServer

def msFilePathLenMax : Nat := 4096
def msFileNameLenMax : Nat := 255

/-- `ms_strappend` with the pattern `"%s/%s"`: the test does not count the slash,
and `snprintf` is given one byte less than the buffer has. -/
def msStrappend (str1 str2 : Text) : Option Text :=
  if str1.length + str2.length ≤ msFilePathLenMax - 1 then
    some ((str1 ++ '/' :: str2).take (msFilePathLenMax - 2))
  else none

/-- `ms_strcopy` with the pattern `"%s"`. -/
def msStrcopy (size : Nat) (str1 : Text) : Option Text :=
  if str1.length ≤ size - 1 then some (str1.take (size - 2)) else none

def msGetStorageTypeByFull (path : Text) : StorageType :=
  if msRootPathInternal <+: path then .internal
  else if msRootPathExternal <+: path then .external
  else .invalidFilePath

/-- No path begins with both roots. -/
theorem msGetStorageTypeByFull_of_external {path : Text} (h : msRootPathExternal <+: path) :
    msGetStorageTypeByFull path = .external := by
  have hnot : ¬ msRootPathInternal <+: path := by
    intro hinternal
    have hshort : msRootPathInternal <+: msRootPathExternal :=
      List.prefix_of_prefix_length_le hinternal h (by decide)
    exact absurd hshort (by decide)
  rw [msGetStorageTypeByFull, if_neg hnot, if_pos h]

/-- What lies below a path is on the same storage. -/
theorem storage_append {path : Text}
    (h : msGetStorageTypeByFull path ≠ .invalidFilePath) (rest : Text) :
    msGetStorageTypeByFull (path ++ rest) ≠ .invalidFilePath := by
  rw [msGetStorageTypeByFull] at h ⊢
  by_cases hinternal : msRootPathInternal <+: path
  · rw [if_pos (hinternal.trans (List.prefix_append path rest))]
    decide
  · rw [if_neg hinternal] at h
    by_cases hexternal : msRootPathExternal <+: path
    · rw [if_pos (hexternal.trans (List.prefix_append path rest))]
      split <;> decide
    · rw [if_neg hexternal] at h
      exact absurd rfl h

/-- The loop of `ms_get_full_path_from_node` over the names from the root down;
`path` ends in a slash once a name has been copied. -/
def fullPathLoop (path : Text) : List Text → Option Text
  | [] => some path.dropLast
  | name :: rest =>
      if path.length + name.length > msFilePathLenMax then none
      else fullPathLoop (path ++ name ++ ['/']) rest

/-- `ms_get_full_path_from_node`; the node is given by the names of its ancestors
and itself, the root first. -/
def msGetFullPathFromNode (names : List Text) : Option Text := fullPathLoop [] names

/-- One `struct dirent`. -/
structure Dirent where
  name : Text
  dType : Nat
deriving DecidableEq, Repr

def dtDir : Nat := 4
def dtReg : Nat := 8

namespace Dirent

/-- `entry.d_type & DT_DIR`. -/
def isDir (e : Dirent) : Bool := e.dType &&& dtDir ≠ 0

/-- `entry.d_type & DT_REG`. -/
def isReg (e : Dirent) : Bool := e.dType &&& dtReg ≠ 0

/-- `entry.d_name[0] == '.'`. -/
def hidden (e : Dirent) : Bool := e.name.head? = some '.'

end Dirent

/-- The directories of a storage and which of them `opendir` opens. -/
structure FileSystem where
  entries : Text → List Dirent
  opens : Text → Bool

def FileSystem.opendir (fs : FileSystem) (path : Text) : Option (List Dirent) :=
  if fs.opens path then some (fs.entries path) else none

/-- The names joined by slashes. -/
def joinNames (names : List Text) : Text := ['/'].intercalate names

section JoinNames

@[simp] theorem joinNames_singleton (name : Text) : joinNames [name] = name :=
  List.intercalate_singleton

@[simp] theorem joinNames_cons_cons (name next : Text) (names : List Text) :
    joinNames (name :: next :: names) = name ++ '/' :: joinNames (next :: names) := by
  rw [joinNames, List.intercalate_cons_cons, List.append_assoc]
  rfl

theorem joinNames_concat (n name : Text) (ns : List Text) :
    joinNames (n :: ns ++ [name]) = joinNames (n :: ns) ++ '/' :: name := by
  induction ns generalizing n with
  | nil => simp
  | cons m ns ih =>
      have htail := ih m
      rw [List.cons_append] at htail
      simp [htail]

theorem length_le_joinNames (name : Text) (rest : List Text) :
    name.length ≤ (joinNames (name :: rest)).length := by
  cases rest with
  | nil => rw [joinNames_singleton]
  | cons next rest =>
      rw [joinNames_cons_cons, List.length_append]
      exact Nat.le_add_right _ _

theorem length_joinNames_cons_cons (name next : Text) (rest : List Text) :
    (joinNames (name :: next :: rest)).length =
      name.length + 1 + (joinNames (next :: rest)).length := by
  rw [joinNames_cons_cons, List.length_append, List.length_cons]
  omega

end JoinNames

/-- The loop refuses a path exactly if it is longer than the buffer. -/
theorem fullPathLoop_eq (path name : Text) (rest : List Text) :
    fullPathLoop path (name :: rest) =
      if path.length + (joinNames (name :: rest)).length ≤ msFilePathLenMax then
        some (path ++ joinNames (name :: rest))
      else none := by
  induction rest generalizing path name with
  | nil =>
      rw [joinNames_singleton]
      by_cases hfits : path.length + name.length ≤ msFilePathLenMax
      · rw [fullPathLoop, if_neg (Nat.not_lt.mpr hfits), fullPathLoop, List.dropLast_concat,
          if_pos hfits]
      · rw [fullPathLoop, if_pos (Nat.not_le.mp hfits), if_neg hfits]
  | cons next rest ih =>
      have hlength : (path ++ name ++ ['/']).length = path.length + name.length + 1 := by
        rw [List.length_append, List.length_append, List.length_singleton]
      have hpath : path ++ name ++ ['/'] ++ joinNames (next :: rest) =
          path ++ joinNames (name :: next :: rest) := by
        rw [joinNames_cons_cons]
        simp
      rw [fullPathLoop, length_joinNames_cons_cons]
      by_cases hfits : path.length + name.length ≤ msFilePathLenMax
      · rw [if_neg (Nat.not_lt.mpr hfits), ih, hlength, hpath]
        refine if_congr ?_ rfl rfl
        omega
      · rw [if_pos (Nat.not_le.mp hfits), if_neg (by omega)]

theorem fullPathLoop_singleton {path name : Text}
    (h : path.length + name.length ≤ msFilePathLenMax) :
    fullPathLoop path [name] = some (path ++ name) := by
  rw [fullPathLoop_eq, joinNames_singleton, if_pos h]

theorem msGetFullPathFromNode_of_long {root : Text} (h : ¬ root.length ≤ msFilePathLenMax) :
    msGetFullPathFromNode [root] = none := by
  rw [msGetFullPathFromNode, fullPathLoop_eq, joinNames_singleton, List.length_nil, Nat.zero_add,
    if_neg h]

theorem fullPathLoop_eq_some {path p n : Text} {ns : List Text}
    (h : fullPathLoop path (n :: ns) = some p) :
    p = path ++ joinNames (n :: ns) ∧ p.length ≤ msFilePathLenMax := by
  rw [fullPathLoop_eq] at h
  split at h
  next hfits =>
    obtain rfl := Option.some.inj h
    exact ⟨rfl, by rwa [List.length_append]⟩
  next => cases h

/-- A further name is joined by a slash while the path stays within the buffer. -/
theorem fullPathLoop_concat {path p n name : Text} {ns : List Text}
    (h : fullPathLoop path (n :: ns) = some p)
    (hlen : p.length + 1 + name.length ≤ msFilePathLenMax) :
    fullPathLoop path (n :: ns ++ [name]) = some (p ++ '/' :: name) := by
  obtain ⟨rfl, -⟩ := fullPathLoop_eq_some h
  have hfits : path.length + (joinNames (n :: ns ++ [name])).length ≤ msFilePathLenMax := by
    rw [List.length_append] at hlen
    rw [joinNames_concat, List.length_append, List.length_cons]
    omega
  rw [List.append_assoc, ← joinNames_concat, List.cons_append, fullPathLoop_eq]
  exact if_pos hfits

theorem length_le_of_fullPathLoop {path p n : Text} {ns : List Text}
    (h : fullPathLoop path (n :: ns) = some p) : p.length ≤ msFilePathLenMax :=
  (fullPathLoop_eq_some h).2

/-- A path that the buffer holds is built whole. -/
theorem msStrappend_whole {str1 str2 : Text}
    (h : (str1 ++ '/' :: str2).length ≤ msFilePathLenMax - 2) :
    msStrappend str1 str2 = some (str1 ++ '/' :: str2) := by
  have hlen : str1.length + str2.length ≤ msFilePathLenMax - 1 := by
    rw [List.length_append, List.length_cons] at h
    omega
  rw [msStrappend, if_pos hlen, List.take_of_length_le h]

/-- What lies in a directory at or below a root lies below the root, cut off or not. -/
theorem below_of_msStrappend {root dir name path : Text}
    (hdir : dir = root ∨ root ++ ['/'] <+: dir) (hroot : root.length < msFilePathLenMax - 2)
    (h : msStrappend dir name = some path) : root ++ ['/'] <+: path := by
  rw [msStrappend] at h
  split at h
  next =>
    obtain rfl := Option.some.inj h
    refine List.prefix_take_iff.mpr ⟨?_, ?_⟩
    · rcases hdir with rfl | hdir
      · exact ⟨name, by simp⟩
      · exact hdir.trans (List.prefix_append _ _)
    · rw [List.length_append, List.length_singleton]
      exact hroot
  next => cases h

/-- What is built has room for one byte more than its end. -/
theorem fits_of_msStrappend {str1 str2 p : Text} (h : msStrappend str1 str2 = some p) :
    p.length ≤ msFilePathLenMax - 2 := by
  rw [msStrappend] at h
  split at h
  next =>
    obtain rfl := Option.some.inj h
    exact List.length_take_le _ _
  next => cases h

theorem length_le_of_msStrappend {str1 str2 p : Text} (h : msStrappend str1 str2 = some p) :
    str1.length + 1 + str2.length ≤ msFilePathLenMax := by
  rw [msStrappend] at h
  split at h
  next hlen =>
    rw [msFilePathLenMax] at hlen ⊢
    omega
  next => cases h

end MediaServer
