import MediaServer.Foundation.Bytes
import MediaServer.Path
import MediaServer.Scan.CardIdentity

/-!
# How the cid of a card is read

`_ms_get_mmc_info` looks through the directories of two hosts in sysfs for those of cards,
and reads the cid file of each into one buffer. It leaves at the first host that has no
directory, and a host at the first cid file that does not open. The callers take the buffer
as it is, and an empty one is also what the key holds at first.

A file is given by its content. Of a content `fgets` takes the first line.
-/

namespace MediaServer.Scan

structure Sysfs where
  /-- The entries of a host's directory, if that opens. -/
  host : Nat → Option (List Dirent)
  /-- The content of a file, if `fopen` opens it. -/
  file : Text → Option Text

/-- `"/sys/class/mmc_host/mmc%d/"`. -/
def mmcpath (j : Nat) : Text := "/sys/class/mmc_host/mmc".toList ++ Nat.toDigits 10 j ++ ['/']

/-- `ms_strappend` with the pattern `"%s%s/cid"`. -/
def cidPath (mmcpath name : Text) : Option Text :=
  if mmcpath.length + name.length ≤ msFilePathLenMax - 1 then
    some ((mmcpath ++ name ++ "/cid".toList).take (msFilePathLenMax - 2))
  else none

/-- The directory entry is that of a card. -/
def IsCard (ent : Dirent) : Prop := ent.dType = dtDir ∧ ':' ∈ ent.name

instance : DecidablePred IsCard := fun ent =>
  inferInstanceAs (Decidable (ent.dType = dtDir ∧ ':' ∈ ent.name))

/-- The string that `fgets` makes of a content that is not empty. -/
def cidText (content : Text) : Text :=
  (Bytes.fgets 254 content).1.takeWhile (· ≠ Bytes.nul)

/-- The local variables of `_ms_get_mmc_info`, with the contents that it has read. -/
structure MmcSearch where
  cid : Text := []
  getdata : Bool := false
  reads : List Text := []
deriving DecidableEq, Repr

/-- `_get_contents` of a file that opens; at the end of the file `fgets` leaves the buffer
alone. -/
def MmcSearch.getContents (s : MmcSearch) (content : Text) : MmcSearch where
  cid := if content = [] then s.cid else cidText content
  getdata := true
  reads := s.reads ++ [content]

section Search

variable (fs : Sysfs)

/-- The loop over the entries of a host. -/
def entryLoop (mmcpath : Text) : List Dirent → MmcSearch → MmcSearch
  | [], s => s
  | ent :: rest, s =>
      if ent.hidden then entryLoop mmcpath rest s
      else if IsCard ent then
        match cidPath mmcpath ent.name with
        | none => entryLoop mmcpath rest s
        | some path =>
            match fs.file path with
            | none => s
            | some content => entryLoop mmcpath rest (s.getContents content)
      else entryLoop mmcpath rest s

/-- The loop over the hosts. -/
def hostLoop : List Nat → MmcSearch → Int × MmcSearch
  | [], s => (msErrNone, s)
  | j :: js, s =>
      match fs.host j with
      | none => (msErrDirOpenFail, s)
      | some entries =>
          let s := entryLoop fs (mmcpath j) entries s
          if s.getdata then (msErrNone, s) else hostLoop js s

/-- `_ms_get_mmc_info`. -/
def msGetMmcInfo : Int × MmcSearch := hostLoop fs [1, 2] {}

/-- `_ms_check_mmc_info`, with the string that `ms_config_get_str` finds. -/
def msCheckMmcInfo (saved : Option Text) (cid : Text) : Bool := saved = some cid

def msGetMmcState (saved : Option Text) : ScanType :=
  if msCheckMmcInfo saved (msGetMmcInfo fs).2.cid then .part else .all

/-- `ms_update_mmc_info`: the string of the key, if it can be set. -/
def msUpdateMmcInfo (saved : Option Text) (sets : Bool) : Option Text :=
  if sets then some (msGetMmcInfo fs).2.cid else saved

/-- The cid of a card's directory, if it can be read and is not empty. -/
def cardCid (j : Nat) (ent : Dirent) : Option Text :=
  if IsCard ent then
    (((cidPath (mmcpath j) ent.name).bind fs.file).map cidText).filter (· ≠ [])
  else none

/-- The cids of all cards. -/
def cardCids : List Text :=
  [1, 2].flatMap fun j => ((fs.host j).getD []).filterMap (cardCid fs j)

/-- A partial scan is asked for only on the strength of a cid that was read, and the cid of
the only card is the one that is compared. -/
structure MmcIdentified (saved : Option Text) : Prop where
  read : msGetMmcState fs saved = .part →
    ∃ content ∈ (msGetMmcInfo fs).2.reads, cidText content ≠ [] ∧ saved = some (cidText content)
  compared : ∀ cid, cardCids fs = [cid] → (msGetMmcInfo fs).2.cid = cid

/-! ### Where the search leads -/

/-- The cid files that the loop over the entries comes to. -/
def cidFiles (j : Nat) (entries : List Dirent) : List Text :=
  entries.filterMap fun ent =>
    if ¬ ent.hidden ∧ IsCard ent then cidPath (mmcpath j) ent.name else none

/-- In front of the first file that does not open, all files are empty. -/
def Silent (paths : List Text) : Prop :=
  ∀ path ∈ paths.takeWhile fun path => (fs.file path).isSome, fs.file path = some []

/-- The last file that is not empty, in front of the first that does not open, begins with
this string. -/
inductive Leaves (cid : Text) : List Text → Prop where
  | last {path content : Text} {paths : List Text} : fs.file path = some content →
      content ≠ [] → cidText content = cid → Silent fs paths → Leaves cid (path :: paths)
  | later {path content : Text} {paths : List Text} : fs.file path = some content →
      Leaves cid paths → Leaves cid (path :: paths)

/-- The first host has a directory, and the cid files of the host leave this string: of the
first host, or of the second if the first cid file of the first host does not open or there
is none. -/
def Finds (cid : Text) : Prop :=
  ∃ entries, fs.host 1 = some entries ∧
    (Leaves fs cid (cidFiles 1 entries) ∨
      (∀ path ∈ (cidFiles 1 entries).head?, fs.file path = none) ∧
        ∃ entries, fs.host 2 = some entries ∧ Leaves fs cid (cidFiles 2 entries))

end Search

section Loops

variable {fs : Sysfs} {cid path : Text} {paths : List Text} {s : MmcSearch}

theorem silent_cons_of_none (h : fs.file path = none) : Silent fs (path :: paths) := by
  rw [Silent, List.takeWhile_cons_of_neg (by rw [h]; decide)]
  exact nofun

theorem silent_cons_of_some {content : Text} (h : fs.file path = some content) :
    Silent fs (path :: paths) ↔ content = [] ∧ Silent fs paths := by
  rw [Silent, List.takeWhile_cons_of_pos (by rw [h]; rfl), List.forall_mem_cons, h,
    Option.some_inj]
  rfl

theorem not_leaves_cons_of_none (h : fs.file path = none) : ¬ Leaves fs cid (path :: paths) := by
  intro hleaves
  cases hleaves with
  | last hopen => exact nomatch h.symm.trans hopen
  | later hopen => exact nomatch h.symm.trans hopen

theorem leaves_cons_of_some {content : Text} (h : fs.file path = some content) :
    Leaves fs cid (path :: paths) ↔
      (content ≠ [] ∧ cidText content = cid ∧ Silent fs paths) ∨ Leaves fs cid paths := by
  constructor
  · intro hleaves
    cases hleaves with
    | last hopen hne hcid hsilent =>
        obtain rfl := Option.some.inj (h.symm.trans hopen)
        exact .inl ⟨hne, hcid, hsilent⟩
    | later _ hleaves => exact .inr hleaves
  · rintro (⟨hne, hcid, hsilent⟩ | hleaves)
    · exact .last h hne hcid hsilent
    · exact .later h hleaves

/-- The loop over the cid files alone. -/
def pathLoop (fs : Sysfs) : List Text → MmcSearch → MmcSearch
  | [], s => s
  | path :: paths, s =>
      match fs.file path with
      | none => s
      | some content => pathLoop fs paths (s.getContents content)

theorem entryLoop_eq (j : Nat) (entries : List Dirent) (s : MmcSearch) :
    entryLoop fs (mmcpath j) entries s = pathLoop fs (cidFiles j entries) s := by
  induction entries generalizing s with
  | nil => rfl
  | cons ent rest ih =>
      rw [entryLoop, cidFiles, List.filterMap_cons]
      by_cases hhidden : ent.hidden = true
      · rw [if_pos hhidden, if_neg fun h => h.1 hhidden]
        exact ih s
      · by_cases hcard : IsCard ent
        · rw [if_neg hhidden, if_pos hcard, if_pos ⟨hhidden, hcard⟩]
          cases cidPath (mmcpath j) ent.name with
          | none => exact ih s
          | some path =>
              simp only
              rw [← cidFiles, pathLoop]
              cases fs.file path with
              | none => rfl
              | some content => exact ih _
        · rw [if_neg hhidden, if_neg hcard, if_neg fun h => hcard h.2]
          exact ih s

/-- What the loop leaves in the buffer. -/
theorem pathLoop_cid (paths : List Text) (s : MmcSearch) :
    (pathLoop fs paths s).cid = cid ↔ Leaves fs cid paths ∨ Silent fs paths ∧ s.cid = cid := by
  induction paths generalizing s with
  | nil =>
      have hsilent : Silent fs [] := nofun
      rw [or_iff_right (fun h => nomatch h), and_iff_right hsilent, pathLoop]
  | cons path paths ih =>
      rw [pathLoop]
      cases hopen : fs.file path with
      | none =>
          rw [or_iff_right (not_leaves_cons_of_none hopen),
            and_iff_right (silent_cons_of_none hopen)]
      | some content =>
          simp only [ih, leaves_cons_of_some hopen, silent_cons_of_some hopen,
            MmcSearch.getContents]
          by_cases hempty : content = []
          · simp [hempty]
          · simp only [hempty, if_false, false_and, or_false, not_false_eq_true, true_and, ne_eq]
            rw [or_comm, and_comm (a := Silent fs paths)]

theorem pathLoop_of_head (h : ∀ path ∈ paths.head?, fs.file path = none) (s : MmcSearch) :
    pathLoop fs paths s = s := by
  cases paths with
  | nil => rfl
  | cons path paths => rw [pathLoop, h path rfl]

theorem pathLoop_getdata (paths : List Text) (s : MmcSearch) :
    (pathLoop fs paths s).getdata = true ↔
      s.getdata = true ∨ ¬ ∀ path ∈ paths.head?, fs.file path = none := by
  induction paths generalizing s with
  | nil => simp [pathLoop]
  | cons path paths ih =>
      rw [pathLoop]
      cases hopen : fs.file path with
      | none => simp [hopen]
      | some content => simp [hopen, ih, MmcSearch.getContents]

/-- A buffer that is not empty holds what was read. -/
def MmcSearch.Read (s : MmcSearch) : Prop :=
  s.cid = [] ∨ ∃ content ∈ s.reads, cidText content = s.cid

theorem MmcSearch.Read.getContents (h : s.Read) (content : Text) :
    (s.getContents content).Read := by
  by_cases hempty : content = []
  · refine h.imp (fun hcid => ?_) fun ⟨old, hold, hcid⟩ => ?_
    · rw [MmcSearch.getContents, if_pos hempty, hcid]
    · refine ⟨old, List.mem_append_left _ hold, ?_⟩
      rw [hcid, MmcSearch.getContents, if_pos hempty]
  · refine .inr ⟨content, List.mem_append_right _ (List.mem_singleton_self _), ?_⟩
    rw [MmcSearch.getContents, if_neg hempty]

theorem MmcSearch.Read.pathLoop (h : s.Read) (paths : List Text) :
    (pathLoop fs paths s).Read := by
  induction paths generalizing s with
  | nil => exact h
  | cons path paths ih =>
      rw [Scan.pathLoop]
      cases fs.file path with
      | none => exact h
      | some content => exact ih (h.getContents content)

theorem MmcSearch.Read.hostLoop (h : s.Read) (js : List Nat) : (hostLoop fs js s).2.Read := by
  induction js generalizing s with
  | nil => exact h
  | cons j js ih =>
      rw [Scan.hostLoop]
      cases fs.host j with
      | none => exact h
      | some entries =>
          simp only [entryLoop_eq]
          split
          · exact h.pathLoop _
          · exact ih (h.pathLoop _)

end Loops

section State

variable {fs : Sysfs} {cid : Text} {saved : Option Text}

theorem msGetMmcInfo_cid (hcid : cid ≠ []) :
    (msGetMmcInfo fs).2.cid = cid ↔ Finds fs cid := by
  have hleaves : ∀ paths, (pathLoop fs paths {}).cid = cid ↔ Leaves fs cid paths := fun paths =>
    (pathLoop_cid paths {}).trans (or_iff_left fun h => hcid h.2.symm)
  rw [msGetMmcInfo, hostLoop, Finds]
  cases hfirst : fs.host 1 with
  | none => exact iff_of_false hcid.symm fun ⟨_, h, _⟩ => nomatch h
  | some entries =>
      simp only [entryLoop_eq, Option.some_inj, exists_eq_left', pathLoop_getdata, Bool.false_eq_true,
        false_or]
      split
      next hdata =>
        rw [hleaves, or_iff_left fun h => hdata h.1]
      next hnone =>
        rw [not_not] at hnone
        rw [pathLoop_of_head hnone, hostLoop, and_iff_right hnone, or_iff_right]
        · cases hsecond : fs.host 2 with
          | none => exact iff_of_false hcid.symm fun ⟨_, h, _⟩ => nomatch h
          | some entries =>
              simp only [entryLoop_eq, Option.some_inj, exists_eq_left', hostLoop, ite_self]
              exact hleaves _
        · intro h
          rw [← hleaves, pathLoop_of_head hnone] at h
          exact hcid h.symm

theorem cid_ne_nil_of_mem {j : Nat} {ent : Dirent} (h : cardCid fs j ent = some cid) :
    cid ≠ [] := by
  rw [cardCid] at h
  split at h
  next => exact of_decide_eq_true (Option.filter_eq_some_iff.mp h).2
  next => cases h

theorem ne_nil_of_cardCids (h : cardCids fs = [cid]) : cid ≠ [] := by
  have hmem : cid ∈ cardCids fs := h ▸ List.mem_singleton_self cid
  obtain ⟨j, -, hmem⟩ := List.mem_flatMap.mp hmem
  obtain ⟨ent, -, hcid⟩ := List.mem_filterMap.mp hmem
  exact cid_ne_nil_of_mem hcid

/-- Unless the key is empty and nothing is found, a partial scan rests on a cid that was read;
and the only card is compared exactly if the search comes to its cid. -/
theorem identified_iff (fs : Sysfs) (saved : Option Text) :
    MmcIdentified fs saved ↔
      (saved = some [] → ∃ cid, cid ≠ [] ∧ Finds fs cid) ∧
        ∀ cid, cardCids fs = [cid] → Finds fs cid := by
  have hstate : msGetMmcState fs saved = .part ↔ saved = some (msGetMmcInfo fs).2.cid := by
    rw [msGetMmcState, msCheckMmcInfo]
    simp
  have hcompared : (∀ cid, cardCids fs = [cid] → (msGetMmcInfo fs).2.cid = cid) ↔
      ∀ cid, cardCids fs = [cid] → Finds fs cid :=
    forall₂_congr fun cid h => msGetMmcInfo_cid (ne_nil_of_cardCids h)
  constructor
  · intro h
    refine ⟨fun hsaved => ?_, hcompared.mp h.compared⟩
    by_cases hcid : (msGetMmcInfo fs).2.cid = []
    · obtain ⟨content, -, hne, heq⟩ := h.read (hstate.mpr (by rw [hsaved, hcid]))
      exact absurd (Option.some.inj (heq.symm.trans hsaved)) hne
    · exact ⟨_, hcid, (msGetMmcInfo_cid hcid).mp rfl⟩
  · rintro ⟨hempty, hunique⟩
    refine ⟨fun hpart => ?_, hcompared.mpr hunique⟩
    have hsaved := hstate.mp hpart
    have hcid : (msGetMmcInfo fs).2.cid ≠ [] := by
      intro hnil
      obtain ⟨cid, hne, hfinds⟩ := hempty (by rw [hsaved, hnil])
      exact hne (((msGetMmcInfo_cid hne).mpr hfinds).symm.trans hnil)
    have hread : (msGetMmcInfo fs).2.Read := MmcSearch.Read.hostLoop (.inl rfl) [1, 2]
    obtain ⟨content, hmem, heq⟩ := hread.resolve_left hcid
    exact ⟨content, hmem, heq ▸ hcid, heq ▸ hsaved⟩

/-- Without a card, the key as it is installed asks for a partial scan; and the card of the
second host is not looked for where the first host has no directory. -/
theorem unidentified_card :
    ¬ MmcIdentified { host := fun _ => none, file := fun _ => none } (some []) ∧
      ¬ MmcIdentified
        { host := fun j => if j = 2 then some [⟨"mmc2:1".toList, dtDir⟩] else none
          file := fun _ => some "1".toList } none := by
  constructor
  · intro h
    obtain ⟨content, hmem, -⟩ := h.read (by decide)
    cases hmem
  · intro h
    exact absurd (h.compared "1".toList (by decide)) (by decide)

/-! ### The model of the cards

A missing cid stands there for an empty buffer. -/

/-- The string of the key. -/
def CardServer.key (s : CardServer Text) : Option Text := s.saved.map fun cid => cid.getD []

variable {s : CardServer Text} (hfound : (msGetMmcInfo fs).2.cid = s.msGetMmcInfo.getD [])
include hfound

/-- Where the search finds the card in the slot or, if its cid cannot be read, nothing, and no
cid is empty, the state is the one of that model. -/
theorem msGetMmcState_eq (hvconf : s.vconf = true) (hslot : ∀ cid ∈ s.slot.cid, cid ≠ [])
    (hsaved : ∀ cid, s.saved = some (some cid) → cid ≠ []) :
    msGetMmcState fs s.key = s.msGetMmcState := by
  have hiff : s.key = some (s.msGetMmcInfo.getD []) ↔ s.saved = some s.msGetMmcInfo := by
    constructor
    · intro h
      obtain ⟨saved, hsome, heq⟩ := Option.map_eq_some_iff.mp h
      rw [hsome]
      cases saved with
      | none =>
          cases hcid : s.msGetMmcInfo with
          | none => rfl
          | some cid =>
              rw [hcid] at heq
              exact absurd heq.symm (hslot cid (mem_slot_of_info hcid))
      | some old =>
          cases hcid : s.msGetMmcInfo with
          | none =>
              rw [hcid] at heq
              exact absurd heq (hsaved old hsome)
          | some cid =>
              rw [hcid] at heq
              exact congrArg (fun cid => some (some cid)) heq
    · intro h
      rw [CardServer.key, h, Option.map_some]
  rw [msGetMmcState, msCheckMmcInfo, hfound, CardServer.msGetMmcState]
  simp only [hiff, hvconf, true_and, decide_eq_true_eq]

/-- So is the key after `ms_update_mmc_info`. -/
theorem msUpdateMmcInfo_eq (d : ScanData) :
    (s.afterThread d .updateMmcInfo).map CardServer.key =
      some (msUpdateMmcInfo fs s.key s.vconf) := by
  rw [msUpdateMmcInfo, CardServer.afterThread, hfound]
  cases s.vconf <;> rfl

end State

end MediaServer.Scan
