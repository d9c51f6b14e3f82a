import MediaServer.Inotify.Frame
import MediaServer.Inotify.Tree

/-!
# The walk of a renamed directory

`_ms_inoti_scan_renamed_folder` is a fold over the directories and files that it
comes upon, each with the path that it has now and the path that it is taken to
have had. What the fold does to the watch list and to the items depends on whether
the second path is the right one.
-/

namespace MediaServer.Inotify

/-- A path that the buffers of the server hold whole. -/
def Fits (p : Path) : Prop := (text p).length ≤ msFilePathLenMax - 2

instance (p : Path) : Decidable (Fits p) :=
  inferInstanceAs (Decidable ((text p).length ≤ msFilePathLenMax - 2))

/-- The names down from a directory, joined as the walkers join them. -/
def appendAll (str : Text) (rel : Path) : Option Text := rel.foldlM msStrappend str

/-- What a walk comes upon, by the names that lead there from its start. -/
inductive Visit where
  | dir (rel : Path)
  | file (rel : Path)
deriving DecidableEq, Repr

def visits (t : Tree) (q : Path) : Nat → Path → List Visit
  | 0, _ => []
  | depth + 1, rel =>
      .dir rel :: (t.children (q ++ rel)).flatMap fun ent =>
        if ent.hidden then []
        else if ent.dType = dtDir then visits t q depth (rel ++ [ent.name])
        else [.file (rel ++ [ent.name])]

/-- The walk from `q` gets to `q ++ rel`: no name on the way is hidden. -/
def Shown (rel : Path) : Prop := ∀ name ∈ rel, ¬ hiddenName name

def Visit.Sound (t : Tree) (q : Path) : Visit → Prop
  | .dir rel => t.IsDir (q ++ rel) ∧ Shown rel
  | .file rel => q ++ rel ∈ t.files ∧ Shown rel

/-- The body of the walk; `pathFrom` is the path that is taken to have been there. -/
def Visit.apply (w : World) (q : Path) (pathFrom : Path → Text) (s : Inoti) : Visit → Inoti
  | .dir rel => s.modifyWatch w (pathFrom rel) (text (q ++ rel))
  | .file rel => s.moveFile (pathFrom rel) (text (q ++ rel))

/-- The buffers hold `path` of whatever the walk comes upon. -/
def Joins (t : Tree) (q : Path) (path : Path → Text) : Prop :=
  ∀ rel name, Shown (rel ++ [name]) → t.Has (q ++ (rel ++ [name])) →
    msStrappend (path rel) name = some (path (rel ++ [name]))

section Visits

variable {t : Tree} {q rel : Path} {name : Text}

theorem Shown.concat (h : Shown rel) (hname : ¬ hiddenName name) : Shown (rel ++ [name]) := by
  intro n hn
  cases List.mem_append.mp hn with
  | inl hn => exact h n hn
  | inr hn => rwa [List.mem_singleton.mp hn]

theorem msStrappend_text (h : Fits (q ++ [name])) :
    msStrappend (text q) name = some (text (q ++ [name])) := by
  rw [Fits, text_append, text_singleton] at h
  rw [text_append, text_singleton, msStrappend_whole h]

theorem joins_text (p : Path)
    (h : ∀ rel, Shown rel → t.Has (q ++ rel) → Fits (p ++ rel)) :
    Joins t q fun rel => text (p ++ rel) := by
  intro rel name hshown hhas
  have hfits := h _ hshown hhas
  show msStrappend (text (p ++ rel)) name = some (text (p ++ (rel ++ [name])))
  rw [← List.append_assoc] at hfits ⊢
  exact msStrappend_text hfits

theorem joins_appendAll {str : Text}
    (h : ∀ rel, Shown rel → t.Has (q ++ rel) → (appendAll str rel).isSome) :
    Joins t q fun rel => (appendAll str rel).getD [] := by
  intro rel name hshown hhas
  obtain ⟨path, hpath⟩ := Option.isSome_iff_exists.mp (h _ hshown hhas)
  show msStrappend ((appendAll str rel).getD []) name =
    some ((appendAll str (rel ++ [name])).getD [])
  rw [hpath, Option.getD_some]
  rw [appendAll, List.foldlM_append] at hpath
  obtain ⟨before, hbefore, hlast⟩ := Option.bind_eq_some_iff.mp hpath
  obtain ⟨last, hjoin, hnil⟩ := Option.bind_eq_some_iff.mp hlast
  obtain rfl := Option.some.inj hnil
  rwa [appendAll, hbefore, Option.getD_some]

theorem sound_of_mem_visits {depth : Nat} (hdir : t.IsDir (q ++ rel)) (hshown : Shown rel) :
    ∀ v ∈ visits t q depth rel, v.Sound t q := by
  induction depth generalizing rel with
  | zero => exact nofun
  | succ depth ih =>
      intro v hv
      rw [visits] at hv
      rcases List.mem_cons.mp hv with rfl | hv
      · exact ⟨hdir, hshown⟩
      · obtain ⟨ent, hent, hv⟩ := List.mem_flatMap.mp hv
        split at hv
        next => cases hv
        next hhidden =>
          have hshown' : Shown (rel ++ [ent.name]) := hshown.concat hhidden
          rcases Tree.mem_children.mp hent with ⟨hchild, htype⟩ | ⟨hchild, htype⟩
          · rw [if_pos htype] at hv
            rw [List.append_assoc] at hchild
            exact ih hchild hshown' v hv
          · rw [if_neg (by rw [htype]; decide)] at hv
            obtain rfl := List.mem_singleton.mp hv
            rw [List.append_assoc] at hchild
            exact ⟨hchild, hshown'⟩

/-- Every directory within the depth is come upon, and with it the files in it. -/
theorem mem_visits (h : t.Wf) {depth : Nat} {rel' : Path} (hdir : t.IsDir (q ++ (rel ++ rel')))
    (hshown : Shown rel') (hdepth : rel'.length < depth) :
    .dir (rel ++ rel') ∈ visits t q depth rel ∧
      ∀ name, ¬ hiddenName name → q ++ (rel ++ rel') ++ [name] ∈ t.files →
        .file (rel ++ rel' ++ [name]) ∈ visits t q depth rel := by
  induction depth generalizing rel rel' with
  | zero => cases hdepth
  | succ depth ih =>
      rw [visits]
      cases rel' with
      | nil =>
          rw [List.append_nil] at hdir ⊢
          refine ⟨List.mem_cons_self, fun name hname hfile => ?_⟩
          refine List.mem_cons_of_mem _ (List.mem_flatMap.mpr ⟨⟨name, dtReg⟩, ?_, ?_⟩)
          · exact Tree.mem_children.mpr (.inr ⟨hfile, rfl⟩)
          · have hvisible : ¬ (⟨name, dtReg⟩ : Dirent).hidden := hname
            have hkind : ¬ dtReg = dtDir := by decide
            rw [if_neg hvisible, if_neg hkind]
            exact List.mem_singleton_self _
      | cons n rest =>
          have happ : rel ++ n :: rest = rel ++ [n] ++ rest := by simp
          have hn : ¬ (⟨n, dtDir⟩ : Dirent).hidden := hshown n List.mem_cons_self
          rw [happ] at hdir ⊢
          have hchild : t.IsDir (q ++ rel ++ [n]) := by
            rw [← List.append_assoc] at hdir
            rw [List.append_assoc]
            exact h.isDir_of_append hdir
          have hent : ⟨n, dtDir⟩ ∈ t.children (q ++ rel) :=
            Tree.mem_children.mpr (.inl ⟨hchild, rfl⟩)
          have hrest := ih hdir (fun m hm => hshown m (List.mem_cons_of_mem _ hm))
            (Nat.lt_of_succ_lt_succ hdepth)
          have hinto : ∀ v ∈ visits t q depth (rel ++ [n]),
              v ∈ (t.children (q ++ rel)).flatMap fun ent =>
                if ent.hidden then []
                else if ent.dType = dtDir then visits t q depth (rel ++ [ent.name])
                else [.file (rel ++ [ent.name])] := by
            intro v hv
            refine List.mem_flatMap.mpr ⟨⟨n, dtDir⟩, hent, ?_⟩
            rwa [if_neg hn, if_pos rfl]
          exact ⟨List.mem_cons_of_mem _ (hinto _ hrest.1),
            fun name hname hfile => List.mem_cons_of_mem _ (hinto _ (hrest.2 name hname hfile))⟩

/-- The recursion is the fold over what it comes upon. -/
theorem scanRenamedFolder_eq (h : t.Wf) {pathFrom : Path → Text} (hfrom : Joins t q pathFrom)
    (hto : Joins t q fun rel => text (q ++ rel)) (depth : Nat) (s : Inoti)
    (hdir : t.IsDir (q ++ rel)) (hshown : Shown rel) :
    Inoti.scanRenamedFolder t.world depth s (pathFrom rel) (text (q ++ rel)) =
      (visits t q depth rel).foldl (Visit.apply t.world q pathFrom) s := by
  induction depth generalizing rel s with
  | zero => rfl
  | succ depth ih =>
      rw [Inoti.scanRenamedFolder, h.opendir_text hdir, visits, List.foldl_cons,
        List.foldl_flatMap]
      apply List.foldl_ext
      intro s ent hent
      by_cases hhidden : ent.hidden
      · rw [if_pos hhidden, if_pos hhidden, List.foldl_nil]
      · have hshown' : Shown (rel ++ [ent.name]) := hshown.concat hhidden
        rw [if_neg hhidden, if_neg hhidden]
        rcases Tree.mem_children.mp hent with ⟨hchild, htype⟩ | ⟨hchild, htype⟩
        · rw [List.append_assoc] at hchild
          have hfrom' := hfrom rel ent.name hshown' (.inl hchild)
          have hto' := hto rel ent.name hshown' (.inl hchild)
          have hneq : ¬ ent.dType = dtReg := by
            rw [htype]
            decide
          simp only [hfrom', hto', if_pos htype, if_neg hneq]
          exact ih s hchild hshown'
        · rw [List.append_assoc] at hchild
          have hfrom' := hfrom rel ent.name hshown' (.inr hchild)
          have hto' := hto rel ent.name hshown' (.inr hchild)
          have hneq : ¬ dtReg = dtDir := by decide
          simp only [hfrom', hto', htype, if_neg hneq, if_true, List.foldl_cons, List.foldl_nil,
            Visit.apply]

end Visits

section Table

variable {w : World} {s : Inoti} {path pathFrom pathTo : Text}

/-- What one call of `_ms_inoti_scan_renamed_folder` should do to an entry. -/
def retitleOne (pathFrom pathTo : Text) (node : Watch) : Watch :=
  if node.name = pathFrom then { node with name := pathTo } else node

theorem eraseP_eq_filter {α : Type} {f : α → Bool} {l : List α} (h : l.countP f ≤ 1) :
    l.eraseP f = l.filter fun a => !f a := by
  induction l with
  | nil => rfl
  | cons a l ih =>
      rw [List.countP_cons] at h
      cases hf : f a with
      | true =>
          rw [if_pos hf] at h
          have hnone : ∀ b ∈ l, (!f b) = true := by
            intro b hb
            have hzero := List.countP_eq_zero.mp (Nat.le_zero.mp (Nat.le_of_succ_le_succ h)) b hb
            rw [Bool.not_eq_true] at hzero
            rw [hzero, Bool.not_false]
          rw [List.eraseP_cons_of_pos hf, List.filter_cons_of_neg (by simp [hf]),
            List.filter_eq_self.mpr hnone]
      | false =>
          rw [List.eraseP_cons_of_neg (by simp [hf]), List.filter_cons_of_pos (by simp [hf]),
            ih (Nat.le_trans (Nat.le_add_right _ _) h)]

theorem countP_name_le_one {watches : List Watch} (h : (watches.map Watch.name).Nodup) :
    watches.countP (fun node => node.name = path) ≤ 1 := by
  have hle := List.nodup_iff_count_le_one.mp h path
  rw [List.count_eq_countP, List.countP_map] at hle
  refine le_trans (le_of_eq (List.countP_congr fun node _ => ?_)) hle
  simp

theorem renameFirst_eq_map {watches : List Watch}
    (h : watches.countP (fun node => node.name = pathFrom) ≤ 1) :
    Inoti.renameFirst pathFrom pathTo watches = watches.map (retitleOne pathFrom pathTo) := by
  induction watches with
  | nil => rfl
  | cons node rest ih =>
      rw [List.countP_cons] at h
      rw [Inoti.renameFirst, List.map_cons, retitleOne]
      by_cases hname : node.name = pathFrom
      · rw [if_pos hname, if_pos hname]
        rw [if_pos (decide_eq_true hname)] at h
        have hrest : ∀ node ∈ rest, retitleOne pathFrom pathTo node = node := by
          intro other hother
          have hzero := List.countP_eq_zero.mp (Nat.le_zero.mp (Nat.le_of_succ_le_succ h))
            other hother
          exact if_neg (by simpa only [decide_eq_true_eq] using hzero)
        rw [List.map_congr_left hrest, List.map_id']
      · rw [if_neg hname, if_neg hname, ih (Nat.le_trans (Nat.le_add_right _ _) h)]

/-- An entry that is alone with its name, and not at the head, is renamed. -/
theorem modifyWatch_of_unique (hhead : ∀ node ∈ s.watches.head?, node.name ≠ pathFrom)
    (hunique : s.watches.countP (fun node => node.name = pathFrom) = 1) :
    s.modifyWatch w pathFrom pathTo =
      { s with watches := s.watches.map (retitleOne pathFrom pathTo) } := by
  rw [Inoti.modifyWatch]
  cases hwatches : s.watches with
  | nil =>
      rw [hwatches] at hunique
      cases hunique
  | cons head rest =>
      rw [hwatches] at hhead hunique
      have hname : head.name ≠ pathFrom := hhead head rfl
      rw [List.countP_cons_of_neg (by simpa only [decide_eq_true_eq] using hname)] at hunique
      have hfound : ∃ node ∈ rest, node.name = pathFrom := by
        obtain ⟨node, hnode, heq⟩ := List.countP_pos_iff.mp (hunique ▸ Nat.one_pos)
        exact ⟨node, hnode, of_decide_eq_true heq⟩
      simp only [if_neg hname, if_pos hfound, renameFirst_eq_map (Nat.le_of_eq hunique),
        List.map_cons, retitleOne]

/-- Only the entries after the head are looked at. -/
theorem modifyWatch_of_absent (h : ∀ node ∈ s.watches.tail, node.name ≠ pathFrom) :
    s.modifyWatch w pathFrom pathTo = s.addWatch w pathTo := by
  rw [Inoti.modifyWatch]
  cases hwatches : s.watches with
  | nil => rfl
  | cons head rest =>
      rw [hwatches] at h
      have habsent : ¬ ∃ node ∈ rest, node.name = pathFrom := by
        rintro ⟨node, hnode, heq⟩
        exact h node hnode heq
      simp only [if_neg habsent, ite_self]

theorem renameFirst_self (watches : List Watch) :
    Inoti.renameFirst path path watches = watches := by
  induction watches with
  | nil => rfl
  | cons node rest ih =>
      rw [Inoti.renameFirst, ih]
      split
      next hname => rw [← hname]
      next => rfl

theorem addWatch_of_mem (h : ∃ node ∈ s.watches, node.name = path) : s.addWatch w path = s :=
  if_pos h

/-- A path that is taken to be its own source is only watched. -/
theorem modifyWatch_self : s.modifyWatch w path path = s.addWatch w path := by
  by_cases htail : ∃ node ∈ s.watches.tail, node.name = path
  · rw [addWatch_of_mem (htail.imp fun node h => ⟨List.mem_of_mem_tail h.1, h.2⟩),
      Inoti.modifyWatch]
    cases hwatches : s.watches with
    | nil =>
        rw [hwatches] at htail
        obtain ⟨node, hnode, -⟩ := htail
        cases hnode
    | cons head rest =>
        rw [hwatches] at htail
        by_cases hhead : head.name = path
        · simp only [if_pos hhead]
          exact addWatch_of_mem ⟨head, by rw [hwatches]; exact List.mem_cons_self, hhead⟩
        · have hrest : ∃ node ∈ rest, node.name = path := htail
          simp only [if_neg hhead, if_pos hrest, renameFirst_self, ← hwatches]
  · exact modifyWatch_of_absent fun node hnode heq => htail ⟨node, hnode, heq⟩

theorem addWatch_of_absent (h : ∀ node ∈ s.watches, node.name ≠ path) {wd : Int}
    (hwd : w.inotifyAddWatch path = wd) (hpos : 0 < wd) :
    s.addWatch w path =
      { s with
        watches := s.watches ++ [⟨path, wd⟩]
        kernel := if wd ∈ s.kernel then s.kernel else s.kernel ++ [wd] } := by
  have habsent : ¬ ∃ node ∈ s.watches, node.name = path := by
    rintro ⟨node, hnode, heq⟩
    exact h node hnode heq
  rw [Inoti.addWatch, if_neg habsent, hwd]
  exact if_pos hpos

/-- The kernel gives out a descriptor once. -/
theorem mem_addKernel {kernel : List Int} {wd wd' : Int} :
    wd' ∈ (if wd ∈ kernel then kernel else kernel ++ [wd]) ↔ wd' ∈ kernel ∨ wd = wd' := by
  split
  next hwd => exact ⟨.inl, fun h => h.elim (fun hwd' => hwd') fun heq => heq ▸ hwd⟩
  next => rw [List.mem_append, List.mem_singleton, eq_comm (a := wd')]

/-- The watch list, the kernel's descriptors and the loop are as before. -/
def SameTable (s s' : Inoti) : Prop :=
  s'.watches = s.watches ∧ s'.kernel = s.kernel ∧ s'.stopped = s.stopped

theorem SameTable.refl (s : Inoti) : SameTable s s := ⟨rfl, rfl, rfl⟩

theorem SameTable.trans {s t u : Inoti} (h : SameTable s t) (h' : SameTable t u) :
    SameTable s u :=
  ⟨h'.1.trans h.1, h'.2.1.trans h.2.1, h'.2.2.trans h.2.2⟩

theorem sameTable_moveItem : SameTable s (s.moveItem pathFrom pathTo) := by
  rw [Inoti.moveItem]
  split
  · exact ⟨rfl, rfl, rfl⟩
  · exact .refl s

theorem sameTable_moveFile : SameTable s (s.moveFile pathFrom pathTo) := by
  rw [Inoti.moveFile]
  split
  · exact sameTable_moveItem
  · exact ⟨rfl, rfl, rfl⟩

theorem sameTable_registerFile : SameTable s (s.registerFile path) := by
  rw [Inoti.registerFile]
  split
  · exact .refl s
  · exact ⟨rfl, rfl, rfl⟩

theorem sameTable_file {q rel : Path} {pathFrom : Path → Text} :
    SameTable s (Visit.apply w q pathFrom s (.file rel)) := sameTable_moveFile

/-- A walk whose files are on the storages under both paths does not crash the server. -/
theorem foldl_visits_faulted {q : Path} {pathFrom : Path → Text} {vs : List Visit}
    (hknown : ∀ rel, .file rel ∈ vs → msGetStorageTypeByFull (pathFrom rel) ≠ .invalidFilePath ∧
      msGetStorageTypeByFull (text (q ++ rel)) ≠ .invalidFilePath) :
    (vs.foldl (Visit.apply w q pathFrom) s).faulted = s.faulted := by
  refine foldl_faulted fun s v hv => ?_
  cases v with
  | dir rel => exact modifyWatch_faulted
  | file rel => exact moveFile_faulted (hknown rel hv).1 (hknown rel hv).2

end Table

def Visit.dir? : Visit → Option Path
  | .dir rel => some rel
  | .file _ => none

theorem mem_dirs {vs : List Visit} {rel : Path} :
    rel ∈ vs.filterMap Visit.dir? ↔ .dir rel ∈ vs := by
  rw [List.mem_filterMap]
  constructor
  · rintro ⟨v, hv, heq⟩
    cases v with
    | dir rel' => rwa [← Option.some.inj heq]
    | file rel' => cases heq
  · exact fun h => ⟨_, h, rfl⟩

section Found

/-! ### A walk with the right old path -/

/-- Each directory of the walk is named by one entry, under its old path, and that
entry is not the head of the list. -/
structure Known (t : Tree) (q : Path) (pathFrom : Path → Text) (watches : List Watch) : Prop where
  inj : ∀ rel rel', (Visit.dir rel).Sound t q → (Visit.dir rel').Sound t q →
    pathFrom rel = pathFrom rel' → rel = rel'
  apart : ∀ rel rel', (Visit.dir rel).Sound t q → (Visit.dir rel').Sound t q →
    pathFrom rel ≠ text (q ++ rel')
  head : ∀ rel, (Visit.dir rel).Sound t q → ∀ node ∈ watches.head?, node.name ≠ pathFrom rel
  sole : ∀ rel, (Visit.dir rel).Sound t q →
    watches.countP (fun node => node.name = pathFrom rel) = 1

/-- The entry once the directories `done` have been come upon. -/
def retitle (q : Path) (pathFrom : Path → Text) (done : List Path) (node : Watch) : Watch :=
  match done.find? fun rel => pathFrom rel = node.name with
  | some rel => { node with name := text (q ++ rel) }
  | none => node

variable {t : Tree} {q rel : Path} {pathFrom : Path → Text} {done : List Path} {s : Inoti}
variable {w : World} {node : Watch}

theorem retitle_wd : (retitle q pathFrom done node).wd = node.wd := by
  rw [retitle]
  split <;> rfl

theorem retitle_of_absent (h : ∀ rel ∈ done, pathFrom rel ≠ node.name) :
    retitle q pathFrom done node = node := by
  have hnone : done.find? (fun rel => pathFrom rel = node.name) = none :=
    List.find?_eq_none.mpr fun rel hrel => by simpa only [decide_eq_true_eq] using h rel hrel
  rw [retitle, hnone]

theorem retitle_of_mem (known : Known t q pathFrom s.watches)
    (hdone : ∀ rel ∈ done, (Visit.dir rel).Sound t q) (hrel : rel ∈ done)
    (hname : node.name = pathFrom rel) :
    retitle q pathFrom done node = { node with name := text (q ++ rel) } := by
  rw [retitle]
  split
  next rel' hfind =>
    have hsame := List.find?_some hfind
    rw [decide_eq_true_eq, hname] at hsame
    rw [known.inj rel' rel (hdone _ (List.mem_of_find?_eq_some hfind)) (hdone _ hrel) hsame]
  next hfind =>
    have habsent := List.find?_eq_none.mp hfind rel hrel
    exact absurd (decide_eq_true hname.symm) habsent

theorem retitle_name_iff (known : Known t q pathFrom s.watches)
    (hdone : ∀ rel ∈ done, (Visit.dir rel).Sound t q) (hsound : (Visit.dir rel).Sound t q)
    (hrel : rel ∉ done) :
    (retitle q pathFrom done node).name = pathFrom rel ↔ node.name = pathFrom rel := by
  by_cases h : ∃ rel' ∈ done, node.name = pathFrom rel'
  · obtain ⟨rel', hrel', hname⟩ := h
    rw [retitle_of_mem known hdone hrel' hname, hname]
    constructor
    · exact fun heq => absurd heq.symm (known.apart rel rel' hsound (hdone _ hrel'))
    · exact fun heq => absurd (known.inj rel' rel (hdone _ hrel') hsound heq ▸ hrel') hrel
  · rw [retitle_of_absent fun rel' hrel' heq => h ⟨rel', hrel', heq.symm⟩]

theorem retitle_name_ne (known : Known t q pathFrom s.watches)
    (hdone : ∀ rel ∈ done, (Visit.dir rel).Sound t q) (hrel : rel ∈ done) :
    (retitle q pathFrom done node).name ≠ pathFrom rel := by
  by_cases h : ∃ rel' ∈ done, node.name = pathFrom rel'
  · obtain ⟨rel', hrel', hname⟩ := h
    rw [retitle_of_mem known hdone hrel' hname]
    exact (known.apart rel rel' (hdone _ hrel) (hdone _ hrel')).symm
  · rw [retitle_of_absent fun rel' hrel' heq => h ⟨rel', hrel', heq.symm⟩]
    exact fun heq => h ⟨rel, hrel, heq⟩

theorem retitle_concat_of_mem (hrel : rel ∈ done) :
    retitle q pathFrom (done ++ [rel]) node = retitle q pathFrom done node := by
  rw [retitle, retitle, List.find?_append]
  cases hfind : done.find? fun rel => pathFrom rel = node.name with
  | some rel' => rfl
  | none =>
      have hrel' : ¬ pathFrom rel = node.name := by
        simpa only [decide_eq_true_eq] using List.find?_eq_none.mp hfind rel hrel
      simp only [Option.none_or, List.find?_singleton, decide_eq_true_eq, if_neg hrel']

theorem retitle_concat (known : Known t q pathFrom s.watches)
    (hdone : ∀ rel ∈ done, (Visit.dir rel).Sound t q) (hsound : (Visit.dir rel).Sound t q)
    (hrel : rel ∉ done) :
    retitle q pathFrom (done ++ [rel]) node =
      retitleOne (pathFrom rel) (text (q ++ rel)) (retitle q pathFrom done node) := by
  have hdone' : ∀ rel' ∈ done ++ [rel], (Visit.dir rel').Sound t q := by
    intro rel' hrel'
    cases List.mem_append.mp hrel' with
    | inl hrel' => exact hdone rel' hrel'
    | inr hrel' => rwa [List.mem_singleton.mp hrel']
  have hiff : (retitle q pathFrom done node).name = pathFrom rel ↔ node.name = pathFrom rel :=
    retitle_name_iff known hdone hsound hrel
  rw [retitleOne]
  by_cases hname : node.name = pathFrom rel
  · have habsent : ∀ rel' ∈ done, pathFrom rel' ≠ node.name := fun rel' hrel' heq =>
      hrel (known.inj rel' rel (hdone _ hrel') hsound (heq.trans hname) ▸ hrel')
    rw [retitle_of_mem known hdone' (List.mem_append_right _ (List.mem_singleton_self _)) hname,
      retitle_of_absent habsent, if_pos hname]
  · rw [if_neg (mt hiff.mp hname), retitle, retitle, List.find?_append,
      List.find?_cons_of_neg (by simpa only [decide_eq_true_eq] using Ne.symm hname)]
    rw [List.find?_nil, Option.or_none]

/-- Every entry of a directory of the walk is renamed, and nothing else happens to
the list. -/
theorem foldl_known (known : Known t q pathFrom s.watches) (vs : List Visit)
    (hsound : ∀ v ∈ vs, v.Sound t q) :
    (vs.foldl (Visit.apply w q pathFrom) s).watches =
        s.watches.map (retitle q pathFrom (vs.filterMap Visit.dir?)) ∧
      (vs.foldl (Visit.apply w q pathFrom) s).kernel = s.kernel ∧
      (vs.foldl (Visit.apply w q pathFrom) s).stopped = s.stopped := by
  induction vs using List.reverseRecOn with
  | nil =>
      refine ⟨?_, rfl, rfl⟩
      have hnone : retitle q pathFrom [] = id := rfl
      rw [List.filterMap_nil, hnone, List.map_id]
      rfl
  | append_singleton vs v ih =>
      obtain ⟨hwatches, hkernel, hstopped⟩ := ih fun v hv => hsound v (List.mem_append_left _ hv)
      rw [List.foldl_append, List.foldl_cons, List.foldl_nil, List.filterMap_append]
      have hv : v.Sound t q := hsound v (List.mem_append_right _ (List.mem_singleton_self _))
      have hdone : ∀ rel ∈ vs.filterMap Visit.dir?, (Visit.dir rel).Sound t q := fun rel hrel =>
        hsound _ (List.mem_append_left _ (mem_dirs.mp hrel))
      generalize vs.foldl (Visit.apply w q pathFrom) s = s' at *
      generalize vs.filterMap Visit.dir? = done at *
      cases v with
      | file rel =>
          obtain ⟨hw, hk, hs⟩ : SameTable s' (Visit.apply w q pathFrom s' (.file rel)) :=
            sameTable_file
          have hnil : done ++ [Visit.file rel].filterMap Visit.dir? = done := List.append_nil _
          rw [hnil]
          exact ⟨hw.trans hwatches, hk.trans hkernel, hs.trans hstopped⟩
      | dir rel =>
          have hone : [Visit.dir rel].filterMap Visit.dir? = [rel] := rfl
          rw [hone, Visit.apply]
          by_cases hrel : rel ∈ done
          · have habsent : ∀ node ∈ s'.watches, node.name ≠ pathFrom rel := by
              rw [hwatches]
              intro node hnode
              obtain ⟨old, -, rfl⟩ := List.mem_map.mp hnode
              exact retitle_name_ne known hdone hrel
            have hthere : ∃ node ∈ s'.watches, node.name = text (q ++ rel) := by
              obtain ⟨old, hold, hname⟩ := List.countP_pos_iff.mp (known.sole rel hv ▸ Nat.one_pos)
              refine ⟨retitle q pathFrom done old, hwatches ▸ List.mem_map_of_mem hold, ?_⟩
              rw [retitle_of_mem known hdone hrel (of_decide_eq_true hname)]
            rw [modifyWatch_of_absent fun node hnode => habsent node (List.mem_of_mem_tail hnode),
              addWatch_of_mem hthere]
            refine ⟨hwatches.trans (List.map_congr_left fun node _ => ?_), hkernel, hstopped⟩
            exact (retitle_concat_of_mem hrel).symm
          · have hiff : ∀ node : Watch, (retitle q pathFrom done node).name = pathFrom rel ↔
                node.name = pathFrom rel := fun node => retitle_name_iff known hdone hv hrel
            rw [modifyWatch_of_unique]
            · refine ⟨?_, hkernel, hstopped⟩
              show s'.watches.map _ = _
              rw [hwatches, List.map_map]
              exact List.map_congr_left fun _ _ => (retitle_concat known hdone hv hrel).symm
            · rw [hwatches, List.head?_map]
              rintro node hnode
              obtain ⟨old, hold, rfl⟩ := Option.map_eq_some_iff.mp hnode
              exact mt (hiff old).mp (known.head rel hv old hold)
            · rw [hwatches, List.countP_map, ← known.sole rel hv]
              refine List.countP_congr fun node _ => ?_
              simp only [Function.comp, decide_eq_true_eq, hiff node]

end Found

section Unknown

/-! ### A walk with an old path that nothing has -/

/-- No entry after the head has the old path of a directory of the walk, and no
entry its new path. -/
structure Unknown (t : Tree) (q : Path) (pathFrom : Path → Text) (watches : List Watch) :
    Prop where
  absent : ∀ rel, (Visit.dir rel).Sound t q → ∀ node ∈ watches.tail, node.name ≠ pathFrom rel
  self : ∀ rel rel', (Visit.dir rel).Sound t q → (Visit.dir rel').Sound t q →
    pathFrom rel = text (q ++ rel') → rel = rel'
  fresh : ∀ rel, (Visit.dir rel).Sound t q → ∀ node ∈ watches, node.name ≠ text (q ++ rel)
  nonempty : watches ≠ []

/-- The entry of a directory that the walk has come upon. -/
def Added (t : Tree) (q : Path) (vs : List Visit) (node : Watch) : Prop :=
  ∃ rel id, .dir rel ∈ vs ∧ (q ++ rel, id) ∈ t.dirs ∧ node = ⟨text (q ++ rel), id⟩

variable {t : Tree} {q rel : Path} {pathFrom : Path → Text} {s : Inoti} {vs : List Visit}
variable {node : Watch}

theorem added_concat_file : Added t q (vs ++ [.file rel]) node ↔ Added t q vs node := by
  simp only [Added, List.mem_append, List.mem_singleton, reduceCtorEq, or_false]

theorem added_concat_of_mem (hrel : .dir rel ∈ vs) :
    Added t q (vs ++ [.dir rel]) node ↔ Added t q vs node := by
  constructor
  · rintro ⟨rel', id, hmem, hadded⟩
    cases List.mem_append.mp hmem with
    | inl hmem => exact ⟨rel', id, hmem, hadded⟩
    | inr hmem =>
        obtain rfl := Visit.dir.inj (List.mem_singleton.mp hmem)
        exact ⟨rel', id, hrel, hadded⟩
  · rintro ⟨rel', id, hmem, hadded⟩
    exact ⟨rel', id, List.mem_append_left _ hmem, hadded⟩

theorem added_concat (wf : t.Wf) {id : Nat} (hmem : (q ++ rel, id) ∈ t.dirs) :
    Added t q (vs ++ [.dir rel]) node ↔ Added t q vs node ∨ node = ⟨text (q ++ rel), id⟩ := by
  constructor
  · rintro ⟨rel', id', hvisit, hdir, rfl⟩
    cases List.mem_append.mp hvisit with
    | inl hvisit => exact .inl ⟨rel', id', hvisit, hdir, rfl⟩
    | inr hvisit =>
        obtain rfl := Visit.dir.inj (List.mem_singleton.mp hvisit)
        rw [wf.id_unique hdir hmem]
        exact .inr rfl
  · rintro (⟨rel', id', hvisit, hadded⟩ | rfl)
    · exact ⟨rel', id', List.mem_append_left _ hvisit, hadded⟩
    · exact ⟨rel, id, List.mem_append_right _ (List.mem_singleton_self _), hmem, rfl⟩

/-- A directory of the walk is treated as a new one: no entry has its old path, except
where the two paths are the same. -/
theorem Unknown.apply_dir (unknown : Unknown t q pathFrom s.watches)
    (hold : ∀ v ∈ vs, v.Sound t q) (hrel : (Visit.dir rel).Sound t q) {s' : Inoti}
    {new : List Watch} (hwatches : s'.watches = s.watches ++ new)
    (hnew : ∀ node, node ∈ new ↔ Added t q vs node) :
    Visit.apply t.world q pathFrom s' (.dir rel) = s'.addWatch t.world (text (q ++ rel)) := by
  rw [Visit.apply]
  by_cases hself : pathFrom rel = text (q ++ rel)
  · rw [hself, modifyWatch_self]
  · apply modifyWatch_of_absent
    rw [hwatches, List.tail_append_of_ne_nil unknown.nonempty]
    intro node hnode hname
    cases List.mem_append.mp hnode with
    | inl hnode => exact unknown.absent rel hrel node hnode hname
    | inr hnode =>
        obtain ⟨rel', id, hvisit, -, rfl⟩ := (hnew node).mp hnode
        have hsame := unknown.self rel rel' hrel (hold _ hvisit) hname.symm
        exact hself (hname.symm.trans (by rw [hsame]))

/-- Every directory of the walk gets a watch of its own, and nothing else happens to
the list. -/
theorem foldl_unknown (wf : t.Wf) (unknown : Unknown t q pathFrom s.watches) (vs : List Visit)
    (hsound : ∀ v ∈ vs, v.Sound t q) :
    ∃ new, (vs.foldl (Visit.apply t.world q pathFrom) s).watches = s.watches ++ new ∧
      (∀ node, node ∈ new ↔ Added t q vs node) ∧
      (∀ wd, wd ∈ (vs.foldl (Visit.apply t.world q pathFrom) s).kernel ↔
        wd ∈ s.kernel ∨ ∃ node ∈ new, node.wd = wd) ∧
      (vs.foldl (Visit.apply t.world q pathFrom) s).stopped = s.stopped := by
  induction vs using List.reverseRecOn with
  | nil =>
      refine ⟨[], (List.append_nil _).symm, fun node => ⟨nofun, ?_⟩, fun wd => ⟨.inl, ?_⟩, rfl⟩
      · rintro ⟨rel, id, hmem, -⟩
        cases hmem
      · rintro (hwd | ⟨node, hnode, -⟩)
        · exact hwd
        · cases hnode
  | append_singleton vs v ih =>
      obtain ⟨new, hwatches, hnew, hkernel, hstopped⟩ :=
        ih fun v hv => hsound v (List.mem_append_left _ hv)
      rw [List.foldl_append, List.foldl_cons, List.foldl_nil]
      have hv : v.Sound t q := hsound v (List.mem_append_right _ (List.mem_singleton_self _))
      have hold : ∀ v ∈ vs, v.Sound t q := fun v hv => hsound v (List.mem_append_left _ hv)
      generalize vs.foldl (Visit.apply t.world q pathFrom) s = s' at *
      cases v with
      | file rel =>
          obtain ⟨hw, hk, hs⟩ : SameTable s' (Visit.apply t.world q pathFrom s' (.file rel)) :=
            sameTable_file
          refine ⟨new, hw.trans hwatches, fun node => (hnew node).trans added_concat_file.symm, ?_,
            hs.trans hstopped⟩
          rwa [hk]
      | dir rel =>
          rw [unknown.apply_dir hold hv hwatches hnew]
          by_cases hthere : ∃ node ∈ s'.watches, node.name = text (q ++ rel)
          · rw [addWatch_of_mem hthere]
            have hvisited : .dir rel ∈ vs := by
              obtain ⟨node, hnode, hname⟩ := hthere
              rw [hwatches] at hnode
              cases List.mem_append.mp hnode with
              | inl hnode => exact absurd hname (unknown.fresh rel hv node hnode)
              | inr hnode =>
                  obtain ⟨rel', id, hvisit, hmem, rfl⟩ := (hnew node).mp hnode
                  have hsame := wf.text_eq (.inl ⟨id, hmem⟩) (.inl hv.1) hname
                  rwa [← List.append_cancel_left hsame]
            exact ⟨new, hwatches, fun node => (hnew node).trans (added_concat_of_mem hvisited).symm,
              hkernel, hstopped⟩
          · obtain ⟨id, hmem⟩ := hv.1
            rw [addWatch_of_absent (fun node hnode hname => hthere ⟨node, hnode, hname⟩)
              (wf.inotifyAddWatch_text hmem) (Int.natCast_pos.mpr (wf.ids _ hmem).1)]
            refine ⟨new ++ [⟨text (q ++ rel), id⟩], ?_, fun node => ?_, fun wd => ?_, hstopped⟩
            · rw [← List.append_assoc, ← hwatches]
            · rw [List.mem_append, List.mem_singleton, hnew, added_concat wf hmem]
            · have hlast : (∃ node ∈ new ++ [⟨text (q ++ rel), (id : Int)⟩], node.wd = wd) ↔
                  (∃ node ∈ new, node.wd = wd) ∨ (id : Int) = wd := by
                simp only [List.mem_append, List.mem_singleton, or_and_right, exists_or,
                  exists_eq_left]
              rw [mem_addKernel, hkernel, hlast, or_assoc]

end Unknown

section Items

/-! ### What the walk does to the items -/

variable {t : Tree} {q : Path} {pathFrom : Path → Text} {s : Inoti} {w : World}

/-- Each file of the walk has its item under its old path, and both paths are on a
storage. -/
structure Itemized (t : Tree) (q : Path) (pathFrom : Path → Text) (db : List Text) : Prop where
  inj : ∀ rel rel', (Visit.file rel).Sound t q → (Visit.file rel').Sound t q →
    pathFrom rel = pathFrom rel' → rel = rel'
  apart : ∀ rel rel', (Visit.file rel).Sound t q → (Visit.file rel').Sound t q →
    pathFrom rel ≠ text (q ++ rel')
  present : ∀ rel, (Visit.file rel).Sound t q → pathFrom rel ∈ db
  storage : ∀ rel, (Visit.file rel).Sound t q →
    msGetStorageTypeByFull (pathFrom rel) ≠ .invalidFilePath ∧
      msGetStorageTypeByFull (text (q ++ rel)) ≠ .invalidFilePath

theorem nodup_moveItem {srcPath dstPath : Text} (hnodup : s.db.Nodup) :
    (s.moveItem srcPath dstPath).db.Nodup := by
  rw [Inoti.moveItem]
  split
  · exact (hnodup.erase _).insert
  · exact hnodup

theorem mem_moveItem {srcPath dstPath item : Text} (hnodup : s.db.Nodup)
    (hsrc : srcPath ∈ s.db) :
    item ∈ (s.moveItem srcPath dstPath).db ↔ item = dstPath ∨ item ≠ srcPath ∧ item ∈ s.db := by
  rw [Inoti.moveItem, if_pos hsrc, List.mem_insert_iff, hnodup.mem_erase_iff]

theorem moveItem_of_absent {srcPath dstPath : Text} (hsrc : srcPath ∉ s.db) :
    s.moveItem srcPath dstPath = s := if_neg hsrc

/-- The items of the files of the walk get their new paths. -/
theorem foldl_db (itemized : Itemized t q pathFrom s.db) (hnodup : s.db.Nodup) (vs : List Visit)
    (hsound : ∀ v ∈ vs, v.Sound t q) :
    (vs.foldl (Visit.apply w q pathFrom) s).db.Nodup ∧
      ∀ item, item ∈ (vs.foldl (Visit.apply w q pathFrom) s).db ↔
        (item ∈ s.db ∧ ∀ rel, .file rel ∈ vs → item ≠ pathFrom rel) ∨
          ∃ rel, .file rel ∈ vs ∧ item = text (q ++ rel) := by
  induction vs using List.reverseRecOn with
  | nil => simpa using hnodup
  | append_singleton vs v ih =>
      obtain ⟨hnd, hdb⟩ := ih fun v hv => hsound v (List.mem_append_left _ hv)
      rw [List.foldl_append, List.foldl_cons, List.foldl_nil]
      have hv : v.Sound t q := hsound v (List.mem_append_right _ (List.mem_singleton_self _))
      have hold : ∀ v ∈ vs, v.Sound t q := fun v hv => hsound v (List.mem_append_left _ hv)
      generalize vs.foldl (Visit.apply w q pathFrom) s = s' at *
      cases v with
      | dir rel =>
          rw [Visit.apply, modifyWatch_db]
          refine ⟨hnd, fun item => (hdb item).trans ?_⟩
          simp only [List.mem_append, List.mem_singleton, reduceCtorEq, or_false]
      | file rel =>
          rw [Visit.apply, Inoti.moveFile, if_pos (itemized.storage rel hv)]
          have hlast : ∀ rel', Visit.file rel' ∈ vs ++ [.file rel] ↔
              Visit.file rel' ∈ vs ∨ rel' = rel := by
            intro rel'
            rw [List.mem_append, List.mem_singleton, Visit.file.injEq]
          by_cases hvisited : Visit.file rel ∈ vs
          · have hgone : pathFrom rel ∉ s'.db := by
              intro hmem
              rcases (hdb _).mp hmem with ⟨-, hne⟩ | ⟨rel', hrel', heq⟩
              · exact hne rel hvisited rfl
              · exact itemized.apart rel rel' hv (hold _ hrel') heq
            rw [moveItem_of_absent hgone]
            refine ⟨hnd, fun item => (hdb item).trans ?_⟩
            have hsame : ∀ rel', Visit.file rel' ∈ vs ++ [.file rel] ↔ Visit.file rel' ∈ vs :=
              fun rel' => (hlast rel').trans
                ⟨fun h => h.elim (fun hwd => hwd) fun heq => heq ▸ hvisited, .inl⟩
            simp only [hsame]
          · have hthere : pathFrom rel ∈ s'.db := by
              refine (hdb _).mpr (.inl ⟨itemized.present rel hv, fun rel' hrel' heq => hvisited ?_⟩)
              rwa [itemized.inj rel rel' hv (hold _ hrel') heq]
            refine ⟨nodup_moveItem hnd, fun item => ?_⟩
            rw [mem_moveItem hnd hthere, hdb]
            simp only [hlast]
            constructor
            · rintro (rfl | ⟨hne, ⟨hitem, hfree⟩ | ⟨rel', hrel', rfl⟩⟩)
              · exact .inr ⟨rel, .inr rfl, rfl⟩
              · refine .inl ⟨hitem, fun rel' hrel' => ?_⟩
                rcases hrel' with hrel' | rfl
                · exact hfree rel' hrel'
                · exact hne
              · exact .inr ⟨rel', .inl hrel', rfl⟩
            · rintro (⟨hitem, hfree⟩ | ⟨rel', hrel' | rfl, rfl⟩)
              · exact .inr ⟨hfree rel (.inr rfl),
                  .inl ⟨hitem, fun rel' hrel' => hfree rel' (.inl hrel')⟩⟩
              · have hne := itemized.apart rel rel' hv (hold _ hrel')
                exact .inr ⟨hne.symm, .inr ⟨rel', hrel', rfl⟩⟩
              · exact .inl rfl

/-- A walk that comes upon directories only leaves the items alone. -/
theorem foldl_db_of_dirs (vs : List Visit) (h : ∀ rel, Visit.file rel ∉ vs) :
    (vs.foldl (Visit.apply w q pathFrom) s).db = s.db := by
  induction vs generalizing s with
  | nil => rfl
  | cons v vs ih =>
      rw [List.foldl_cons, ih fun rel hrel => h rel (List.mem_cons_of_mem _ hrel)]
      cases v with
      | dir rel => exact modifyWatch_db
      | file rel => exact absurd List.mem_cons_self (h rel)

end Items

end MediaServer.Inotify
