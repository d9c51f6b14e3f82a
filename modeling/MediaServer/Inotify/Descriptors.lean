import MediaServer.Inotify.Service

/-!
# Watch descriptors and their directories

An event names a directory by its watch descriptor only. The search for the entry stops in
front of the last one, which then stands for every descriptor that no entry has: that of a
watch just removed, and the value to which `prev_wd` is reset.
-/

namespace MediaServer.Inotify

variable {s : Inoti} {watches : List Watch} {wd : Int} {name : Text}

/-- A pair of a descriptor and a name leads to the path in the directory with that
descriptor, if it fits the buffer, and to no other path; without such a directory the
plug-ins are not asked for anything. -/
structure Resolves (s : Inoti) (wd : Int) (name : Text) : Prop where
  path : ∀ path, s.getFullPath wd name = some path ↔
    ∃ node ∈ s.watches, node.wd = wd ∧ path = node.name ++ '/' :: name ∧
      path.length < msFilePathLenMax
  event : (∀ node ∈ s.watches, node.wd ≠ wd) → ∀ w e, e.wd = wd →
    msStrcopy (msFileNameLenMax + 1) e.name = some name → s.serviceCalls w e = []
  previous : (∀ node ∈ s.watches, node.wd ≠ wd) → ∀ w e, branch e.mask = .dirMovedTo →
    s.prevWd = wd → s.prevName = name → s.serviceCalls w e = []

/-- The bytes of the joined path, without its terminating NUL. -/
def joinedLength (node : Watch) (name : Text) : Nat := (node.name ++ '/' :: name).length

/-- The list is empty; or an entry has the descriptor, and its path with the name is not of
the two lengths around the size of the buffer; or none has it, and the path of the last
entry with the name does not fit. -/
def Resolvable (watches : List Watch) (wd : Int) (name : Text) : Prop :=
  (∃ node ∈ watches, node.wd = wd ∧ joinedLength node name ≠ msFilePathLenMax - 1 ∧
    joinedLength node name ≠ msFilePathLenMax) ∨
  ((∀ node ∈ watches, node.wd ≠ wd) ∧
    ∀ node ∈ watches.getLast?, joinedLength node name > msFilePathLenMax)

instance : Decidable (Resolvable watches wd name) := inferInstanceAs (Decidable (_ ∨ _))

theorem findNode_of_absent (h : ∀ node ∈ watches, node.wd ≠ wd) :
    Inoti.findNode wd watches = watches.getLast? := by
  induction watches with
  | nil => rfl
  | cons head rest ih =>
      cases rest with
      | nil => rfl
      | cons next rest =>
          have hhead : wd ≠ head.wd := (h head List.mem_cons_self).symm
          rw [Inoti.findNode, if_neg hhead, List.getLast?_cons_cons]
          exact ih fun node hnode => h node (List.mem_cons_of_mem head hnode)

theorem msStrappend_eq (dir name : Text) :
    msStrappend dir name =
      if (dir ++ '/' :: name).length ≤ msFilePathLenMax then
        some ((dir ++ '/' :: name).take (msFilePathLenMax - 2))
      else none := by
  have hlength : (dir ++ '/' :: name).length = dir.length + name.length + 1 := by
    rw [List.length_append, List.length_cons]
    omega
  rw [msStrappend, hlength]
  refine if_congr ?_ rfl rfl
  show _ ≤ 4096 - 1 ↔ _ ≤ 4096
  omega

/-- A path as long as the buffer, or one byte shorter, loses its end. -/
theorem msStrappend_exact_iff (dir name : Text) :
    (∀ path, msStrappend dir name = some path ↔
      path = dir ++ '/' :: name ∧ path.length < msFilePathLenMax) ↔
      (dir ++ '/' :: name).length ≠ msFilePathLenMax - 1 ∧
        (dir ++ '/' :: name).length ≠ msFilePathLenMax := by
  rw [msStrappend_eq]
  generalize dir ++ '/' :: name = whole
  show (∀ path, (if whole.length ≤ 4096 then some (whole.take 4094) else none) = some path ↔
    path = whole ∧ path.length < 4096) ↔ whole.length ≠ 4095 ∧ whole.length ≠ 4096
  by_cases hshort : whole.length ≤ 4094
  · have hle : whole.length ≤ 4096 := by omega
    rw [if_pos hle, List.take_of_length_le hshort]
    refine iff_of_true (fun path => ?_) (by omega)
    constructor
    · intro h
      obtain rfl := Option.some.inj h
      exact ⟨rfl, by omega⟩
    · exact fun h => congrArg some h.1.symm
  · by_cases hle : whole.length ≤ 4096
    · rw [if_pos hle]
      refine iff_of_false (fun h => ?_) (by omega)
      obtain ⟨hpath, -⟩ := (h _).mp rfl
      have hcut := congrArg List.length hpath
      rw [List.length_take] at hcut
      omega
    · rw [if_neg hle]
      refine iff_of_true (fun path => ?_) (by omega)
      refine iff_of_false nofun ?_
      rintro ⟨rfl, hlt⟩
      omega

theorem serviceCalls_of_unresolved {w : World} {e : Event}
    (hcopy : msStrcopy (msFileNameLenMax + 1) e.name = some name)
    (hnone : s.getFullPath e.wd name = none) : s.serviceCalls w e = [] := by
  have hreceived : s.received e = none := by
    rw [Inoti.received]
    split
    · rfl
    · split
      · simp [hcopy, hnone]
      · rfl
  rw [Inoti.serviceCalls, hreceived]
  exact ite_self []

theorem serviceCalls_of_forgotten {w : World} {e : Event} (hbranch : branch e.mask = .dirMovedTo)
    (hnone : s.getFullPath s.prevWd s.prevName = none) : s.serviceCalls w e = [] := by
  have hcall : s.renameCall e = none := by
    rw [Inoti.renameCall, hbranch, hnone]
    split
    next heq => simp
    next => rfl
  rw [Inoti.serviceCalls]
  split
  next =>
    split
    next => rfl
    next => simp only [hbranch, hcall]
  next => rfl

/-- The calls follow the paths. -/
theorem resolves_iff_path : Resolves s wd name ↔
    ∀ path, s.getFullPath wd name = some path ↔
      ∃ node ∈ s.watches, node.wd = wd ∧ path = node.name ++ '/' :: name ∧
        path.length < msFilePathLenMax := by
  constructor
  · exact Resolves.path
  · intro h
    have hnone : (∀ node ∈ s.watches, node.wd ≠ wd) → s.getFullPath wd name = none := by
      intro habsent
      rw [Option.eq_none_iff_forall_ne_some]
      intro path hpath
      obtain ⟨node, hnode, hwd, -⟩ := (h path).mp hpath
      exact habsent node hnode hwd
    refine ⟨h, fun habsent w e hwd hcopy => ?_, fun habsent w e hbranch hwd hname => ?_⟩
    · exact serviceCalls_of_unresolved hcopy (hwd ▸ hnone habsent)
    · refine serviceCalls_of_forgotten hbranch ?_
      rw [hwd, hname]
      exact hnone habsent

/-- A descriptor resolves to its own directory exactly if it is not looked up in vain while
another directory can answer, and the path is not as long as the buffer or one byte
shorter. -/
theorem resolves_iff (hdistinct : (s.watches.map Watch.wd).Nodup) (wd : Int) (name : Text) :
    Resolves s wd name ↔ Resolvable s.watches wd name := by
  rw [resolves_iff_path, Resolvable]
  by_cases hwatched : ∃ node ∈ s.watches, node.wd = wd
  · obtain ⟨node, hnode, hwd, hfind⟩ := findNode_of_mem hwatched
    have hown : ∀ other ∈ s.watches, other.wd = wd → other = node := fun other hother hsame =>
      List.inj_on_of_nodup_map hdistinct hother hnode (hsame.trans hwd.symm)
    have hpath : s.getFullPath wd name = msStrappend node.name name := by
      rw [Inoti.getFullPath, hfind, Option.bind_some]
    have hsole : ∀ p : Watch → Prop,
        (∃ other ∈ s.watches, other.wd = wd ∧ p other) ↔ p node := by
      intro p
      constructor
      · rintro ⟨other, hother, hsame, hp⟩
        exact hown other hother hsame ▸ hp
      · exact fun hp => ⟨node, hnode, hwd, hp⟩
    have hnot : ¬ ((∀ node ∈ s.watches, node.wd ≠ wd) ∧
        ∀ node ∈ s.watches.getLast?, joinedLength node name > msFilePathLenMax) :=
      fun h => h.1 node hnode hwd
    rw [or_iff_left hnot, hsole, hpath, joinedLength, ← msStrappend_exact_iff]
    exact forall_congr' fun path => iff_congr Iff.rfl (hsole _)
  · have habsent : ∀ node ∈ s.watches, node.wd ≠ wd := fun node hnode hwd =>
      hwatched ⟨node, hnode, hwd⟩
    have hnone : ∀ p : Watch → Prop, ¬ ∃ other ∈ s.watches, other.wd = wd ∧ p other := by
      rintro p ⟨other, hother, hsame, -⟩
      exact habsent other hother hsame
    have hpath : (∀ path, s.getFullPath wd name = some path ↔
        ∃ node ∈ s.watches, node.wd = wd ∧ path = node.name ++ '/' :: name ∧
          path.length < msFilePathLenMax) ↔ s.getFullPath wd name = none := by
      rw [Option.eq_none_iff_forall_ne_some]
      exact forall_congr' fun path => iff_false_right (hnone _)
    rw [or_iff_right (hnone _), and_iff_right habsent, hpath, Inoti.getFullPath,
      findNode_of_absent habsent]
    cases s.watches.getLast? with
    | none => simp
    | some last =>
        show msStrappend last.name name = none ↔ _
        rw [msStrappend_eq]
        simp [joinedLength]

/-- The watches after the start, and the events of the directory with the descriptor 2. -/
theorem resolves_own :
    Resolves { watches := [⟨msDbUpdateNotiPath, 1⟩, ⟨msRootPathInternal, 2⟩] } 2 ['a'] :=
  (resolves_iff (by decide) 2 ['a']).mpr (by decide)

/-- The reset value of `prev_wd` stands for the last directory. -/
theorem resolves_foreign :
    ¬ Resolves { watches := [⟨msDbUpdateNotiPath, 1⟩, ⟨msRootPathInternal, 2⟩] } 0 ['a'] := by
  intro h
  obtain ⟨node, hnode, hwd, -⟩ := (h.path (msRootPathInternal ++ ['/', 'a'])).mp (by decide)
  have habsent : ∀ node ∈ [(⟨msDbUpdateNotiPath, 1⟩ : Watch), ⟨msRootPathInternal, 2⟩],
      node.wd ≠ 0 := by decide
  exact habsent node hnode hwd

end MediaServer.Inotify
