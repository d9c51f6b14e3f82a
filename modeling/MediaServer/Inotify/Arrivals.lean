import MediaServer.Inotify.Database
import MediaServer.Inotify.Startup

/-!
# The thread among programs that go on

`_ms_inoti_directory_scan_and_register_file` opens a directory first and adds its watch
afterwards. What is made in between is in neither of the two. If nothing is, the thread
catches up with whatever has been made once it waits for events again.
-/

namespace MediaServer.Inotify

open Scan Discovery

section Visits

variable {root : Root} {wanted : Path → Prop} {ahead : List Text} {s : Growth}
variable {scanner scanner' : Scanner} {call : Visiting} {calls : List Visiting} {w : World}
variable {next : Option Dirent} {dp : Dir} {e : Dirent} {path : Text}

@[simp] theorem ret_calls : (scanner.ret calls).calls = calls := by
  cases calls <;> rfl

@[simp] theorem ret_db : (scanner.ret calls).inoti.db = scanner.inoti.db := by
  cases calls <;> rfl

@[simp] theorem ret_createFiles :
    (scanner.ret calls).inoti.createFiles = scanner.inoti.createFiles := by
  cases calls <;> rfl

theorem sameTable_ret : SameTable scanner.inoti (scanner.ret calls).inoti := by
  cases calls <;> exact ⟨rfl, rfl, rfl⟩

theorem Growth.inoti_of_running (hserver : s.server = .running scanner) :
    s.inoti = scanner.inoti := by
  rw [Growth.inoti, hserver]
  rfl

theorem Accounts.rootFollowed_of_running (h : Accounts root wanted ahead s)
    (hserver : s.server = .running scanner) : root.path ∈ Followed s.tree s.inoti := by
  refine h.rootFollowed.resolve_left ?_
  rintro ⟨walker, heq⟩
  rw [hserver] at heq
  cases heq

/-- The innermost activation moves on, and becomes `front`. -/
theorem Accounts.visited (h : Accounts root wanted ahead s) (hserver : s.server = .running scanner)
    (hcalls : scanner.calls = call :: calls) (front : List Visiting)
    (hfront : scanner'.calls = front ++ calls) (htables : Accurate s.tree scanner'.inoti)
    (hwatches : ∀ node ∈ s.inoti.watches, node ∈ scanner'.inoti.watches)
    (hdb : ∀ item ∈ s.inoti.db, item ∈ scanner'.inoti.db)
    (hfiles : scanner'.inoti.createFiles = s.inoti.createFiles)
    (hbrings : ∀ p name, Visible root.path p → p ++ [name] ∈ Present root wanted s.tree →
      call.Brings s.tree (p ++ [name]) → p ++ [name] ∈ Followed s.tree scanner'.inoti ∨
        ∃ c ∈ front, c.Brings s.tree (p ++ [name]))
    (hopened : ∀ p name, p ∈ Followed s.tree scanner'.inoti → p ∉ Followed s.tree s.inoti →
      p ++ [name] ∈ Present root wanted s.tree → ∃ c ∈ front, c.Brings s.tree (p ++ [name]))
    (hwhole : ∀ dirPath entries, .opened dirPath entries ∈ front →
      Exhaustive (Present root wanted s.tree) dirPath entries) :
    Accounts root wanted [] { s with server := .running scanner' } := by
  have hstage := h.stage
  rw [hserver] at hstage
  obtain ⟨rfl, hexhaustive⟩ := hstage
  have hlater : ∀ x, (∃ c ∈ front, c.Brings s.tree x) →
      (Party.running scanner').Brings s.tree x := by
    rintro x ⟨c, hc, hbrings⟩
    exact ⟨c, hfront ▸ List.mem_append_left _ hc, hbrings⟩
  refine h.moved htables hwatches hdb hfiles ?_ ?_ ?_ ⟨rfl, ?_⟩
  · rintro p name hvisible hx (hcoming | ⟨p', name', -, hpath⟩)
    · rw [hserver] at hcoming
      obtain ⟨c, hc, hcoming⟩ := hcoming
      rw [hcalls] at hc
      cases List.mem_cons.mp hc with
      | inl heq =>
          exact (hbrings p name hvisible hx (heq ▸ hcoming)).imp_right fun h => .inl (hlater _ h)
      | inr hc => exact .inr (.inl ⟨c, hfront ▸ List.mem_append_right _ hc, hcoming⟩)
    · cases hpath
  · exact fun p name hp hnew hx => .inl (hlater _ (hopened p name hp hnew hx))
  · exact followed_mono hwatches hdb (h.rootFollowed_of_running hserver)
  · intro dirPath entries hopen
    rw [hfront] at hopen
    cases List.mem_append.mp hopen with
    | inl hopen => exact hwhole dirPath entries hopen
    | inr hopen =>
        exact hexhaustive dirPath entries (hcalls ▸ List.mem_cons_of_mem _ hopen)

/-- It moves on with the same watches. -/
theorem Accounts.revisited (h : Accounts root wanted ahead s)
    (hserver : s.server = .running scanner) (hcalls : scanner.calls = call :: calls)
    (front : List Visiting) (hfront : scanner'.calls = front ++ calls)
    (hsame : SameTable scanner.inoti scanner'.inoti)
    (hdb : ∀ item ∈ scanner.inoti.db, item ∈ scanner'.inoti.db)
    (hfiles : scanner'.inoti.createFiles = scanner.inoti.createFiles)
    (hbrings : ∀ p name, Visible root.path p → p ++ [name] ∈ Present root wanted s.tree →
      call.Brings s.tree (p ++ [name]) → p ++ [name] ∈ Followed s.tree scanner'.inoti ∨
        ∃ c ∈ front, c.Brings s.tree (p ++ [name]))
    (hwhole : ∀ dirPath entries, .opened dirPath entries ∈ front →
      Exhaustive (Present root wanted s.tree) dirPath entries) :
    Accounts root wanted [] { s with server := .running scanner' } := by
  have hold := Growth.inoti_of_running hserver
  rw [← hold] at hsame hdb hfiles
  obtain ⟨hwatches, hkernel, hstopped⟩ := id hsame
  refine h.visited hserver hcalls front hfront (h.sound.tables.of_sameTable hsame)
    (fun node hnode => hwatches ▸ hnode) hdb hfiles hbrings ?_ hwhole
  -- Only an item that is stored now can be new, and it is a file.
  rintro p name (⟨id, hmem, hwatch⟩ | ⟨hfile, -⟩) hnew hx
  · exact absurd (.inl ⟨id, hmem, hwatches ▸ hwatch⟩) hnew
  · exact absurd (s.wf.isDir_of_has (has_of_present hx)) (s.wf.disjoint p hfile)

theorem Accounts.visit_entered (h : Accounts root wanted ahead s)
    (hserver : s.server = .running scanner) (hcalls : scanner.calls = .entered path :: calls)
    (hstep : scanner.visit s.tree.world next calls (.entered path) = some scanner') :
    Accounts root wanted [] { s with server := .running scanner' } := by
  rw [Scanner.visit] at hstep
  split at hstep
  next hnone =>
    obtain rfl := Option.some.inj hstep
    refine h.revisited hserver hcalls [] ret_calls sameTable_ret
      (fun item hitem => by rwa [ret_db]) ret_createFiles ?_
      fun _ _ h => absurd h List.not_mem_nil
    rintro p name - - ⟨hdir, rfl⟩
    rw [s.wf.opendir_text hdir] at hnone
    cases hnone
  next entries hopen =>
    obtain rfl := Option.some.inj hstep
    refine h.revisited hserver hcalls [.opened path entries] rfl ⟨rfl, rfl, rfl⟩
      (fun item hitem => hitem) rfl ?_ ?_
    · exact fun p name _ _ hbrings => .inr ⟨_, List.mem_singleton_self _, hbrings⟩
    · intro dirPath entries' hmem p name hpath hx
      cases List.mem_singleton.mp hmem
      obtain ⟨q, hdir, htext, rfl⟩ := opendir_eq hopen
      obtain rfl := s.wf.text_eq (.inl (s.wf.isDir_of_has (has_of_present hx))) (.inl hdir)
        (hpath.symm.trans htext)
      exact exists_entry hx

theorem Accounts.visit_opened {entries : List Dirent} (h : Accounts root wanted ahead s)
    (hserver : s.server = .running scanner)
    (hcalls : scanner.calls = .opened path entries :: calls)
    (hstep : scanner.visit s.tree.world next calls (.opened path entries) = some scanner') :
    Accounts root wanted [] { s with server := .running scanner' } := by
  have hold := Growth.inoti_of_running hserver
  have hstage := h.stage
  rw [hserver] at hstage
  have hwhole := hstage.2 path entries (hcalls ▸ List.mem_cons_self)
  obtain rfl := Option.some.inj hstep
  refine h.visited hserver hcalls [.reading ⟨path, entries, []⟩] rfl
    (hold ▸ h.sound.tables.addWatch path) (fun node hnode => mem_addWatch (hold ▸ hnode))
    (fun item hitem => ?_) ?_ ?_ ?_ ?_
  · rw [addWatch_db, ← hold]
    exact hitem
  · rw [hold]
    exact (SameLoop.addWatch _).createFiles
  · rintro p name - - ⟨⟨id, hmem⟩, rfl⟩
    exact .inl (.inl ⟨id, hmem, watched_addWatch (hold ▸ h.sound.tables) s.wf hmem⟩)
  · intro p name hp hnew hx
    rw [hold] at hnew
    obtain ⟨-, htext⟩ := (followed_of_addWatch hp).resolve_left hnew
    obtain ⟨e, he, rfl⟩ := hwhole p name htext.symm hx
    exact ⟨_, List.mem_singleton_self _, p, e, he, rfl, htext.symm, List.not_mem_nil⟩
  · intro dirPath entries' hmem
    cases List.mem_singleton.mp hmem

/-- What becomes of an entry: the thread enters a directory, and registers what is none. -/
theorem entry_spec (scanner : Scanner) (dp : Dir) (e : Dirent) (calls : List Visiting) :
    ∃ front, (scanner.entry dp e calls).calls = front ++ calls ∧ .reading dp ∈ front ∧
      (∀ dirPath entries, .opened dirPath entries ∉ front) ∧
      SameTable scanner.inoti (scanner.entry dp e calls).inoti ∧
      (∀ item ∈ scanner.inoti.db, item ∈ (scanner.entry dp e calls).inoti.db) ∧
      (scanner.entry dp e calls).inoti.createFiles = scanner.inoti.createFiles ∧
      ∀ path, ¬ e.hidden → msStrappend dp.path e.name = some path →
        if e.dType = dtDir then .entered path ∈ front
        else path ∈ (scanner.entry dp e calls).inoti.db := by
  have hself : .reading dp ∈ [Visiting.reading dp] := List.mem_singleton_self _
  rw [Scanner.entry]
  split
  next hhidden =>
    exact ⟨[.reading dp], rfl, hself, by simp, ⟨rfl, rfl, rfl⟩, fun _ h => h, rfl,
      fun path hnot => absurd hhidden hnot⟩
  next =>
    split
    next hnone =>
      refine ⟨[.reading dp], rfl, hself, by simp, ⟨rfl, rfl, rfl⟩, fun _ h => h, rfl, ?_⟩
      intro path _ happend
      rw [hnone] at happend
      cases happend
    next path happend =>
      split
      next hdir =>
        refine ⟨[.entered path, .reading dp], rfl, List.mem_cons_of_mem _ hself, by simp,
          ⟨rfl, rfl, rfl⟩, fun _ h => h, rfl, fun path' _ happend' => ?_⟩
        obtain rfl := Option.some.inj (happend.symm.trans happend')
        exact List.mem_cons_self
      next hfile =>
        refine ⟨[.reading dp], rfl, hself, by simp, sameTable_registerFile,
          fun _ h => mem_registerFile.mpr (.inl h), (SameLoop.registerFile _).createFiles,
          fun path' _ happend' => ?_⟩
        obtain rfl := Option.some.inj (happend.symm.trans happend')
        exact mem_registerFile.mpr (.inr rfl)

theorem Accounts.visit_reading (h : Accounts root wanted ahead s)
    (hserver : s.server = .running scanner) (hcalls : scanner.calls = .reading dp :: calls)
    (hstep : scanner.visit s.tree.world next calls (.reading dp) = some scanner') :
    Accounts root wanted [] { s with server := .running scanner' } := by
  obtain ⟨dp', hread, rfl⟩ := Option.map_eq_some_iff.mp hstep
  cases next with
  | none =>
      obtain ⟨hall, -⟩ := Dir.readdir_none hread
      refine h.revisited hserver hcalls [] ret_calls sameTable_ret
        (fun item hitem => by rwa [ret_db]) ret_createFiles ?_
        fun _ _ h => absurd h List.not_mem_nil
      exact fun p name _ _ howes => absurd howes (Dir.not_owes hall)
  | some e =>
      obtain ⟨hmem, -, rfl⟩ := Dir.readdir_some hread
      obtain ⟨front, hfront, hself, hopened, hsame, hdb, hfiles, hspec⟩ :=
        entry_spec scanner { dp with returned := dp.returned ++ [e] } e calls
      refine h.revisited hserver hcalls front hfront hsame hdb hfiles ?_
        fun dirPath entries hmem => absurd hmem (hopened dirPath entries)
      intro p name hvisible hx howes
      rcases Dir.Owes.returned howes (e := e) with howes | ⟨rfl, hpath⟩
      · exact .inr ⟨_, hself, howes⟩
      · have hhidden : ¬ e.hidden := shown_of_visible hvisible hx.1
        have happend : msStrappend dp.path e.name = some (text (p ++ [e.name])) := by
          rw [hpath]
          exact msStrappend_text (h.fits _ hx)
        rw [hpath, entries_text s.wf (s.wf.isDir_of_has (has_of_present hx)),
          Tree.mem_children] at hmem
        have hdone := hspec _ hhidden happend
        rcases hmem with ⟨hdir, htype⟩ | ⟨hfile, htype⟩
        · rw [if_pos htype] at hdone
          exact .inr ⟨_, hdone, hdir, rfl⟩
        · rw [if_neg (by rw [htype]; decide)] at hdone
          exact .inl (.inr ⟨hfile, hdone⟩)

end Visits

section Events

variable {root : Root} {wanted : Path → Prop} {ahead : List Text} {s : Growth}
variable {scanner scanner' : Scanner} {w : World} {e : Event} {rest : List Event} {i : Inoti}
variable {p : Path} {id mask : Nat} {name : Text}

theorem nameEvent_inj {id' mask' : Nat} {name' : Text}
    (h : nameEvent id mask 0 name = nameEvent id' mask' 0 name') :
    id = id' ∧ mask = mask' ∧ name = name' :=
  ⟨Int.ofNat_inj.mp (congrArg Event.wd h), congrArg Event.mask h, congrArg Event.name h⟩

/-- An event is dropped, or it gets to the branches. -/
theorem event_cases (hoff : w.powerOff = false) (hrunning : i.stopped = false)
    (hname : e.name ≠ powerOffName) :
    i.event w e = i ∨ ∃ name path, i.received e = some (name, path) ∧
      i.event w e = i.handle w e name path := by
  have hpower : ¬ (w.powerOff = true ∨ e.name = "_POWER_OFF".toList) := by
    rintro (h | h)
    · rw [hoff] at h
      cases h
    · exact hname h
  rw [Inoti.event, hrunning, if_neg hpower]
  simp only [Bool.false_eq_true, if_false]
  split
  · exact .inl rfl
  · cases hreceived : i.received e with
    | none => exact .inl rfl
    | some r => exact .inr ⟨r.1, r.2, rfl, rfl⟩

/-- An event in a visible directory with a watch comes with the path of the item. -/
theorem Growth.Sound.received (h : s.Sound root) (hmem : (p, id) ∈ s.tree.dirs)
    (hwatch : ⟨text p, id⟩ ∈ s.inoti.watches) (hheard : Sys.Heard root ⟨p, name⟩)
    (hvisible : Visible root.path p) (hx : Visible root.path (p ++ [name])) (mask : Nat) :
    Legible name ∧
      s.inoti.received (nameEvent id mask 0 name) = some (name, text (p ++ [name])) := by
  obtain ⟨hlegible, hfits⟩ := hheard hx
  refine ⟨hlegible, received_of_legible (shown_of_visible hvisible hx) hlegible
    (s.wf.ids _ hmem).1 ?_⟩
  rw [h.tables.getFullPath s.wf hmem hwatch]
  exact msStrappend_text hfits

theorem branch_mkdirEvent : branch (mkdirEvent id name).mask = .dirCreate := by
  show branch (inIsDir ||| inCreate) = .dirCreate
  decide

theorem branch_madeEvent : branch (madeEvent id name).mask = .fileCreate := by
  show branch inCreate = .fileCreate
  decide

theorem branch_closedEvent : branch (closedEvent id name).mask = .fileCloseWrite := by
  show branch inCloseWrite = .fileCloseWrite
  decide

theorem scanCall_of_received {path : Text} (hoff : w.powerOff = false) (hlegible : Legible name)
    (hreceived : i.received (mkdirEvent id name) = some (name, path)) :
    i.scanCall w (mkdirEvent id name) = some path := by
  have hnot : ¬ (w.powerOff = true ∨ name = powerOffName ∨
      name = "_FILEOPERATION_END".toList) := by
    rintro (h | h | h)
    · rw [hoff] at h
      cases h
    · exact hlegible.2.1 h
    · exact hlegible.2.2 h
  rw [Inoti.scanCall, hreceived, branch_mkdirEvent]
  exact if_neg hnot

theorem scanCall_of_file (h : branch e.mask ≠ .dirCreate) : i.scanCall w e = none := by
  rw [Inoti.scanCall]
  split
  · rfl
  · split
    next hbranch => exact absurd hbranch h
    next => rfl

theorem event_of_file (h : branch e.mask ≠ .dirCreate) :
    scanner.event w e = { scanner with inoti := scanner.inoti.event w e } := by
  rw [Scanner.event, scanCall_of_file h]

/-- An event for a new directory leads to a call, or to nothing. -/
theorem event_of_mkdir (hoff : w.powerOff = false) (hrunning : i.stopped = false)
    (hname : name ≠ powerOffName) (hcall : i.scanCall w (mkdirEvent id name) = none) :
    i.event w (mkdirEvent id name) = i := by
  rcases event_cases (e := mkdirEvent id name) hoff hrunning hname with
    hdropped | ⟨name', path, hreceived, hhandled⟩
  · exact hdropped
  · rw [Inoti.scanCall, hreceived, branch_mkdirEvent] at hcall
    split at hcall
    next hcontrol =>
      have hend : name = "_FILEOPERATION_END".toList := by
        rcases hcontrol with h | h | h
        · rw [hoff] at h
          cases h
        · exact absurd h hname
        · exact h
      rw [Inoti.event, hrunning, hoff]
      simp only [Bool.false_eq_true, if_false, false_or]
      rw [if_neg (show ¬ (mkdirEvent id name).name = "_POWER_OFF".toList from hname),
        if_pos (show (mkdirEvent id name).name = "_FILEOPERATION_END".toList from hend)]
    next => cases hcall

theorem inoti_event_mkdir (hoff : w.powerOff = false) (hrunning : scanner.inoti.stopped = false)
    (hname : name ≠ powerOffName) :
    (scanner.event w (mkdirEvent id name)).inoti = scanner.inoti := by
  rw [Scanner.event]
  split
  · rfl
  next hcall => exact event_of_mkdir hoff hrunning hname hcall

theorem notDir_madeEvent : (madeEvent id name).mask &&& inIsDir = 0 := by
  show inCreate &&& inIsDir = 0
  decide

theorem notDir_closedEvent : (closedEvent id name).mask &&& inIsDir = 0 := by
  show inCloseWrite &&& inIsDir = 0
  decide

/-- The creation of a file is put in the list. -/
theorem event_of_made (w : World) (id : Nat) (hoff : w.powerOff = false)
    (hrunning : i.stopped = false) (hname : name ≠ powerOffName) :
    i.event w (madeEvent id name) = i ∨ ∃ n, i.event w (madeEvent id name) =
      { i with createFiles := ((id : Int), n) :: i.createFiles } := by
  rcases event_cases (e := madeEvent id name) hoff hrunning hname with
    hdropped | ⟨n, path, -, hhandled⟩
  · exact .inl hdropped
  · refine .inr ⟨n, ?_⟩
    rw [hhandled, Inoti.handle, branch_madeEvent]
    rfl

/-- The name is copied whole. -/
theorem received_spec {path : Text} (h : i.received e = some (name, path)) :
    name = e.name ∧ i.getFullPath e.wd name = some path := by
  rw [Inoti.received] at h
  split at h
  · cases h
  · split at h
    next hlen =>
      obtain ⟨copy, hcopy, hpath⟩ := Option.bind_eq_some_iff.mp h
      obtain ⟨path', hfull, heq⟩ := Option.map_eq_some_iff.mp hpath
      obtain ⟨rfl, rfl⟩ := Prod.mk.inj heq
      have hshort : e.name.length ≤ msFileNameLenMax + 1 - 2 := by
        rw [msFileNameLenMax] at hlen ⊢
        rcases e.terminated with hterminated | hzero
        · omega
        · exact absurd hzero hlen.1
      rw [msStrcopy, List.take_of_length_le hshort] at hcopy
      split at hcopy
      · exact ⟨(Option.some.inj hcopy).symm, hfull⟩
      · cases hcopy
    next => cases h

theorem event_of_closed (w : World) (id : Nat) (hoff : w.powerOff = false)
    (hrunning : i.stopped = false) (hname : name ≠ powerOffName) :
    i.event w (closedEvent id name) = i ∨
      ∃ path, i.received (closedEvent id name) = some (name, path) ∧
        i.event w (closedEvent id name) = i.closeWrite w (closedEvent id name) name path := by
  rcases event_cases (e := closedEvent id name) hoff hrunning hname with
    hdropped | ⟨n, path, hreceived, hhandled⟩
  · exact .inl hdropped
  · obtain ⟨rfl, -⟩ := received_spec hreceived
    refine .inr ⟨path, hreceived, ?_⟩
    rw [hhandled, Inoti.handle, branch_closedEvent]

/-- The thread has handled the first event of the queue. -/
theorem Accounts.handled (h : Accounts root wanted ahead s) (hserver : s.server = .running scanner)
    (hcalls : scanner.calls = []) (hqueue : s.queue = e :: rest) (scanner' : Scanner)
    (hsame : SameTable scanner.inoti scanner'.inoti)
    (hdb : ∀ item ∈ scanner.inoti.db, item ∈ scanner'.inoti.db)
    (hopened : ∀ dirPath entries, .opened dirPath entries ∉ scanner'.calls)
    (htold : ∀ p name, Visible root.path p → p ++ [name] ∈ Present root wanted s.tree →
      Told s.tree s.writing (e :: rest) s.inoti.createFiles (p ++ [name]) →
        p ++ [name] ∈ Followed s.tree scanner'.inoti ∨
          Told s.tree s.writing rest scanner'.inoti.createFiles (p ++ [name]) ∨
            ∃ c ∈ scanner'.calls, c.Brings s.tree (p ++ [name])) :
    Accounts root wanted [] { s with queue := rest, server := .running scanner' } := by
  have hold := Growth.inoti_of_running hserver
  rw [← hold] at hsame hdb
  obtain ⟨hwatches, hkernel, hstopped⟩ := id hsame
  have hstage := h.stage
  rw [hserver] at hstage
  obtain ⟨rfl, -⟩ := hstage
  have hfollowed : ∀ p ∈ Followed s.tree s.inoti, p ∈ Followed s.tree scanner'.inoti :=
    fun p => followed_mono (fun node hnode => hwatches ▸ hnode) hdb
  refine
    { sound := ⟨h.sound.tables.of_sameTable hsame, fun e' he' => ?_⟩, rootDir := h.rootDir,
      fits := h.fits, covers := ?_
      rootFollowed := .inr (hfollowed _ (h.rootFollowed_of_running hserver))
      stage := ⟨rfl, fun dirPath entries hmem => absurd hmem (hopened dirPath entries)⟩ }
  · obtain ⟨d, hd, name, hkind, hwatch, hrest⟩ :=
      h.sound.queue e' (hqueue ▸ List.mem_cons_of_mem _ he')
    exact ⟨d, hd, name, hkind, hwatches ▸ hwatch, hrest⟩
  · refine h.covers.step ?_ ?_ ?_
    · rintro p x - hx ⟨hvisible, name, rfl⟩ (hfound | hdue | hbrings | hahead)
      · exact .inl (hfollowed _ hfound)
      · rw [hqueue] at hdue
        rcases htold p name hvisible hx hdue with hfound | hdue | hbrings
        · exact .inl hfound
        · exact .inr (.inl hdue)
        · exact .inr (.inr (.inl hbrings))
      · rw [hserver] at hbrings
        obtain ⟨c, hc, -⟩ := hbrings
        rw [hcalls] at hc
        cases hc
      · exact .inr (.inr (.inr hahead))
    · exact fun p x _ hx hnew _ => absurd hx hnew
    · rintro p x (⟨id, hmem, hwatch⟩ | ⟨hfile, -⟩) hnew hx ⟨-, name, rfl⟩
      · exact absurd (.inl ⟨id, hmem, hwatches ▸ hwatch⟩) hnew
      · exact absurd (s.wf.isDir_of_has (has_of_present hx)) (s.wf.disjoint p hfile)

section Telling

variable {t : Tree} {writing : List Path} {files files' : List (Int × Text)}

/-- Unless the list of created files loses the item, it is told of as before. -/
theorem Told.of_files (h : Told t writing rest files (p ++ [name]))
    (files' : List (Int × Text)) :
    Told t writing rest files' (p ++ [name]) ∨ ∃ id, (p, id) ∈ t.dirs ∧ p ++ [name] ∈ t.files ∧
      ((id : Int), name) ∈ files ∧ ((id : Int), name) ∉ files' := by
  generalize hx : p ++ [name] = x at h
  cases h with
  | dir hmem hdir hqueue => exact .inl (.dir hmem hdir hqueue)
  | create hmem hfile hqueue hend => exact .inl (.create hmem hfile hqueue hend)
  | @made q id n hmem hfile hmade hend =>
      obtain ⟨rfl, hlast⟩ := List.append_inj' hx rfl
      obtain ⟨rfl, -⟩ := List.cons.inj hlast
      by_cases hkept : ((id : Int), name) ∈ files'
      · exact .inl (.made hmem hfile hkept hend)
      · exact .inr ⟨id, hmem, hfile, hmade, hkept⟩

/-- The first event is about the item, or the others tell of it. -/
theorem told_cons (h : Told t writing (e :: rest) files (p ++ [name])) :
    (∃ id, (p, id) ∈ t.dirs ∧ (e = mkdirEvent id name ∧ t.IsDir (p ++ [name]) ∨
      p ++ [name] ∈ t.files ∧ (e = madeEvent id name ∧ Ends writing rest (p ++ [name]) id name ∨
        e = closedEvent id name ∧ ((id : Int), name) ∈ files))) ∨
      Told t writing rest files (p ++ [name]) := by
  generalize hx : p ++ [name] = x at h
  cases h with
  | dir hmem hdir hqueue =>
      obtain ⟨rfl, hlast⟩ := List.append_inj' hx rfl
      obtain ⟨rfl, -⟩ := List.cons.inj hlast
      cases List.mem_cons.mp hqueue with
      | inl heq => exact .inl ⟨_, hmem, .inl ⟨heq.symm, hdir⟩⟩
      | inr hqueue => exact .inr (.dir hmem hdir hqueue)
  | made hmem hfile hmade hend =>
      obtain ⟨rfl, hlast⟩ := List.append_inj' hx rfl
      obtain ⟨rfl, -⟩ := List.cons.inj hlast
      rcases hend with hwriting | hqueue
      · exact .inr (.made hmem hfile hmade (.inl hwriting))
      · cases List.mem_cons.mp hqueue with
        | inl heq => exact .inl ⟨_, hmem, .inr ⟨hfile, .inr ⟨heq.symm, hmade⟩⟩⟩
        | inr hqueue => exact .inr (.made hmem hfile hmade (.inr hqueue))
  | @create q id n front back hmem hfile hqueue hend =>
      obtain ⟨rfl, hlast⟩ := List.append_inj' hx rfl
      obtain ⟨rfl, -⟩ := List.cons.inj hlast
      cases front with
      | nil =>
          obtain ⟨rfl, rfl⟩ := List.cons.inj hqueue
          exact .inl ⟨_, hmem, .inr ⟨hfile, .inl ⟨rfl, hend⟩⟩⟩
      | cons _ front =>
          obtain ⟨rfl, rfl⟩ := List.cons.inj hqueue
          exact .inr (.create hmem hfile rfl hend)

end Telling

theorem Accounts.event_mkdir (h : Accounts root wanted ahead s)
    (hserver : s.server = .running scanner) (hcalls : scanner.calls = [])
    (hqueue : s.queue = mkdirEvent id name :: rest) (hmem : (p, id) ∈ s.tree.dirs)
    (hwatch : ⟨text p, id⟩ ∈ s.inoti.watches) (hname : name ≠ powerOffName)
    (hheard : Sys.Heard root ⟨p, name⟩) :
    Accounts root wanted [] { s with
      queue := rest
      server := .running (scanner.event s.tree.world (mkdirEvent id name)) } := by
  have hold := Growth.inoti_of_running hserver
  have hinoti : (scanner.event s.tree.world (mkdirEvent id name)).inoti = scanner.inoti :=
    inoti_event_mkdir rfl (hold ▸ h.sound.tables.running) hname
  refine h.handled hserver hcalls hqueue _ (hinoti.symm ▸ ⟨rfl, rfl, rfl⟩)
    (fun item hitem => hinoti.symm ▸ hitem) ?_ ?_
  · intro dirPath entries hopen
    rw [Scanner.event] at hopen
    split at hopen
    · cases List.mem_singleton.mp hopen
    · rw [hcalls] at hopen
      cases hopen
  · intro q n hvisible hx htold
    rcases told_cons htold with ⟨id', hmem', ⟨heq, hdir⟩ | ⟨-, ⟨heq, -⟩ | ⟨heq, -⟩⟩⟩ | htold
    · obtain ⟨rfl, -, rfl⟩ := nameEvent_inj heq
      obtain rfl := s.wf.path_unique hmem hmem'
      obtain ⟨hlegible, hreceived⟩ := h.sound.received hmem hwatch hheard hvisible hx.1
        (inIsDir ||| inCreate)
      rw [hold] at hreceived
      refine .inr (.inr ⟨.entered (text (p ++ [name])), ?_, hdir, rfl⟩)
      rw [Scanner.event, scanCall_of_received rfl hlegible hreceived]
      exact List.mem_singleton_self _
    · exact absurd (nameEvent_inj heq).2.1 (by decide)
    · exact absurd (nameEvent_inj heq).2.1 (by decide)
    · rw [hinoti, ← hold]
      exact .inr (.inl htold)

theorem Accounts.event_made (h : Accounts root wanted ahead s)
    (hserver : s.server = .running scanner) (hcalls : scanner.calls = [])
    (hqueue : s.queue = madeEvent id name :: rest) (hmem : (p, id) ∈ s.tree.dirs)
    (hwatch : ⟨text p, id⟩ ∈ s.inoti.watches) (hname : name ≠ powerOffName)
    (hheard : Sys.Heard root ⟨p, name⟩) :
    Accounts root wanted [] { s with
      queue := rest
      server := .running (scanner.event s.tree.world (madeEvent id name)) } := by
  have hold := Growth.inoti_of_running hserver
  have hrunning : scanner.inoti.stopped = false := hold ▸ h.sound.tables.running
  have hcases := event_of_made s.tree.world id rfl hrunning hname
  rw [event_of_file (by rw [branch_madeEvent]; decide)]
  refine h.handled hserver hcalls hqueue
    { scanner with inoti := scanner.inoti.event s.tree.world (madeEvent id name) }
    (sameTable_event rfl notDir_madeEvent hname) ?_ ?_ ?_
  · intro item hitem
    show item ∈ (scanner.inoti.event s.tree.world (madeEvent id name)).db
    rcases hcases with hsame | ⟨n, hlonger⟩
    · rwa [hsame]
    · rwa [hlonger]
  · intro dirPath entries hopen
    rw [hcalls] at hopen
    cases hopen
  · intro q n hvisible hx htold
    rcases told_cons htold with ⟨id', hmem', ⟨heq, -⟩ | ⟨hfile, ⟨heq, hend⟩ | ⟨heq, -⟩⟩⟩ | htold
    · exact absurd (nameEvent_inj heq).2.1 (by decide)
    · obtain ⟨rfl, -, rfl⟩ := nameEvent_inj heq
      obtain rfl := s.wf.path_unique hmem hmem'
      obtain ⟨hlegible, hreceived⟩ := h.sound.received hmem hwatch hheard hvisible hx.1 inCreate
      rw [hold] at hreceived
      refine .inr (.inl (.made hmem hfile ?_ hend))
      rw [event_of_received (e := madeEvent id name) rfl hrunning hlegible hreceived,
        Inoti.handle, branch_madeEvent]
      exact List.mem_cons_self
    · exact absurd (nameEvent_inj heq).2.1 (by decide)
    · rcases htold.of_files (scanner.inoti.event s.tree.world (madeEvent id name)).createFiles with
        htold | ⟨id', -, -, hmade, hlost⟩
      · exact .inr (.inl htold)
      · refine absurd ?_ hlost
        rw [hold] at hmade
        rcases hcases with hsame | ⟨n, hlonger⟩
        · rwa [hsame]
        · rw [hlonger]
          exact List.mem_cons_of_mem _ hmade

theorem mem_closeWrite {path item : Text} (h : item ∈ i.db) :
    item ∈ (i.closeWrite w e name path).db := by
  rw [Inoti.closeWrite]
  split
  · exact mem_registerFile.mpr (.inl h)
  · split <;> exact h

/-- The file of the event is registered if its creation is in the list. -/
theorem registered_closeWrite {path : Text} (hmade : (e.wd, name) ∈ i.createFiles) :
    path ∈ (i.closeWrite w e name path).db := by
  rw [Inoti.closeWrite, if_pos (.inl hmade)]
  exact mem_registerFile.mpr (.inr rfl)

/-- No other one leaves the list. -/
theorem closeWrite_createFiles {path : Text} {made : Int × Text} (hmade : made ∈ i.createFiles)
    (hlost : made ∉ (i.closeWrite w e name path).createFiles) : made = (e.wd, name) := by
  rw [Inoti.closeWrite] at hlost
  split at hlost
  · by_contra hself
    exact hlost ((List.mem_erase_of_ne hself).mpr hmade)
  · split at hlost <;> exact absurd hmade hlost

theorem Accounts.event_closed (h : Accounts root wanted ahead s)
    (hserver : s.server = .running scanner) (hcalls : scanner.calls = [])
    (hqueue : s.queue = closedEvent id name :: rest) (hmem : (p, id) ∈ s.tree.dirs)
    (hwatch : ⟨text p, id⟩ ∈ s.inoti.watches) (hname : name ≠ powerOffName)
    (hheard : Sys.Heard root ⟨p, name⟩) :
    Accounts root wanted [] { s with
      queue := rest
      server := .running (scanner.event s.tree.world (closedEvent id name)) } := by
  have hold := Growth.inoti_of_running hserver
  have hrunning : scanner.inoti.stopped = false := hold ▸ h.sound.tables.running
  have hcases := event_of_closed s.tree.world id rfl hrunning hname
  have hstored : ∀ q n, (q, id) ∈ s.tree.dirs → n = name → Visible root.path q →
      q ++ [n] ∈ Present root wanted s.tree → q ++ [n] ∈ s.tree.files →
      ((id : Int), name) ∈ scanner.inoti.createFiles →
      q ++ [n] ∈ Followed s.tree
        (scanner.inoti.event s.tree.world (closedEvent id name)) := by
    rintro q n hmem' rfl hvisible hx hin hmade
    obtain rfl := s.wf.path_unique hmem hmem'
    obtain ⟨hlegible, hreceived⟩ := h.sound.received hmem hwatch hheard hvisible hx.1 inCloseWrite
    rw [hold] at hreceived
    refine .inr ⟨hin, ?_⟩
    rw [event_of_received (e := closedEvent id n) rfl hrunning hlegible hreceived,
      Inoti.handle, branch_closedEvent]
    exact registered_closeWrite hmade
  rw [event_of_file (by rw [branch_closedEvent]; decide)]
  refine h.handled hserver hcalls hqueue
    { scanner with inoti := scanner.inoti.event s.tree.world (closedEvent id name) }
    (sameTable_event rfl notDir_closedEvent hname) ?_ ?_ ?_
  · intro item hitem
    show item ∈ (scanner.inoti.event s.tree.world (closedEvent id name)).db
    rcases hcases with hsame | ⟨path, -, hclosed⟩
    · rwa [hsame]
    · rw [hclosed]
      exact mem_closeWrite hitem
  · intro dirPath entries hopen
    rw [hcalls] at hopen
    cases hopen
  · intro q n hvisible hx htold
    rcases told_cons htold with ⟨id', hmem', ⟨heq, -⟩ | ⟨hin, ⟨heq, -⟩ | ⟨heq, hmade⟩⟩⟩ | htold
    · exact absurd (nameEvent_inj heq).2.1 (by decide)
    · exact absurd (nameEvent_inj heq).2.1 (by decide)
    · obtain ⟨rfl, -, rfl⟩ := nameEvent_inj heq
      exact .inl (hstored q name hmem' rfl hvisible hx hin (hold ▸ hmade))
    · rcases htold.of_files
        (scanner.inoti.event s.tree.world (closedEvent id name)).createFiles with
        htold | ⟨id', hmem', hin, hmade, hlost⟩
      · exact .inr (.inl htold)
      · rw [hold] at hmade
        rcases hcases with hsame | ⟨path, -, hclosed⟩
        · rw [hsame] at hlost
          exact absurd hmade hlost
        · rw [hclosed] at hlost
          obtain ⟨hid, rfl⟩ := Prod.mk.inj (closeWrite_createFiles hmade hlost)
          obtain rfl : id' = id := Int.ofNat_inj.mp hid
          exact .inl (hstored q n hmem' rfl hvisible hx hin hmade)

end Events

section Runs

variable {root : Root} {wanted : Path → Prop} {ahead : List Text} {s s' : Growth} {op : Growing}

/-- The thread catches up. -/
theorem Accounts.run {scanner : Scanner} {queue : List Event} {server : Party}
    {entry : Option Dirent} (h : Accounts root wanted ahead s)
    (hserver : s.server = .running scanner)
    (hstep : (Party.running scanner).step s.tree.world s.queue entry = some (queue, server)) :
    Accounts root wanted [] { s with queue, server } := by
  obtain ⟨call, calls, scanner', hcalls, hvisit, rfl, rfl⟩ | ⟨e, hcalls, hqueue, -, rfl⟩ :=
    Party.running_cases hstep
  · cases call with
    | entered path => exact h.visit_entered hserver hcalls hvisit
    | opened path entries => exact h.visit_opened hserver hcalls hvisit
    | reading dp => exact h.visit_reading hserver hcalls hvisit
  · obtain ⟨d, hd, name, hkind, hwatch, hname, hheard⟩ :=
      h.sound.queue e (hqueue ▸ List.mem_cons_self)
    rcases hkind with rfl | rfl | rfl
    · exact h.event_mkdir hserver hcalls hqueue hd hwatch hname hheard
    · exact h.event_made hserver hcalls hqueue hd hwatch hname hheard
    · exact h.event_closed hserver hcalls hqueue hd hwatch hname hheard

theorem Accounts.step (h : Accounts root wanted ahead s) (hcatch : Catches root s op)
    (hstep : s.step op = some s') : ∃ ahead', Accounts root wanted ahead' s' := by
  cases op with
  | mkdir place => exact ⟨ahead, h.mkdir hcatch hstep⟩
  | create place => exact ⟨ahead, h.create hcatch hstep⟩
  | «open» place => exact ⟨ahead, h.open hstep⟩
  | close place => exact ⟨ahead, h.close hcatch hstep⟩
  | server entry =>
      obtain ⟨⟨queue, server⟩, hmove, rfl⟩ := Option.map_eq_some_iff.mp hstep
      cases hserver : s.server with
      | walking walker standing =>
          rw [hserver] at hmove
          obtain ⟨rfl, hwalk⟩ := Party.walking_cases hmove
          exact h.walk hserver hwalk
      | running scanner =>
          rw [hserver] at hmove
          exact ⟨[], h.run hserver hmove⟩

theorem Accounts.exec {ops : List Growing} (h : Accounts root wanted ahead s)
    (caught : Run.EachStep Growth.step (Catches root) s ops)
    (hexec : Run.exec Growth.step s ops = some s') : ∃ ahead', Accounts root wanted ahead' s' := by
  have halways := Run.always_of_eachStep
    (I := fun s => ∃ ahead, Accounts root wanted ahead s) (fun s op t hinv hcatch hstep => by
      obtain ⟨ahead, hinv⟩ := hinv
      exact hinv.step hcatch hstep) ⟨ahead, h⟩ caught
  exact halways.of_exec hexec

/-- Before its walk `main` has at most the watch of another directory. -/
structure Growth.Starts (root : Root) (s : Growth) : Prop where
  sound : s.Sound root
  rootDir : s.tree.IsDir root.path
  fits : ∀ p, Visible root.path p → s.tree.IsDir p → Fits p
  server : ∃ inoti, s.server = .walking (rootWalker (text root.path) inoti) .start
  unwatched : ∀ d ∈ s.tree.dirs, Visible root.path d.1 → ⟨text d.1, d.2⟩ ∉ s.inoti.watches

theorem Growth.Starts.accounts (h : s.Starts root) : Accounts root (fun _ => False) [] s := by
  obtain ⟨inoti, hserver⟩ := h.server
  refine
    { sound := h.sound, rootDir := h.rootDir, fits := ?_, covers := ?_,
      rootFollowed := .inl ⟨_, hserver⟩, stage := ?_ }
  · rintro x ⟨hvisible, hdir | ⟨-, hfalse⟩⟩
    · exact h.fits x hvisible hdir
    · exact hfalse.elim
  · rintro p x (⟨id, hmem, hwatch⟩ | ⟨hfile, -⟩) hx ⟨hvisible, name, rfl⟩
    · exact absurd hwatch (h.unwatched _ hmem hvisible)
    · exact absurd (s.wf.isDir_of_has (has_of_present hx)) (s.wf.disjoint p hfile)
  · rw [hserver]
    exact ⟨fun _ hfalse => hfalse, rfl, rfl, rfl, rfl, rfl, List.forall_mem_nil _⟩

/-- Once the thread runs, all files that are made from then on are asked for. -/
theorem Accounts.since {scanner : Scanner} (h : Accounts root (fun _ => False) ahead s)
    (hserver : s.server = .running scanner) :
    Accounts root (fun q => q ∉ s.tree.files) [] s := by
  have hpresent : Present root (fun q => q ∉ s.tree.files) s.tree =
      Present root (fun _ => False) s.tree := by
    ext x
    refine and_congr_right fun _ => or_congr_right ?_
    exact iff_of_false (fun hx => hx.2 hx.1) (fun hx => hx.2)
  have hstage := h.stage
  rw [hserver] at hstage
  obtain ⟨rfl, hwhole⟩ := hstage
  exact
    { sound := h.sound, rootDir := h.rootDir, rootFollowed := h.rootFollowed
      fits := by rw [hpresent]; exact h.fits
      covers := by
        have hcovers := h.covers
        rw [Growth.view] at hcovers ⊢
        rwa [hpresent]
      stage := by
        rw [hserver]
        exact ⟨rfl, by rw [hpresent]; exact hwhole⟩ }

/-- At rest only files that are being written are due. -/
theorem Growth.AtRest.due {x : Path} (hrest : s.AtRest)
    (hdue : x ∈ (s.view root wanted []).due) : x ∈ s.tree.files ∧ x ∈ s.writing := by
  obtain ⟨hqueue, scanner, hserver, hcalls⟩ := hrest
  rcases hdue with htold | hbrings | ⟨p, name, -, hpath⟩
  · rw [hqueue] at htold
    cases htold with
    | dir _ _ hmem => cases hmem
    | made _ hfile _ hend => exact ⟨hfile, hend.resolve_right List.not_mem_nil⟩
    | create _ _ heq _ => exact absurd heq.symm (List.append_ne_nil_of_right_ne_nil _
        (List.cons_ne_nil _ _))
  · rw [hserver] at hbrings
    obtain ⟨c, hc, -⟩ := hbrings
    rw [hcalls] at hc
    cases hc
  · cases hpath

theorem Growth.AtRest.settled (hrest : s.AtRest) {rel : Path}
    (hdir : s.tree.IsDir (root.path ++ rel)) (hshown : ∀ name ∈ rel, ¬ hiddenName name) :
    (s.view root wanted []).Settled (Within root) root.path (root.path ++ rel) := by
  induction rel using List.reverseRecOn with
  | nil =>
      rw [List.append_nil]
      exact .refl
  | append_singleton rel name ih =>
      have hvisible : Visible root.path (root.path ++ (rel ++ [name])) :=
        visible_iff.mpr ⟨_, rfl, hshown⟩
      have habove : ∀ n ∈ rel, ¬ hiddenName n := fun n hn =>
        hshown n (List.mem_append_left _ hn)
      rw [← List.append_assoc] at hdir hvisible ⊢
      refine (ih (s.wf.isDir_parent hdir) habove).tail ⟨⟨hvisible, .inl hdir⟩,
        ⟨visible_iff.mpr ⟨rel, rfl, habove⟩, name, rfl⟩, fun hdue => ?_⟩
      exact s.wf.disjoint _ (hrest.due hdue).1 hdir

/-- At rest every visible directory has its watch. -/
theorem Accounts.watched (h : Accounts root wanted [] s) (hrest : s.AtRest) {d : Path × Nat}
    (hd : d ∈ s.tree.dirs) (hvisible : Visible root.path d.1) :
    (d.2 : Int) ∈ s.inoti.kernel ∧ ⟨text d.1, d.2⟩ ∈ s.inoti.watches := by
  obtain ⟨-, scanner, hserver, -⟩ := id hrest
  obtain ⟨rel, hrel, hshown⟩ := visible_iff.mp hvisible
  have hdir : s.tree.IsDir (root.path ++ rel) := ⟨d.2, by rw [← hrel]; exact hd⟩
  have hfollowed := h.covers.followed (h.rootFollowed_of_running hserver)
    (hrest.settled hdir hshown)
  rw [← hrel] at hfollowed
  have hwatch := s.followed_dir hd hfollowed
  exact ⟨(h.sound.tables.mem_kernel s.wf hd).mpr hwatch, hwatch⟩

/-- And every file that is asked for has its item, if nobody is writing it. -/
theorem Accounts.stored (h : Accounts root wanted [] s) (hrest : s.AtRest) {q : Path}
    (hq : q ∈ s.tree.files) (hvisible : Visible root.path q) (hwanted : wanted q)
    (hwriting : q ∉ s.writing) : text q ∈ s.inoti.db := by
  obtain ⟨rel, rfl, hshown⟩ := visible_iff.mp hvisible
  rcases List.eq_nil_or_concat rel with rfl | ⟨rel, name, rfl⟩
  · rw [List.append_nil] at hq
    exact absurd h.rootDir (s.wf.disjoint _ hq)
  · rw [List.concat_eq_append, ← List.append_assoc] at hq hvisible hwanted hwriting ⊢
    rw [List.concat_eq_append] at hshown
    have hparent : Visible root.path (root.path ++ rel) :=
      visible_iff.mpr ⟨rel, rfl, fun n hn => hshown n (List.mem_append_left _ hn)⟩
    obtain ⟨id, hmem⟩ := s.wf.isDir_of_has (.inr hq)
    have hknown := h.covers (root.path ++ rel) _ (.inl ⟨id, hmem, (h.watched hrest hmem hparent).2⟩)
      ⟨hvisible, .inr ⟨hq, hwanted⟩⟩ ⟨hparent, name, rfl⟩
    rcases hknown with (⟨id', hdir, -⟩ | ⟨-, hitem⟩) | hdue
    · exact absurd ⟨id', hdir⟩ (s.wf.disjoint _ hq)
    · exact hitem
    · exact absurd (hrest.due hdue).2 hwriting

/-- Directories and files are made at any time while `main` and the thread go on. If none
comes into a directory between its `opendir` and its watch, and the thread can read their
names and hold their paths, then whenever it waits for events every visible directory has
its watch, and every file that has been made since `main` has gone through the storage, and
is not being written, has its item. -/
theorem growth_followed (root : Root) {start middle s : Growth} {before since : List Growing}
    (hstart : start.Starts root) (hwalk : Run.exec Growth.step start before = some middle)
    (hcaught : Run.EachStep Growth.step (Catches root) start before)
    (hrunning : ∃ scanner, middle.server = .running scanner)
    (hrun : Run.exec Growth.step middle since = some s)
    (hcaught' : Run.EachStep Growth.step (Catches root) middle since) (hrest : s.AtRest) :
    (∀ d ∈ s.tree.dirs, Visible root.path d.1 →
      (d.2 : Int) ∈ s.inoti.kernel ∧ ⟨text d.1, d.2⟩ ∈ s.inoti.watches) ∧
    ∀ q ∈ s.tree.files, Visible root.path q → q ∉ middle.tree.files → q ∉ s.writing →
      text q ∈ s.inoti.db := by
  obtain ⟨ahead, hmiddle⟩ := hstart.accounts.exec hcaught hwalk
  obtain ⟨scanner, hserver⟩ := hrunning
  obtain ⟨ahead', hend⟩ := (hmiddle.since hserver).exec hcaught' hrun
  obtain rfl : ahead' = [] := by
    obtain ⟨-, scanner', hserver', -⟩ := id hrest
    have hstage := hend.stage
    rw [hserver'] at hstage
    exact hstage.1
  exact ⟨fun d hd hvisible => hend.watched hrest hd hvisible,
    fun q hq hvisible hnew hwriting => hend.stored hrest hq hvisible hnew hwriting⟩

/-- The internal storage holds one directory when the server starts. -/
def booting : Growth where
  tree :=
    { dirs := [([], 1), (["opt".toList], 2), (media.path, 3),
        (media.path ++ ["a".toList], 4)]
      files := []
      nextId := 5 }
  server := .walking (rootWalker (text media.path) {}) .start
  wf :=
    { dirsNodup := by decide, idsNodup := by decide, ids := by decide, disjoint := by decide,
      dirNames := by decide, fileNames := by decide, dirParent := by decide,
      fileParent := by decide }
  written := fun _ h => absurd h List.not_mem_nil

theorem booting_starts : booting.Starts media where
  sound :=
    { tables :=
        { running := rfl
          names := List.forall_mem_nil _
          kernel := fun wd => by simp [booting, Growth.inoti, Party.inoti, rootWalker] }
      queue := List.forall_mem_nil _ }
  rootDir := by decide
  fits p _ hdir := by
    obtain ⟨id, hmem⟩ := hdir
    have hall : ∀ d ∈ booting.tree.dirs, Fits d.1 := by decide
    exact hall _ hmem
  server := ⟨_, rfl⟩
  unwatched := fun _ _ _ => List.not_mem_nil

/-- A directory is made behind the back of `main`. -/
def bootingRun : List Growing :=
  [.server none, .server none, .mkdir ⟨media.path, "b".toList⟩,
    .server (some ⟨"a".toList, dtDir⟩), .server none, .server none, .server none, .server none]

/-- A file is made there before the thread opens it. -/
def threadRun : List Growing :=
  [.server none, .create ⟨media.path ++ ["b".toList], "f".toList⟩, .server none,
    .server none, .server (some ⟨"f".toList, dtReg⟩), .server none,
    .close ⟨media.path ++ ["b".toList], "f".toList⟩, .server none]

theorem growth_followed_busy :
    ∃ middle s, Run.exec Growth.step booting bootingRun = some middle ∧
      Run.exec Growth.step middle threadRun = some s ∧
      (∀ d ∈ s.tree.dirs, Visible media.path d.1 →
        (d.2 : Int) ∈ s.inoti.kernel ∧ ⟨text d.1, d.2⟩ ∈ s.inoti.watches) ∧
      ∀ q ∈ s.tree.files, Visible media.path q → q ∉ middle.tree.files → q ∉ s.writing →
        text q ∈ s.inoti.db := by
  have hcaught : Run.EachStep Growth.step (Catches media) booting bootingRun := by decide
  have hcaught' : ∀ middle ∈ Run.exec Growth.step booting bootingRun,
      Run.EachStep Growth.step (Catches media) middle threadRun := by decide
  exact ⟨_, _, rfl, rfl, growth_followed media booting_starts rfl hcaught ⟨_, rfl⟩ rfl
    (hcaught' _ rfl) ⟨rfl, _, rfl, rfl⟩⟩

end Runs

end MediaServer.Inotify
