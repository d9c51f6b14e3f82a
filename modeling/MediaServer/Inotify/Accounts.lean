import MediaServer.Inotify.Growth

/-!
# What the server knows of, and what it will come across

A visible item that lies in a followed directory is followed too, or it is due: an event
tells of it, an activation or a stream will bring it up, or its directory is still ahead of
the walk of `main`. A directory is followed when it has its watch, a file when it has its
item.

The kernel's queue is taken to hold all events; it does not overflow.
-/

namespace MediaServer.Inotify

open Scan Discovery

def mkdirEvent (id : Nat) (name : Text) : Event := nameEvent id (inIsDir ||| inCreate) 0 name
def madeEvent (id : Nat) (name : Text) : Event := nameEvent id inCreate 0 name
def closedEvent (id : Nat) (name : Text) : Event := nameEvent id inCloseWrite 0 name

/-! ### Followed and due -/

/-- The visible directories, and the files that are asked for. -/
def Present (root : Root) (wanted : Path → Prop) (t : Tree) : Set Path :=
  {x | Visible root.path x ∧ (t.IsDir x ∨ x ∈ t.files ∧ wanted x)}

def Followed (t : Tree) (i : Inoti) : Set Path :=
  {x | (∃ id, (x, id) ∈ t.dirs ∧ ⟨text x, id⟩ ∈ i.watches) ∨ x ∈ t.files ∧ text x ∈ i.db}

/-- The file in the directory with this number has been created, and its end of writing is
told of in the queue, or still to come. -/
def Ends (writing : List Path) (queue : List Event) (x : Path) (id : Nat) (name : Text) : Prop :=
  x ∈ writing ∨ closedEvent id name ∈ queue

/-- Events tell of the item. -/
inductive Told (t : Tree) (writing : List Path) (queue : List Event)
    (createFiles : List (Int × Text)) : Path → Prop where
  | dir {p : Path} {id : Nat} {name : Text} : (p, id) ∈ t.dirs → t.IsDir (p ++ [name]) →
      mkdirEvent id name ∈ queue → Told t writing queue createFiles (p ++ [name])
  /-- The thread has its creation in the list. -/
  | made {p : Path} {id : Nat} {name : Text} : (p, id) ∈ t.dirs → p ++ [name] ∈ t.files →
      ((id : Int), name) ∈ createFiles → Ends writing queue (p ++ [name]) id name →
      Told t writing queue createFiles (p ++ [name])
  | create {p : Path} {id : Nat} {name : Text} {front back : List Event} :
      (p, id) ∈ t.dirs → p ++ [name] ∈ t.files →
      queue = front ++ madeEvent id name :: back →
      Ends writing back (p ++ [name]) id name →
      Told t writing queue createFiles (p ++ [name])

/-- The stream is still to return the item. -/
def Dir.Owes (dp : Dir) (x : Path) : Prop :=
  ∃ p, ∃ e ∈ dp.opened, x = p ++ [e.name] ∧ dp.path = text p ∧ e ∉ dp.returned

def Visiting.Brings (t : Tree) (x : Path) : Visiting → Prop
  | .entered dirPath | .opened dirPath _ => t.IsDir x ∧ dirPath = text x
  | .reading dp => dp.Owes x

def Standing.Brings (t : Tree) (x : Path) : Standing → Prop
  | .start | .before _ => False
  | .reading dp => dp.Owes x
  | .entry dp e => dp.Owes x ∨ t.IsDir x ∧ dp.path ++ '/' :: e.name = text x

/-- `main` or the thread will come across the item. -/
def Party.Brings (t : Tree) (x : Path) : Party → Prop
  | .walking _ standing => standing.Brings t x
  | .running scanner => ∃ call ∈ scanner.calls, call.Brings t x

/-- The item lies in a directory that is still to be opened. -/
def Ahead (ahead : List Text) (x : Path) : Prop := ∃ p name, x = p ++ [name] ∧ text p ∈ ahead

/-- What lies in a visible directory. -/
def Within (root : Root) (p x : Path) : Prop :=
  Visible root.path p ∧ ∃ name, x = p ++ [name]

/-- The watch list says which directories are watched, and under which paths. -/
structure Accurate (t : Tree) (i : Inoti) : Prop where
  running : i.stopped = false
  names : ∀ node ∈ i.watches, ∃ d ∈ t.dirs, node = ⟨text d.1, d.2⟩
  kernel : ∀ wd, wd ∈ i.kernel ↔ ∃ node ∈ i.watches, node.wd = wd

namespace Growth

def view (root : Root) (wanted : Path → Prop) (ahead : List Text) (s : Growth) : View Path where
  present := Present root wanted s.tree
  followed := Followed s.tree s.inoti
  due := {x | Told s.tree s.writing s.queue s.inoti.createFiles x ∨ s.server.Brings s.tree x ∨
    Ahead ahead x}

/-- The thread runs, and the queue holds events of what has a watch. -/
structure Sound (root : Root) (s : Growth) : Prop where
  tables : Accurate s.tree s.inoti
  queue : ∀ e ∈ s.queue, ∃ d ∈ s.tree.dirs, ∃ name,
    (e = mkdirEvent d.2 name ∨ e = madeEvent d.2 name ∨ e = closedEvent d.2 name) ∧
      ⟨text d.1, d.2⟩ ∈ s.inoti.watches ∧ name ≠ powerOffName ∧ Sys.Heard root ⟨d.1, name⟩

end Growth

section Tables

variable {root : Root} {t : Tree} {i : Inoti} {p : Path} {id : Nat}

theorem inotifyAddWatch_pos {path : Text} (h : 0 < t.world.inotifyAddWatch path) :
    ∃ d ∈ t.dirs, text d.1 = path ∧ t.world.inotifyAddWatch path = d.2 := by
  simp only [Tree.world] at h ⊢
  cases hdir : t.dirAt path with
  | none =>
      rw [hdir] at h
      exact absurd h (by decide)
  | some d =>
      refine ⟨d, List.mem_of_find?_eq_some hdir, ?_, rfl⟩
      simpa only [decide_eq_true_eq] using List.find?_some hdir

theorem opendir_eq {path : Text} {entries : List Dirent}
    (h : t.world.fs.opendir path = some entries) :
    ∃ p, t.IsDir p ∧ path = text p ∧ entries = t.children p := by
  rw [FileSystem.opendir] at h
  split at h
  next hopens =>
    obtain ⟨d, hdir⟩ : ∃ d, t.dirAt path = some d := Option.isSome_iff_exists.mp hopens
    refine ⟨d.1, ⟨d.2, List.mem_of_find?_eq_some hdir⟩, ?_, ?_⟩
    · have htext := List.find?_some hdir
      rw [decide_eq_true_eq] at htext
      exact htext.symm
    · simpa only [Tree.world, hdir, Option.map_some, Option.getD_some, Option.some.injEq, eq_comm]
        using h
  next => cases h

theorem entries_text (wf : t.Wf) (hdir : t.IsDir p) :
    t.world.fs.entries (text p) = t.children p := by
  obtain ⟨id, hmem⟩ := hdir
  simp only [Tree.world, wf.dirAt_text hmem, Option.map_some, Option.getD_some]

namespace Accurate

theorem grow (h : Accurate t i) {t' : Tree} (hdirs : ∀ d ∈ t.dirs, d ∈ t'.dirs) :
    Accurate t' i where
  running := h.running
  names node hnode := by
    obtain ⟨d, hd, rfl⟩ := h.names node hnode
    exact ⟨d, hdirs d hd, rfl⟩
  kernel := h.kernel

theorem of_sameTable (h : Accurate t i) {i' : Inoti} (hsame : SameTable i i') :
    Accurate t i' := by
  obtain ⟨hwatches, hkernel, hstopped⟩ := hsame
  exact
    { running := hstopped.trans h.running
      names := by rw [hwatches]; exact h.names
      kernel := by rw [hwatches, hkernel]; exact h.kernel }

theorem watch_eq (h : Accurate t i) (wf : t.Wf) (hmem : (p, id) ∈ t.dirs) {node : Watch}
    (hnode : node ∈ i.watches) (hname : node.name = text p) : node = ⟨text p, id⟩ := by
  obtain ⟨d, hd, rfl⟩ := h.names node hnode
  obtain rfl : d.1 = p := wf.text_eq (.inl ⟨d.2, hd⟩) (.inl ⟨id, hmem⟩) hname
  rw [wf.id_unique hmem hd]

theorem mem_kernel (h : Accurate t i) (wf : t.Wf) (hmem : (p, id) ∈ t.dirs) :
    (id : Int) ∈ i.kernel ↔ ⟨text p, id⟩ ∈ i.watches := by
  rw [h.kernel]
  constructor
  · rintro ⟨node, hnode, hwd⟩
    obtain ⟨d, hd, rfl⟩ := h.names node hnode
    have hid : d.2 = id := Int.ofNat_inj.mp hwd
    have hd : (d.1, id) ∈ t.dirs := hid ▸ hd
    rwa [wf.path_unique hmem hd, ← hid]
  · exact fun hnode => ⟨_, hnode, rfl⟩

/-- A watch that is added is that of the directory at the path, and no other one goes. -/
theorem addWatch (h : Accurate t i) (path : Text) : Accurate t (i.addWatch t.world path) := by
  rw [Inoti.addWatch]
  split
  · exact h
  · simp only
    split
    next hpos =>
      obtain ⟨d, hd, rfl, hwd⟩ := inotifyAddWatch_pos hpos
      refine ⟨h.running, fun node hnode => ?_, fun wd => ?_⟩
      · cases List.mem_append.mp hnode with
        | inl hnode => exact h.names node hnode
        | inr hnode =>
            refine ⟨d, hd, ?_⟩
            rw [List.mem_singleton.mp hnode, hwd]
      · rw [mem_addKernel, h.kernel]
        simp only [List.mem_append, List.mem_singleton, or_and_right, exists_or, exists_eq_left]
    next => exact h

theorem getFullPath (h : Accurate t i) (wf : t.Wf) (hmem : (p, id) ∈ t.dirs)
    (hwatch : ⟨text p, id⟩ ∈ i.watches) (name : Text) :
    i.getFullPath id name = msStrappend (text p) name := by
  obtain ⟨node, hnode, hwd, hfind⟩ := findNode_of_mem ⟨_, hwatch, rfl⟩
  obtain ⟨d, hd, rfl⟩ := h.names node hnode
  have hid : d.2 = id := Int.ofNat_inj.mp hwd
  have hd : (d.1, id) ∈ t.dirs := hid ▸ hd
  rw [Inoti.getFullPath, hfind, Option.bind_some, wf.path_unique hd hmem]

end Accurate

theorem mem_addWatch {w : World} {path : Text} {node : Watch} (hnode : node ∈ i.watches) :
    node ∈ (i.addWatch w path).watches := by
  rw [Inoti.addWatch]
  split
  · exact hnode
  · simp only
    split
    · exact List.mem_append_left _ hnode
    · exact hnode

/-- The directory at the path is watched then. -/
theorem watched_addWatch (h : Accurate t i) (wf : t.Wf) (hmem : (p, id) ∈ t.dirs) :
    ⟨text p, id⟩ ∈ (i.addWatch t.world (text p)).watches := by
  by_cases hfound : ∃ node ∈ i.watches, node.name = text p
  · rw [addWatch_of_mem hfound]
    obtain ⟨node, hnode, hname⟩ := hfound
    rwa [← h.watch_eq wf hmem hnode hname]
  · have hpos : (0 : Int) < id := Int.natCast_pos.mpr (wf.ids _ hmem).1
    rw [addWatch_of_absent (fun node hnode hname => hfound ⟨node, hnode, hname⟩)
      (wf.inotifyAddWatch_text hmem) hpos]
    exact List.mem_append_right _ (List.mem_singleton_self _)

theorem mem_of_mem_addWatch {w : World} {path : Text} {node : Watch}
    (hnode : node ∈ (i.addWatch w path).watches) : node ∈ i.watches ∨ node.name = path := by
  rw [Inoti.addWatch] at hnode
  split at hnode
  · exact .inl hnode
  · simp only at hnode
    split at hnode
    · cases List.mem_append.mp hnode with
      | inl hnode => exact .inl hnode
      | inr hnode => exact .inr (congrArg Watch.name (List.mem_singleton.mp hnode))
    · exact .inl hnode

end Tables

section Growing

variable {root : Root} {wanted : Path → Prop} {t t' : Tree} {x p : Path} {name : Text} {id : Nat}
variable {writing writing' : List Path} {queue new : List Event} {files : List (Int × Text)}

theorem Ends.grow (h : Ends writing queue x id name)
    (hends : x ∈ writing → Ends writing' new x id name) :
    Ends writing' (queue ++ new) x id name := by
  cases h with
  | inl hwriting => exact (hends hwriting).imp_right (List.mem_append_right _)
  | inr hqueue => exact .inr (List.mem_append_left _ hqueue)

/-- Events that come in behind the others tell of no less. -/
theorem Told.grow (h : Told t writing queue files x) (hdirs : ∀ d ∈ t.dirs, d ∈ t'.dirs)
    (hfiles : ∀ q ∈ t.files, q ∈ t'.files)
    (hends : ∀ p id name, x = p ++ [name] → (p, id) ∈ t.dirs → x ∈ writing →
      Ends writing' new x id name) :
    Told t' writing' (queue ++ new) files x := by
  cases h with
  | dir hmem hdir hqueue =>
      obtain ⟨id', hdir⟩ := hdir
      exact .dir (hdirs _ hmem) ⟨id', hdirs _ hdir⟩ (List.mem_append_left _ hqueue)
  | made hmem hfile hmade hend =>
      exact .made (hdirs _ hmem) (hfiles _ hfile) hmade (hend.grow (hends _ _ _ rfl hmem))
  | @create p id name front back hmem hfile hqueue hend =>
      have hqueue : queue ++ new = front ++ madeEvent id name :: (back ++ new) := by
        rw [hqueue, List.append_assoc, List.cons_append]
      exact .create (hdirs _ hmem) (hfiles _ hfile) hqueue (hend.grow (hends _ _ _ rfl hmem))

theorem Visiting.Brings.grow {call : Visiting} (h : call.Brings t x)
    (hdirs : ∀ d ∈ t.dirs, d ∈ t'.dirs) : call.Brings t' x := by
  cases call with
  | entered dirPath =>
      obtain ⟨⟨id, hmem⟩, hpath⟩ := h
      exact ⟨⟨id, hdirs _ hmem⟩, hpath⟩
  | opened dirPath entries =>
      obtain ⟨⟨id, hmem⟩, hpath⟩ := h
      exact ⟨⟨id, hdirs _ hmem⟩, hpath⟩
  | reading dp => exact h

theorem Standing.Brings.grow {standing : Standing} (h : standing.Brings t x)
    (hdirs : ∀ d ∈ t.dirs, d ∈ t'.dirs) : standing.Brings t' x := by
  cases standing with
  | start => exact h
  | before path => exact h
  | reading dp => exact h
  | entry dp e =>
      refine Or.imp_right (fun hentry => ?_) h
      obtain ⟨⟨id, hmem⟩, hpath⟩ := hentry
      exact ⟨⟨id, hdirs _ hmem⟩, hpath⟩

theorem Party.Brings.grow {server : Party} (h : server.Brings t x)
    (hdirs : ∀ d ∈ t.dirs, d ∈ t'.dirs) : server.Brings t' x := by
  cases server with
  | walking walker standing => exact Standing.Brings.grow h hdirs
  | running scanner =>
      obtain ⟨call, hcall, hbrings⟩ := h
      exact ⟨call, hcall, hbrings.grow hdirs⟩

end Growing

/-! ### The invariant -/

/-- The paths of the right brothers of the nodes down to the current one. -/
def todo (root : Text) : List Frame → List Text
  | [] => []
  | ⟨_, rbrothers⟩ :: up =>
      rbrothers.map (fun k => joinNames (names root up) ++ '/' :: k) ++ todo root up

/-- The paths are those of visible directories that have their watch. -/
def Reached (root : Root) (t : Tree) (i : Inoti) (paths : List Text) : Prop :=
  ∀ path ∈ paths, ∃ p id, path = text p ∧ Visible root.path p ∧ (p, id) ∈ t.dirs ∧
    ⟨text p, id⟩ ∈ i.watches

/-- The walk reads the directory at the path, and these directories are ahead of it. -/
structure InDir (root : Root) (t : Tree) (walker : Walker Inoti) (path : Text)
    (ahead : List Text) : Prop where
  reached : Reached root t walker.recorded (path :: ahead)
  reading : ∃ nodes a frames kids, Scan.Reading (text root.path) nodes a frames kids walker ∧
    msGetFullPathFromNode (names (text root.path) frames) = some path ∧
    ahead = kids.map (fun k => path ++ '/' :: k) ++ todo (text root.path) frames

/-- Where the walk stands, and what is ahead of it. -/
def Walking (root : Root) (t : Tree) (walker : Walker Inoti) : Standing → List Text → Prop
  | .start, ahead => ahead = [] ∧ Stands (text root.path) [] walker
  | .before path, ahead => Reached root t walker.recorded ahead ∧
      ∃ frames, Stands (text root.path) frames walker ∧
        msGetFullPathFromNode (names (text root.path) frames) = some path ∧
        ahead = path :: todo (text root.path) frames
  | .reading dp, ahead => InDir root t walker dp.path ahead
  | .entry dp e, ahead => InDir root t walker dp.path ahead ∧ ¬ e.hidden ∧
      e ∈ t.world.fs.entries dp.path

/-- The stream has been opened with all that is in the directory. -/
def Exhaustive (present : Set Path) (dirPath : Text) (entries : List Dirent) : Prop :=
  ∀ p name, dirPath = text p → p ++ [name] ∈ present → ∃ e ∈ entries, e.name = name

def Stage (root : Root) (wanted : Path → Prop) (t : Tree) : Party → List Text → Prop
  | .walking walker standing, ahead => (∀ q, ¬ wanted q) ∧ Walking root t walker standing ahead
  | .running scanner, ahead => ahead = [] ∧
      ∀ dirPath entries, .opened dirPath entries ∈ scanner.calls →
        Exhaustive (Present root wanted t) dirPath entries

/-- Nothing that is present is overlooked. -/
structure Accounts (root : Root) (wanted : Path → Prop) (ahead : List Text) (s : Growth) :
    Prop where
  sound : s.Sound root
  rootDir : s.tree.IsDir root.path
  fits : ∀ x ∈ Present root wanted s.tree, Fits x
  covers : (s.view root wanted ahead).Covers (Within root)
  rootFollowed : (∃ walker, s.server = .walking walker .start) ∨
    root.path ∈ Followed s.tree s.inoti
  stage : Stage root wanted s.tree s.server ahead

/-- The directory has been opened, and its watch has not been added. -/
def Visiting.Opens (path : Text) : Visiting → Prop
  | .opened dirPath _ => dirPath = path
  | .entered _ | .reading _ => False

instance (path : Text) : DecidablePred (Visiting.Opens path)
  | .opened dirPath _ => inferInstanceAs (Decidable (dirPath = path))
  | .entered _ | .reading _ => inferInstanceAs (Decidable False)

def Party.Opened (path : Text) : Party → Prop
  | .walking _ _ => False
  | .running scanner => ∃ call ∈ scanner.calls, call.Opens path

instance (path : Text) : DecidablePred (Party.Opened path)
  | .walking _ _ => inferInstanceAs (Decidable False)
  | .running scanner => inferInstanceAs (Decidable (∃ call ∈ scanner.calls, call.Opens path))

/-- What is made is none of the signals, has a path that the server can hold, and does not
come into a directory between `opendir` and the watch. -/
def Catches (root : Root) (s : Growth) : Growing → Prop
  | .mkdir place | .create place =>
      place.name ≠ powerOffName ∧ Sys.Heard root place ∧ ¬ s.server.Opened (text place.dir)
  | .close place => place.name ≠ powerOffName ∧ Sys.Heard root place
  | .open _ | .server _ => True

instance (root : Root) (s : Growth) : DecidablePred (Catches root s)
  | .mkdir place | .create place =>
      inferInstanceAs (Decidable (place.name ≠ powerOffName ∧ Sys.Heard root place ∧
        ¬ s.server.Opened (text place.dir)))
  | .close place =>
      inferInstanceAs (Decidable (place.name ≠ powerOffName ∧ Sys.Heard root place))
  | .open _ | .server _ => inferInstanceAs (Decidable True)

section Environment

variable {root : Root} {wanted : Path → Prop} {ahead : List Text} {s s' : Growth} {place : Place}
variable {x p : Path}

theorem Within.parent {name : Text} (h : Within root p (place.dir ++ [name])) :
    p = place.dir := by
  obtain ⟨-, name', heq⟩ := h
  exact (List.append_inj_left' heq rfl).symm

/-- A directory is followed by its watch. -/
theorem Growth.followed_dir {id : Nat} (hmem : (p, id) ∈ s.tree.dirs)
    (hp : p ∈ Followed s.tree s.inoti) : ⟨text p, id⟩ ∈ s.inoti.watches := by
  rcases hp with ⟨id', hmem', hwatch⟩ | ⟨hfile, -⟩
  · rwa [← s.wf.id_unique hmem' hmem]
  · exact absurd ⟨id, hmem⟩ (s.wf.disjoint p hfile)

/-- The events of an operation in a directory with a watch. -/
theorem Growth.Sound.notify (h : s.Sound root) (mask : Nat) {id : Nat}
    (hmem : (place.dir, id) ∈ s.tree.dirs) (hp : place.dir ∈ Followed s.tree s.inoti) :
    nameEvent id mask 0 place.name ∈ s.sys.notify place mask 0 :=
  Sys.mem_notify.mpr ⟨id, hmem, (h.tables.mem_kernel s.wf hmem).mpr (s.followed_dir hmem hp), rfl⟩

theorem Growth.Sound.grow (h : s.Sound root) (hserver : s'.server = s.server)
    (hdirs : ∀ d ∈ s.tree.dirs, d ∈ s'.tree.dirs) {mask : Nat}
    (hqueue : ∀ e ∈ s'.queue, e ∈ s.queue ∨ e ∈ s.sys.notify place mask 0)
    (hmask : ∀ id, nameEvent id mask 0 place.name = mkdirEvent id place.name ∨
      nameEvent id mask 0 place.name = madeEvent id place.name ∨
      nameEvent id mask 0 place.name = closedEvent id place.name)
    (hname : place.name ≠ powerOffName) (hheard : Sys.Heard root place) : s'.Sound root := by
  have hinoti : s'.inoti = s.inoti := congrArg Party.inoti hserver
  refine ⟨?_, fun e he => ?_⟩
  · rw [hinoti]
    exact h.tables.grow hdirs
  · rw [hinoti]
    cases hqueue e he with
    | inl he =>
        obtain ⟨d, hd, hrest⟩ := h.queue e he
        exact ⟨d, hdirs d hd, hrest⟩
    | inr he =>
        obtain ⟨id, hmem, hkernel, rfl⟩ := Sys.mem_notify.mp he
        exact ⟨(place.dir, id), hdirs _ hmem, place.name, hmask id,
          (h.tables.mem_kernel s.wf hmem).mp hkernel, hname, hheard⟩

/-- The tree with one more item. -/
structure Adds (t t' : Tree) (q : Path) : Prop where
  dirs : ∀ d ∈ t.dirs, d ∈ t'.dirs
  files : ∀ q ∈ t.files, q ∈ t'.files
  dirs_new : ∀ d ∈ t'.dirs, d ∈ t.dirs ∨ d.1 = q
  files_new : ∀ p ∈ t'.files, p ∈ t.files ∨ p = q
  free : ¬ t.Has q

namespace Adds

variable {t t' : Tree} {q : Path} {i : Inoti}

theorem isDir (h : Adds t t' q) (hdir : t.IsDir p) : t'.IsDir p := by
  obtain ⟨id, hmem⟩ := hdir
  exact ⟨id, h.dirs _ hmem⟩

theorem has_new (h : Adds t t' q) (hhas : t'.Has p) : t.Has p ∨ p = q := by
  rcases hhas with ⟨id, hmem⟩ | hfile
  · exact (h.dirs_new _ hmem).imp_left fun hmem => .inl ⟨id, hmem⟩
  · exact (h.files_new p hfile).imp_left .inr

theorem present_new (h : Adds t t' q) (hx : x ∈ Present root wanted t') :
    x ∈ Present root wanted t ∨ x = q := by
  rcases hx with ⟨hvisible, ⟨id, hmem⟩ | ⟨hfile, hwanted⟩⟩
  · exact (h.dirs_new _ hmem).imp_left fun hmem => ⟨hvisible, .inl ⟨id, hmem⟩⟩
  · exact (h.files_new x hfile).imp_left fun hfile => ⟨hvisible, .inr ⟨hfile, hwanted⟩⟩

theorem followed (h : Adds t t' q) (hp : p ∈ Followed t i) : p ∈ Followed t' i := by
  rcases hp with ⟨id, hmem, hwatch⟩ | ⟨hfile, hdb⟩
  · exact .inl ⟨id, h.dirs _ hmem, hwatch⟩
  · exact .inr ⟨h.files p hfile, hdb⟩

theorem followed_new (h : Adds t t' q) (hp : p ∈ Followed t' i) : p ∈ Followed t i ∨ p = q := by
  rcases hp with ⟨id, hmem, hwatch⟩ | ⟨hfile, hdb⟩
  · exact (h.dirs_new _ hmem).imp_left fun hmem => .inl ⟨id, hmem, hwatch⟩
  · exact (h.files_new p hfile).imp_left fun hfile => .inr ⟨hfile, hdb⟩

/-- Nothing lies in a new item. -/
theorem empty (h : Adds t t' q) (wf : t.Wf) (name : Text) : ¬ t'.Has (q ++ [name]) := by
  intro hhas
  cases h.has_new hhas with
  | inl hhas => exact h.free (.inl (wf.isDir_of_has hhas))
  | inr heq => exact absurd heq (by simp)

theorem children (h : Adds t t' q) {e : Dirent} (he : e ∈ t.children p) : e ∈ t'.children p := by
  rw [Tree.mem_children] at he ⊢
  exact he.imp (.imp_left h.isDir) (.imp_left (h.files _))

theorem reached (h : Adds t t' q) {paths : List Text} (hreached : Reached root t i paths) :
    Reached root t' i paths := by
  intro path hpath
  obtain ⟨p, id, htext, hvisible, hmem, hwatch⟩ := hreached path hpath
  exact ⟨p, id, htext, hvisible, h.dirs _ hmem, hwatch⟩

theorem inDir (h : Adds t t' q) {walker : Walker Inoti} {path : Text}
    (hdir : InDir root t walker path ahead) : InDir root t' walker path ahead :=
  ⟨h.reached hdir.reached, hdir.reading⟩

theorem walking (h : Adds t t' q) (wf : t.Wf) (wf' : t'.Wf) {walker : Walker Inoti}
    {standing : Standing} (hwalking : Walking root t walker standing ahead) :
    Walking root t' walker standing ahead := by
  cases standing with
  | start => exact hwalking
  | before path => exact hwalking.imp_left h.reached
  | reading dp => exact h.inDir hwalking
  | entry dp e =>
      obtain ⟨hdir, hhidden, he⟩ := hwalking
      obtain ⟨p, id, hpath, -, hmem, -⟩ := hdir.reached _ List.mem_cons_self
      refine ⟨h.inDir hdir, hhidden, ?_⟩
      rw [hpath, entries_text wf' ⟨id, h.dirs _ hmem⟩]
      rw [hpath, entries_text wf ⟨id, hmem⟩] at he
      exact h.children he

end Adds

/-- Something is made in a directory, and an event tells of it if the directory is
followed. -/
theorem Accounts.added (h : Accounts root wanted ahead s) (hserver : s'.server = s.server)
    (hadds : Adds s.tree s'.tree place.path) (hsound : s'.Sound root)
    (hqueue : ∃ new, s'.queue = s.queue ++ new) (hwriting : ∀ x ∈ s.writing, x ∈ s'.writing)
    (hheard : Sys.Heard root place) (hopened : ¬ s.server.Opened (text place.dir))
    (htold : place.dir ∈ Followed s.tree s.inoti → place.path ∈ Present root wanted s'.tree →
      Told s'.tree s'.writing s'.queue s'.inoti.createFiles place.path) :
    Accounts root wanted ahead s' := by
  have hinoti : s'.inoti = s.inoti := congrArg Party.inoti hserver
  obtain ⟨new, hqueue⟩ := hqueue
  refine
    { sound := hsound, rootDir := hadds.isDir h.rootDir, fits := ?_, covers := ?_,
      rootFollowed := ?_, stage := ?_ }
  · intro x hx
    cases hadds.present_new hx with
    | inl hx => exact h.fits x hx
    | inr heq => exact heq ▸ (hheard (heq ▸ hx.1)).2
  · refine h.covers.step ?_ ?_ ?_
    · rintro p x - - - (hfollowed | htold | hbrings | hahead)
      · exact .inl (by rw [Growth.view, hinoti]; exact hadds.followed hfollowed)
      · refine .inr (.inl ?_)
        rw [hinoti, hqueue]
        exact htold.grow hadds.dirs hadds.files fun _ _ _ _ _ hx => .inl (hwriting _ hx)
      · exact .inr (.inr (.inl (hserver ▸ hbrings.grow hadds.dirs)))
      · exact .inr (.inr (.inr hahead))
    · intro p x hp hx hnew hwithin
      obtain rfl := (hadds.present_new hx).resolve_left hnew
      obtain rfl := hwithin.parent
      exact .inr (.inl (htold hp hx))
    · rintro p x hp hnew hx ⟨-, name, rfl⟩
      rw [Growth.view, hinoti] at hp
      obtain rfl := (hadds.followed_new hp).resolve_left hnew
      exact absurd (hx.2.imp_right And.left) (hadds.empty s.wf name)
  · rw [hserver, hinoti]
    exact h.rootFollowed.imp_right hadds.followed
  · have hstage := h.stage
    rw [hserver]
    cases hparty : s.server with
    | walking walker standing =>
        rw [hparty] at hstage
        exact hstage.imp_right (hadds.walking s.wf s'.wf)
    | running scanner =>
        rw [hparty] at hstage hopened
        refine hstage.imp_right fun hcalls dirPath entries hcall p name hpath hx => ?_
        cases hadds.present_new hx with
        | inl hx => exact hcalls dirPath entries hcall p name hpath hx
        | inr heq =>
            have hdir : p = place.dir := List.append_inj_left' heq rfl
            exact absurd ⟨_, hcall, hpath.trans (congrArg text hdir)⟩ hopened

/-- Nothing is made, and the events tell of no less. -/
theorem Accounts.kept (h : Accounts root wanted ahead s) (hserver : s'.server = s.server)
    (htree : s'.tree = s.tree) (hsound : s'.Sound root)
    (htold : ∀ p x, p ∈ Followed s.tree s.inoti → Within root p x →
      Told s.tree s.writing s.queue s.inoti.createFiles x →
      Told s.tree s'.writing s'.queue s.inoti.createFiles x) :
    Accounts root wanted ahead s' := by
  have hinoti : s'.inoti = s.inoti := congrArg Party.inoti hserver
  have hpresent : (s'.view root wanted ahead).present = (s.view root wanted ahead).present := by
    rw [Growth.view, htree]
    rfl
  have hfollowed : (s'.view root wanted ahead).followed =
      (s.view root wanted ahead).followed := by
    rw [Growth.view, htree, hinoti]
    rfl
  refine
    { sound := hsound, rootDir := htree ▸ h.rootDir, fits := htree ▸ h.fits, covers := ?_,
      rootFollowed := by rw [hserver, htree, hinoti]; exact h.rootFollowed
      stage := by rw [hserver, htree]; exact h.stage }
  refine h.covers.step ?_ ?_ ?_
  · intro p x hp _ hwithin hknown
    rw [View.Known, hfollowed]
    refine hknown.imp_right fun hdue => ?_
    show Told _ _ _ _ x ∨ Party.Brings _ x _ ∨ Ahead ahead x
    rw [htree, hinoti, hserver]
    exact hdue.imp_left (htold p x hp hwithin)
  · intro p x _ hx hnew _
    exact absurd (hpresent ▸ hx) hnew
  · intro p x hp hnew _ _
    exact absurd (hfollowed ▸ hp) hnew

theorem Accounts.mkdir (h : Accounts root wanted ahead s)
    (hcatch : Catches root s (.mkdir place)) (hstep : s.step (.mkdir place) = some s') :
    Accounts root wanted ahead s' := by
  obtain ⟨hname, hheard, hopened⟩ := hcatch
  rw [Growth.step] at hstep
  split at hstep
  next henabled =>
    obtain rfl := Option.some.inj hstep
    obtain ⟨⟨id, hmem⟩, -, hfree⟩ := id henabled
    have hadds : Adds s.tree (s.tree.addDir place.path) place.path :=
      { dirs := fun d hd => Tree.mem_addDir.mpr (.inl hd)
        files := fun q hq => hq
        dirs_new := fun d hd => (Tree.mem_addDir.mp hd).imp_right fun heq => by rw [heq]
        files_new := fun q hq => .inl hq
        free := hfree }
    refine h.added rfl hadds ?_ ⟨_, rfl⟩ (fun x hx => hx) hheard hopened fun hp _ => ?_
    · exact h.sound.grow rfl hadds.dirs (fun e he => List.mem_append.mp he)
        (fun id => .inl rfl) hname hheard
    · exact .dir (hadds.dirs _ hmem) ⟨_, Tree.mem_addDir.mpr (.inr rfl)⟩
        (List.mem_append_right _ (h.sound.notify _ hmem hp))
  next => cases hstep

theorem Accounts.create (h : Accounts root wanted ahead s)
    (hcatch : Catches root s (.create place)) (hstep : s.step (.create place) = some s') :
    Accounts root wanted ahead s' := by
  obtain ⟨hname, hheard, hopened⟩ := hcatch
  rw [Growth.step] at hstep
  split at hstep
  next henabled =>
    obtain rfl := Option.some.inj hstep
    obtain ⟨⟨id, hmem⟩, -, hfree⟩ := id henabled
    have hadds : Adds s.tree (s.tree.addFile place.path) place.path :=
      { dirs := fun d hd => by rwa [Tree.addFile_dirs]
        files := fun q hq => Tree.mem_addFile.mpr (.inl hq)
        dirs_new := fun d hd => .inl (by rwa [Tree.addFile_dirs] at hd)
        files_new := fun q hq => Tree.mem_addFile.mp hq
        free := hfree }
    refine h.added rfl hadds ?_ ⟨_, rfl⟩ (fun x hx => List.mem_append_left _ hx) hheard hopened
      fun hp _ => ?_
    · exact h.sound.grow rfl hadds.dirs (fun e he => List.mem_append.mp he)
        (fun id => .inr (.inl rfl)) hname hheard
    · obtain ⟨front, back, hnotify⟩ :=
        List.append_of_mem (h.sound.notify inCreate hmem hp)
      have hqueue : s.queue ++ s.sys.notify place inCreate 0 =
          (s.queue ++ front) ++ madeEvent id place.name :: back := by
        rw [hnotify, List.append_assoc]
        rfl
      exact .create (hadds.dirs _ hmem) (Tree.mem_addFile.mpr (.inr rfl)) hqueue
        (.inl (List.mem_append_right _ (List.mem_singleton_self _)))
  next => cases hstep

theorem Accounts.open (h : Accounts root wanted ahead s)
    (hstep : s.step (.open place) = some s') : Accounts root wanted ahead s' := by
  rw [Growth.step] at hstep
  split at hstep
  next =>
    obtain rfl := Option.some.inj hstep
    refine h.kept rfl rfl ⟨h.sound.tables, h.sound.queue⟩ fun p x _ _ htold => ?_
    have hgrown : Told s.tree (s.writing ++ [place.path]) (s.queue ++ []) s.inoti.createFiles x :=
      htold.grow (fun d hd => hd) (fun q hq => hq)
        fun _ _ _ _ _ hx => .inl (List.mem_append_left _ hx)
    rwa [List.append_nil] at hgrown
  next => cases hstep

/-- Whoever has written the last byte tells of it. -/
theorem Accounts.close (h : Accounts root wanted ahead s)
    (hcatch : Catches root s (.close place)) (hstep : s.step (.close place) = some s') :
    Accounts root wanted ahead s' := by
  obtain ⟨hname, hheard⟩ := hcatch
  rw [Growth.step] at hstep
  split at hstep
  next =>
    obtain rfl := Option.some.inj hstep
    refine h.kept rfl rfl ?_ fun p x hp hwithin htold => ?_
    · exact h.sound.grow rfl (fun d hd => hd) (fun e he => List.mem_append.mp he)
        (fun id => .inr (.inr rfl)) hname hheard
    · refine htold.grow (fun d hd => hd) (fun q hq => hq) fun q id name heq hmem hx => ?_
      by_cases hplace : x = place.path
      · obtain rfl := hplace
        obtain rfl := hwithin.parent
        obtain ⟨hdir, hlast⟩ := List.append_inj' heq rfl
        obtain rfl := (List.cons.inj hlast).1
        exact .inr (h.sound.notify _ (hdir ▸ hmem) hp)
      · exact .inl ((List.mem_erase_of_ne hplace).mpr hx)
  next => cases hstep

end Environment

section Moves

variable {root : Root} {wanted : Path → Prop} {ahead ahead' : List Text} {s : Growth}
variable {t : Tree} {i : Inoti} {p x : Path} {path : Text}

theorem followed_of_addWatch (hp : p ∈ Followed t (i.addWatch t.world path)) :
    p ∈ Followed t i ∨ t.IsDir p ∧ text p = path := by
  rcases hp with ⟨id, hmem, hwatch⟩ | ⟨hfile, hdb⟩
  · exact (mem_of_mem_addWatch hwatch).imp (fun hwatch => .inl ⟨id, hmem, hwatch⟩)
      fun hname => ⟨⟨id, hmem⟩, hname⟩
  · rw [addWatch_db] at hdb
    exact .inl (.inr ⟨hfile, hdb⟩)

theorem followed_mono {i' : Inoti} (hwatches : ∀ node ∈ i.watches, node ∈ i'.watches)
    (hdb : ∀ item ∈ i.db, item ∈ i'.db) (hp : p ∈ Followed t i) : p ∈ Followed t i' := by
  rcases hp with ⟨id, hmem, hwatch⟩ | ⟨hfile, hitem⟩
  · exact .inl ⟨id, hmem, hwatches _ hwatch⟩
  · exact .inr ⟨hfile, hdb _ hitem⟩

/-- The item has an entry in its directory. -/
theorem exists_entry {name : Text} (hx : p ++ [name] ∈ Present root wanted t) :
    ∃ e ∈ t.children p, e.name = name := by
  rcases hx.2 with hdir | ⟨hfile, -⟩
  · exact ⟨⟨name, dtDir⟩, Tree.mem_children.mpr (.inl ⟨hdir, rfl⟩), rfl⟩
  · exact ⟨⟨name, dtReg⟩, Tree.mem_children.mpr (.inr ⟨hfile, rfl⟩), rfl⟩

theorem has_of_present (hx : x ∈ Present root wanted t) : t.Has x := hx.2.imp_right And.left

/-- Below what is visible nothing visible has a hidden name. -/
theorem shown_of_visible {name : Text} (hp : Visible root.path p)
    (hx : Visible root.path (p ++ [name])) : ¬ hiddenName name :=
  (visible_append hp).mp hx name (List.mem_singleton_self name)

/-- A stream that returns an entry still owes the others. -/
theorem Dir.Owes.returned {dp : Dir} {e : Dirent} {name : Text} (h : dp.Owes (p ++ [name])) :
    Dir.Owes { dp with returned := dp.returned ++ [e] } (p ++ [name]) ∨
      e.name = name ∧ dp.path = text p := by
  obtain ⟨p', e', he', heq, hpath, hnew⟩ := h
  by_cases hsame : e' = e
  · obtain ⟨rfl, hlast⟩ := List.append_inj' heq rfl
    exact .inr ⟨by rw [← hsame, (List.cons.inj hlast).1], hpath⟩
  · refine .inl ⟨p', e', he', heq, hpath, fun hmem => ?_⟩
    rcases List.mem_append.mp hmem with hmem | hmem
    · exact hnew hmem
    · exact hsame (List.mem_singleton.mp hmem)

/-- A stream that is at its end owes nothing. -/
theorem Dir.not_owes {dp : Dir} (h : ∀ e ∈ dp.opened, e ∈ dp.returned) : ¬ dp.Owes x := by
  rintro ⟨p, e, he, -, -, hnew⟩
  exact hnew (h e he)

/-- The server moves on. What it was to come across it still will, or it follows it now, and
what lies in the directories that it follows from now on is due. -/
theorem Accounts.moved (h : Accounts root wanted ahead s) {server : Party}
    (htables : Accurate s.tree server.inoti)
    (hwatches : ∀ node ∈ s.inoti.watches, node ∈ server.inoti.watches)
    (hdb : ∀ item ∈ s.inoti.db, item ∈ server.inoti.db)
    (hfiles : server.inoti.createFiles = s.inoti.createFiles)
    (hbrings : ∀ p name, Visible root.path p → p ++ [name] ∈ Present root wanted s.tree →
      s.server.Brings s.tree (p ++ [name]) ∨ Ahead ahead (p ++ [name]) →
        p ++ [name] ∈ Followed s.tree server.inoti ∨ server.Brings s.tree (p ++ [name]) ∨
          Ahead ahead' (p ++ [name]))
    (hopened : ∀ p name, p ∈ Followed s.tree server.inoti → p ∉ Followed s.tree s.inoti →
      p ++ [name] ∈ Present root wanted s.tree →
        server.Brings s.tree (p ++ [name]) ∨ Ahead ahead' (p ++ [name]))
    (hroot : root.path ∈ Followed s.tree server.inoti)
    (hstage : Stage root wanted s.tree server ahead') :
    Accounts root wanted ahead' { s with server } := by
  have hfollowed : ∀ p ∈ Followed s.tree s.inoti, p ∈ Followed s.tree server.inoti :=
    fun p => followed_mono hwatches hdb
  refine
    { sound := ⟨htables, fun e he => ?_⟩, rootDir := h.rootDir, fits := h.fits, covers := ?_,
      rootFollowed := .inr hroot, stage := hstage }
  · obtain ⟨d, hd, name, hkind, hwatch, hrest⟩ := h.sound.queue e he
    exact ⟨d, hd, name, hkind, hwatches _ hwatch, hrest⟩
  · refine h.covers.step ?_ ?_ ?_
    · rintro p x - hx ⟨hvisible, name, rfl⟩ (hold | htold | hcoming)
      · exact .inl (hfollowed _ hold)
      · exact .inr (.inl (show Told _ _ _ server.inoti.createFiles _ from hfiles ▸ htold))
      · exact (hbrings p name hvisible hx hcoming).imp_right .inr
    · exact fun p x _ hx hnew _ => absurd hx hnew
    · rintro p x hp hnew hx ⟨-, name, rfl⟩
      exact .inr (.inr (hopened p name hp hnew hx))

end Moves

end MediaServer.Inotify
