import MediaServer.Foundation.Progress
import MediaServer.Inotify.Overlooked
import Mathlib.Algebra.Order.BigOperators.Group.List

/-!
# The thread comes to rest

`_ms_inoti_directory_scan_and_register_file` calls itself for each directory that it comes
across. A path that is cut off could lead it back to where it is; without such paths the
system calls that are left are bounded by what lies in the directories, and as long as the
others do nothing the thread gets through with them.
-/

namespace MediaServer.Inotify

open Scan

/-! ### The system calls that are left -/

namespace Tree

variable (t : Tree)

/-- For a directory, and for what lies up to so many levels below it. -/
def workUpTo : Nat → Path → Nat
  | 0, _ => 0
  | depth + 1, p =>
      3 + ((t.children p).map fun e =>
        1 + if e.dType = dtDir then workUpTo depth (p ++ [e.name]) else 0).sum

/-- Paths that fit have fewer names than this. -/
def work (p : Path) : Nat := t.workUpTo (msFilePathLenMax - p.length) p

/-- For an entry of a directory. -/
def entryWork (p : Path) (e : Dirent) : Nat :=
  1 + if e.dType = dtDir then t.work (p ++ [e.name]) else 0

/-- For the entries that the stream has not returned. -/
def entriesWork (p : Path) (returned : List Dirent) : Nat :=
  (((t.children p).filter fun e => e ∉ returned).map (t.entryWork p)).sum

/-- For one event. -/
def eventWork : Nat := 2 + (t.dirs.map fun d => t.work d.1).sum

end Tree

def Visiting.work (t : Tree) : Visiting → Nat
  | .entered dirPath => ((t.dirAt dirPath).map fun d => t.work d.1).getD 1
  | .opened dirPath _ => ((t.dirAt dirPath).map fun d => t.work d.1 - 1).getD 2
  | .reading dp => 1 + ((t.dirAt dp.path).map fun d => t.entriesWork d.1 dp.returned).getD 0

def Growth.work (s : Growth) : Nat :=
  match s.server with
  | .walking _ _ => 0
  | .running scanner =>
      (scanner.calls.map (Visiting.work s.tree)).sum + s.queue.length * s.tree.eventWork

section Work

variable {t : Tree} {p : Path} {e : Dirent} {returned : List Dirent} {path : Text} {id : Nat}

theorem sum_filter_add_le {α : Type} [DecidableEq α] {l r : List α} {a : α} (f : α → Nat)
    (hmem : a ∈ l) (hnew : a ∉ r) :
    ((l.filter fun b => b ∉ r ++ [a]).map f).sum + f a ≤ ((l.filter fun b => b ∉ r).map f).sum := by
  induction l with
  | nil => cases hmem
  | cons b l ih =>
      by_cases hself : b = a
      · subst hself
        have hless : ((l.filter fun c => c ∉ r ++ [b]).map f).sum ≤
            ((l.filter fun c => c ∉ r).map f).sum := by
          by_cases hagain : b ∈ l
          · exact Nat.le_of_add_right_le (ih hagain)
          · rw [List.filter_congr fun c hc => ?_]
            have hne : c ≠ b := fun heq => hagain (heq ▸ hc)
            simp [hne]
        simp only [List.filter_cons, List.mem_append, List.mem_singleton, or_true, not_true,
          decide_false, Bool.false_eq_true, if_false, hnew, not_false_eq_true, decide_true, if_true,
          List.map_cons, List.sum_cons]
        simp only [List.mem_append, List.mem_singleton] at hless
        omega
      · have hrest := ih ((List.mem_cons.mp hmem).resolve_left fun heq => hself heq.symm)
        simp only [List.mem_append, List.mem_singleton] at hrest ⊢
        by_cases hold : b ∈ r
        · simp only [List.filter_cons, hold, true_or, not_true, decide_false, Bool.false_eq_true,
            if_false]
          exact hrest
        · simp only [List.filter_cons, hold, hself, or_self, not_false_eq_true, decide_true,
            if_true, List.map_cons, List.sum_cons]
          omega

theorem work_eq (hfits : p.length < msFilePathLenMax) : t.work p = 3 + t.entriesWork p [] := by
  obtain ⟨depth, hdepth⟩ : ∃ depth, msFilePathLenMax - p.length = depth + 1 :=
    Nat.exists_eq_succ_of_ne_zero (Nat.sub_ne_zero_of_lt hfits)
  have hsub : ∀ name : Text, msFilePathLenMax - (p ++ [name]).length = depth := by
    intro name
    rw [List.length_append, List.length_singleton]
    omega
  have hentry : t.entryWork p = fun e =>
      1 + if e.dType = dtDir then t.workUpTo depth (p ++ [e.name]) else 0 := by
    funext e
    rw [Tree.entryWork, Tree.work, hsub]
  rw [Tree.work, hdepth, Tree.workUpTo, Tree.entriesWork, List.filter_eq_self.mpr (by simp), hentry]

theorem length_lt_of_fits (hfits : Fits p) : p.length < msFilePathLenMax :=
  Nat.lt_of_le_of_lt ((length_le_text p).trans hfits) (by decide)

theorem entriesWork_returned (hmem : e ∈ t.children p) (hnew : e ∉ returned) :
    t.entriesWork p (returned ++ [e]) + t.entryWork p e ≤ t.entriesWork p returned :=
  sum_filter_add_le _ hmem hnew

theorem one_le_entryWork : 1 ≤ t.entryWork p e := Nat.le_add_right _ _

/-- An event may lead to one directory. -/
theorem work_entered_lt : (Visiting.entered path).work t < t.eventWork := by
  rw [Visiting.work, Tree.eventWork]
  cases hdir : t.dirAt path with
  | none =>
      rw [Option.map_none, Option.getD_none]
      omega
  | some d =>
      have hle : t.work d.1 ≤ (t.dirs.map fun d => t.work d.1).sum :=
        List.le_sum_of_mem (List.mem_map_of_mem (List.mem_of_find?_eq_some hdir))
      rw [Option.map_some, Option.getD_some]
      omega

theorem work_entered_text (wf : t.Wf) (hmem : (p, id) ∈ t.dirs) :
    (Visiting.entered (text p)).work t = t.work p := by
  rw [Visiting.work, wf.dirAt_text hmem]
  rfl

end Work

/-! ### Streams -/

/-- What has been in the directory at `opendir` still is. -/
def Visiting.Open (t : Tree) : Visiting → Prop
  | .entered _ => True
  | .opened dirPath entries => ∀ e ∈ entries, e ∈ t.world.fs.entries dirPath
  | .reading dp => ∀ e ∈ dp.opened, e ∈ t.world.fs.entries dp.path

def Party.Open (t : Tree) : Party → Prop
  | .walking _ _ => True
  | .running scanner => ∀ call ∈ scanner.calls, call.Open t

section Streams

variable {t t' : Tree} {s s' : Growth} {scanner scanner' : Scanner} {call : Visiting}
variable {calls : List Visiting} {w : World} {next : Option Dirent} {e : Event} {dp : Dir}
variable {walker : Walker Inoti} {standing : Standing} {server server' : Party} {op : Growing}

theorem entries_grow (wf : t.Wf) (wf' : t'.Wf) (hdirs : ∀ d ∈ t.dirs, d ∈ t'.dirs)
    (hfiles : ∀ q ∈ t.files, q ∈ t'.files) {path : Text} {ent : Dirent}
    (h : ent ∈ t.world.fs.entries path) : ent ∈ t'.world.fs.entries path := by
  obtain ⟨p, ⟨id, hmem⟩, rfl, -⟩ := mem_entries h
  rw [entries_text wf ⟨id, hmem⟩, Tree.mem_children] at h
  rw [entries_text wf' ⟨id, hdirs _ hmem⟩, Tree.mem_children]
  refine h.imp (.imp_left fun hdir => ?_) (.imp_left (hfiles _))
  obtain ⟨id', hmem'⟩ := hdir
  exact ⟨id', hdirs _ hmem'⟩

theorem Visiting.Open.grow (h : call.Open t) (wf : t.Wf) (wf' : t'.Wf)
    (hdirs : ∀ d ∈ t.dirs, d ∈ t'.dirs) (hfiles : ∀ q ∈ t.files, q ∈ t'.files) :
    call.Open t' := by
  cases call with
  | entered dirPath => exact h
  | opened dirPath entries =>
      exact fun e he => entries_grow wf wf' hdirs hfiles (h e he)
  | reading dp => exact fun e he => entries_grow wf wf' hdirs hfiles (h e he)

/-- An entry leads to at most one more activation. -/
theorem calls_entry (scanner : Scanner) (dp : Dir) (ent : Dirent) (calls : List Visiting) :
    (scanner.entry dp ent calls).calls = .reading dp :: calls ∨
      ∃ path, msStrappend dp.path ent.name = some path ∧ ent.dType = dtDir ∧
        (scanner.entry dp ent calls).calls = .entered path :: .reading dp :: calls := by
  rw [Scanner.entry]
  split
  · exact .inl rfl
  · split
    next => exact .inl rfl
    next path happend =>
      split
      next htype => exact .inr ⟨path, happend, htype, rfl⟩
      next => exact .inl rfl

theorem open_visit (hcall : call.Open t) (hcalls : ∀ c ∈ calls, c.Open t)
    (hstep : scanner.visit t.world next calls call = some scanner') :
    ∀ c ∈ scanner'.calls, c.Open t := by
  cases call with
  | entered dirPath =>
      rw [Scanner.visit] at hstep
      split at hstep
      next =>
        obtain rfl := Option.some.inj hstep
        rwa [ret_calls]
      next entries hopen =>
        obtain rfl := Option.some.inj hstep
        refine List.forall_mem_cons.mpr ⟨fun e he => ?_, hcalls⟩
        rw [FileSystem.opendir] at hopen
        split at hopen
        next => rwa [Option.some.inj hopen]
        next => cases hopen
  | opened dirPath entries =>
      obtain rfl := Option.some.inj hstep
      exact List.forall_mem_cons.mpr ⟨hcall, hcalls⟩
  | reading dp =>
      obtain ⟨dp', hread, rfl⟩ := Option.map_eq_some_iff.mp hstep
      cases next with
      | none => exact fun c hc => hcalls c (by rwa [ret_calls] at hc)
      | some ent =>
          obtain ⟨-, -, rfl⟩ := Dir.readdir_some hread
          have hrest : ∀ c ∈ .reading { dp with returned := dp.returned ++ [ent] } :: calls,
              c.Open t := List.forall_mem_cons.mpr ⟨hcall, hcalls⟩
          rcases calls_entry scanner { dp with returned := dp.returned ++ [ent] } ent calls with
            hsame | ⟨path, -, -, hmore⟩
          · exact hsame ▸ hrest
          · exact hmore ▸ List.forall_mem_cons.mpr ⟨trivial, hrest⟩

/-- An event leads to at most one activation. -/
theorem calls_event (hcalls : scanner.calls = []) :
    (scanner.event w e).calls = [] ∨ ∃ path, (scanner.event w e).calls = [.entered path] := by
  rw [Scanner.event]
  split
  next path hcall => exact .inr ⟨path, rfl⟩
  next => exact .inl hcalls

/-- The thread begins without activations. -/
theorem calls_next (h : Party.next walker = some (.running scanner)) : scanner.calls = [] := by
  obtain ⟨⟨path, walker'⟩, hnext, heq⟩ := Option.map_eq_some_iff.mp h
  cases path with
  | none =>
      cases heq
      rfl
  | some path => cases heq

theorem calls_walk (h : Party.walk w walker next standing = some (.running scanner)) :
    scanner.calls = [] := by
  cases standing with
  | start =>
      obtain ⟨⟨path, walker'⟩, -, h⟩ := Option.bind_eq_some_iff.mp h
      cases path with
      | none =>
          cases Option.some.inj h
          rfl
      | some path =>
          obtain ⟨walker'', -, heq⟩ := Option.map_eq_some_iff.mp h
          cases heq
  | before path =>
      rw [Party.walk] at h
      split at h
      · exact calls_next h
      · cases Option.some.inj h
  | reading dp =>
      obtain ⟨dp', -, h⟩ := Option.bind_eq_some_iff.mp h
      cases next with
      | none => exact calls_next h
      | some e => cases Option.some.inj h
  | entry dp e =>
      obtain ⟨walker', -, heq⟩ := Option.map_eq_some_iff.mp h
      cases heq

theorem open_run {queue queue' : List Event} (h : server.Open t)
    (hstep : server.step t.world queue next = some (queue', server')) : server'.Open t := by
  cases server with
  | walking walker standing =>
      obtain ⟨-, hwalk⟩ := Party.walking_cases hstep
      cases hserver : server' with
      | walking => trivial
      | running scanner =>
          rw [hserver] at hwalk
          rw [Party.Open, calls_walk hwalk]
          exact List.forall_mem_nil _
  | running scanner =>
      obtain ⟨call, calls, scanner', hcalls, hvisit, -, rfl⟩ | ⟨e, hcalls, -, -, rfl⟩ :=
        Party.running_cases hstep
      · rw [Party.Open, hcalls] at h
        obtain ⟨hcall, hrest⟩ := List.forall_mem_cons.mp h
        exact open_visit hcall hrest hvisit
      · rw [Party.Open]
        rcases calls_event (w := t.world) (e := e) hcalls with hnone | ⟨path, hone⟩
        · rw [hnone]
          exact List.forall_mem_nil _
        · rw [hone]
          exact List.forall_mem_singleton.mpr trivial

theorem open_step (h : s.server.Open s.tree) (hstep : s.step op = some s') :
    s'.server.Open s'.tree := by
  rcases Growth.step_cases hstep with ⟨place, mask, hserver, hdirs, hfiles, -⟩ |
    ⟨hserver, htree, -⟩ | ⟨entry, queue, server, hmove, rfl⟩
  · rw [hserver]
    cases hparty : s.server with
    | walking => trivial
    | running scanner =>
        rw [hparty] at h
        exact fun c hc => (h c hc).grow s.wf s'.wf hdirs hfiles
  · rw [hserver, htree]
    exact h
  · exact open_run h hmove

end Streams

/-! ### The thread alone -/

/-- A step of the server, with the entry for `readdir_r`. -/
def Growth.alone (s : Growth) (entry : Option Dirent) : Option Growth := s.step (.server entry)

/-- The thread waits for events, or has left. -/
def Growth.Idle (s : Growth) : Prop :=
  ∃ scanner, s.server = .running scanner ∧ scanner.calls = [] ∧
    (s.queue = [] ∨ scanner.inoti.stopped = true)

/-- The thread runs, and could hold all paths of directories. -/
structure Bounded (t : Tree) (s : Growth) : Prop where
  running : ∃ scanner, s.server = .running scanner
  tree : s.tree = t
  streams : s.server.Open t
  fits : ∀ d ∈ t.dirs, Fits d.1

section Alone

variable {t : Tree} {s s' : Growth} {scanner scanner' : Scanner} {call : Visiting}
variable {calls : List Visiting} {next : Option Dirent} {e : Event} {queue : List Event}
variable {path : Text} {d : Path × Nat}

theorem dirAt_spec (h : t.dirAt path = some d) : d ∈ t.dirs ∧ text d.1 = path := by
  refine ⟨List.mem_of_find?_eq_some h, ?_⟩
  simpa only [decide_eq_true_eq] using List.find?_some h

theorem work_dirAt (fits : ∀ d ∈ t.dirs, Fits d.1) (h : t.dirAt path = some d) :
    t.work d.1 = 3 + t.entriesWork d.1 [] :=
  work_eq (length_lt_of_fits (fits d (dirAt_spec h).1))

/-- The rest of a stream pays for the entry that it returns. -/
theorem work_entry (wf : t.Wf) (fits : ∀ d ∈ t.dirs, Fits d.1) {dp : Dir} {ent : Dirent}
    (hent : ent ∈ t.world.fs.entries dp.path) (hnew : ent ∉ dp.returned) :
    ((scanner.entry { dp with returned := dp.returned ++ [ent] } ent calls).calls.map
      (Visiting.work t)).sum <
        (Visiting.reading dp).work t + (calls.map (Visiting.work t)).sum := by
  obtain ⟨p, ⟨id, hmem⟩, hpath, -⟩ := mem_entries hent
  rw [hpath, entries_text wf ⟨id, hmem⟩] at hent
  have hpaid := entriesWork_returned hent hnew
  have hrest : (Visiting.reading { dp with returned := dp.returned ++ [ent] }).work t =
      1 + t.entriesWork p (dp.returned ++ [ent]) := by
    rw [Visiting.work, hpath, wf.dirAt_text hmem]
    rfl
  have hwhole : (Visiting.reading dp).work t = 1 + t.entriesWork p dp.returned := by
    rw [Visiting.work, hpath, wf.dirAt_text hmem]
    rfl
  rcases calls_entry scanner { dp with returned := dp.returned ++ [ent] } ent calls with
    hsame | ⟨path, happend, htype, hmore⟩
  · have hone : 1 ≤ t.entryWork p ent := one_le_entryWork
    rw [hsame, List.map_cons, List.sum_cons, hrest, hwhole]
    omega
  · have hsub : t.IsDir (p ++ [ent.name]) := by
      rcases Tree.mem_children.mp hent with ⟨hdir, -⟩ | ⟨-, hreg⟩
      · exact hdir
      · rw [hreg] at htype
        exact absurd htype (by decide)
    obtain ⟨id', hmem'⟩ := hsub
    have hwhole' : path = text (p ++ [ent.name]) := by
      have happend : msStrappend dp.path ent.name = some path := happend
      rw [hpath, msStrappend_text (fits _ hmem')] at happend
      exact (Option.some.inj happend).symm
    have hentry : t.entryWork p ent = 1 + t.work (p ++ [ent.name]) := by
      rw [Tree.entryWork, if_pos htype]
    rw [hmore, List.map_cons, List.sum_cons, List.map_cons, List.sum_cons, hrest, hwhole, hwhole',
      work_entered_text wf hmem']
    omega

/-- Each system call is one that was left. -/
theorem work_visit (wf : t.Wf) (fits : ∀ d ∈ t.dirs, Fits d.1)
    (hstep : scanner.visit t.world next calls call = some scanner') :
    (scanner'.calls.map (Visiting.work t)).sum <
      call.work t + (calls.map (Visiting.work t)).sum := by
  cases call with
  | entered dirPath =>
      rw [Scanner.visit] at hstep
      cases hdir : t.dirAt dirPath with
      | none =>
          have hclosed : t.world.fs.opendir dirPath = none := by
            simp only [FileSystem.opendir, Tree.world, hdir, Option.isSome_none,
              Bool.false_eq_true, if_false]
          rw [hclosed] at hstep
          obtain rfl := Option.some.inj hstep
          rw [ret_calls, Visiting.work, hdir, Option.map_none, Option.getD_none]
          omega
      | some d =>
          have hopens : ∃ entries, t.world.fs.opendir dirPath = some entries := by
            simp only [FileSystem.opendir, Tree.world, hdir, Option.isSome_some, if_true,
              Option.some.injEq, exists_eq']
          obtain ⟨entries, hopens⟩ := hopens
          rw [hopens] at hstep
          obtain rfl := Option.some.inj hstep
          have hwork := work_dirAt fits hdir
          simp only [List.map_cons, List.sum_cons, Visiting.work, hdir, Option.map_some,
            Option.getD_some]
          omega
  | opened dirPath entries =>
      obtain rfl := Option.some.inj hstep
      cases hdir : t.dirAt dirPath with
      | none =>
          simp only [List.map_cons, List.sum_cons, Visiting.work, hdir, Option.map_none,
            Option.getD_none]
          omega
      | some d =>
          have hwork := work_dirAt fits hdir
          simp only [List.map_cons, List.sum_cons, Visiting.work, hdir, Option.map_some,
            Option.getD_some]
          omega
  | reading dp =>
      obtain ⟨dp', hread, rfl⟩ := Option.map_eq_some_iff.mp hstep
      cases next with
      | none =>
          simp only [ret_calls, Visiting.work]
          omega
      | some ent =>
          obtain ⟨hentry, hnew, rfl⟩ := Dir.readdir_some hread
          exact work_entry wf fits hentry hnew

theorem Bounded.work_lt (h : Bounded t s) (hstep : s.alone next = some s') : s'.work < s.work := by
  obtain ⟨scanner, hserver⟩ := h.running
  obtain rfl := h.tree
  obtain ⟨⟨queue, server⟩, hmove, rfl⟩ := Option.map_eq_some_iff.mp hstep
  rw [hserver] at hmove
  obtain ⟨call, calls, scanner', hcalls, hvisit, rfl, rfl⟩ | ⟨e, hcalls, hqueue, -, rfl⟩ :=
    Party.running_cases hmove
  · have hless := work_visit s.wf h.fits hvisit
    simp only [Growth.work, hserver, hcalls, List.map_cons, List.sum_cons]
    omega
  · have hevent : ((scanner.event s.tree.world e).calls.map (Visiting.work s.tree)).sum <
        s.tree.eventWork := by
      rcases calls_event (w := s.tree.world) (e := e) hcalls with hnone | ⟨path, hone⟩
      · rw [hnone, Tree.eventWork, List.map_nil, List.sum_nil]
        omega
      · rw [hone, List.map_singleton, List.sum_singleton]
        exact work_entered_lt
    simp only [Growth.work, hserver, hcalls, hqueue, List.map_nil, List.sum_nil,
      List.length_cons, Nat.add_mul, Nat.one_mul]
    omega

/-- The thread does not end in a step. -/
theorem exists_running {w : World} {queue' : List Event} {server : Party}
    (hstep : (Party.running scanner).step w queue next = some (queue', server)) :
    ∃ scanner', server = .running scanner' := by
  obtain ⟨-, -, scanner', -, -, -, hserver⟩ | ⟨e, -, -, -, hserver⟩ := Party.running_cases hstep
  · exact ⟨scanner', hserver⟩
  · exact ⟨_, hserver⟩

theorem running_step {op : Growing} (h : ∃ scanner, s.server = .running scanner)
    (hstep : s.step op = some s') : ∃ scanner, s'.server = .running scanner := by
  obtain ⟨scanner, hserver⟩ := h
  rcases Growth.step_cases hstep with ⟨_, _, hsame, -⟩ | ⟨hsame, -⟩ |
    ⟨entry, queue, server, hmove, rfl⟩
  · exact ⟨scanner, hsame.trans hserver⟩
  · exact ⟨scanner, hsame.trans hserver⟩
  · rw [hserver] at hmove
    exact exists_running hmove

theorem alone_keeps (hstep : s.alone next = some s') :
    s'.tree = s.tree ∧ s'.writing = s.writing := by
  obtain ⟨⟨queue, server⟩, -, rfl⟩ := Option.map_eq_some_iff.mp hstep
  exact ⟨rfl, rfl⟩

theorem Bounded.step (h : Bounded t s) (hstep : s.alone next = some s') : Bounded t s' where
  running := running_step h.running hstep
  tree := (alone_keeps hstep).1.trans h.tree
  streams := by
    have hstreams : s'.server.Open s'.tree :=
      open_step (s := s) (by rw [h.tree]; exact h.streams) hstep
    rwa [(alone_keeps hstep).1, h.tree] at hstreams
  fits := h.fits

/-- A stream has an entry to return, or is at its end. -/
theorem exists_readdir {dp : Dir} (hopen : ∀ e ∈ dp.opened, e ∈ t.world.fs.entries dp.path) :
    ∃ entry dp', dp.readdir t.world.fs entry = some dp' := by
  by_cases hend : ∀ e ∈ dp.opened, e ∈ dp.returned
  · exact ⟨none, dp, if_pos hend⟩
  · push Not at hend
    obtain ⟨e, he, hnew⟩ := hend
    exact ⟨some e, _, if_pos ⟨hopen e he, hnew⟩⟩

/-- Nothing else holds the thread up. -/
theorem Bounded.lively (h : Bounded t s) :
    Run.Lively Growth.alone (fun _ => true) Growth.Idle s := by
  obtain ⟨scanner, hserver⟩ := h.running
  obtain rfl := h.tree
  cases hcalls : scanner.calls with
  | cons call calls =>
      refine .inr ?_
      have hopen : call.Open s.tree := by
        have hstreams := h.streams
        rw [hserver] at hstreams
        exact hstreams call (hcalls ▸ List.mem_cons_self)
      have hvisit : ∃ entry scanner',
          scanner.visit s.tree.world entry calls call = some scanner' := by
        cases call with
        | entered dirPath =>
            cases hopens : s.tree.world.fs.opendir dirPath with
            | none => exact ⟨none, _, by rw [Scanner.visit, hopens]⟩
            | some entries => exact ⟨none, _, by rw [Scanner.visit, hopens]⟩
        | opened dirPath entries => exact ⟨none, _, rfl⟩
        | reading dp =>
            obtain ⟨entry, dp', hread⟩ := exists_readdir hopen
            exact ⟨entry, _, by rw [Scanner.visit, hread, Option.map_some]⟩
      obtain ⟨entry, scanner', hvisit⟩ := hvisit
      refine ⟨entry, { s with queue := s.queue, server := .running scanner' }, rfl, ?_⟩
      simp only [Growth.alone, Growth.step, hserver, Party.step, hcalls, hvisit, Option.map_some]
  | nil =>
      cases hqueue : s.queue with
      | nil => exact .inl ⟨scanner, hserver, hcalls, .inl hqueue⟩
      | cons e rest =>
          cases hstopped : scanner.inoti.stopped with
          | true => exact .inl ⟨scanner, hserver, hcalls, .inr hstopped⟩
          | false =>
              refine .inr ⟨none, { s with
                queue := rest
                server := .running (scanner.event s.tree.world e) }, rfl, ?_⟩
              simp only [Growth.alone, Growth.step, hserver, Party.step, hcalls, hqueue, hstopped,
                Bool.false_eq_true, if_false, Option.map_some]

end Alone

section Runs

variable {root : Root} {start middle s t : Growth} {before since ops : List Growing}
variable {entries : List (Option Dirent)}

theorem Bounded.exec {tree : Tree} (h : Bounded tree s)
    (hexec : Run.exec Growth.alone s entries = some t) : Bounded tree t :=
  (Run.always_of_step (fun _ _ _ hinv hstep => hinv.step hstep) h).of_exec hexec

/-- The thread alone makes only so many steps, and goes on until it is idle. -/
theorem Bounded.settles {tree : Tree} (h : Bounded tree s)
    (hexec : Run.exec Growth.alone s entries = some t) :
    entries.length ≤ s.work ∧ (t.Idle ∨ ∃ entry u, t.alone entry = some u) := by
  constructor
  · have hdescends : Run.Descends Growth.alone (Bounded tree) (fun _ => true) (fun _ => 0)
        Growth.work := fun s a t hinv hstep => hinv.work_lt hstep
    have hle := Run.countP_add_le (fun _ _ _ hinv hstep => hinv.step hstep) hdescends h hexec
    have hfree : ((entries.map fun _ => 0).sum : Nat) = 0 := by simp
    rw [List.countP_true, hfree] at hle
    omega
  · exact (h.exec hexec).lively.imp_right fun hmove => by
      obtain ⟨entry, u, -, hstep⟩ := hmove
      exact ⟨entry, u, hstep⟩

/-- Its steps are steps of the system, and nothing is made meanwhile. -/
theorem exec_alone (hexec : Run.exec Growth.alone s entries = some t) :
    Run.exec Growth.step s (entries.map .server) = some t := by
  induction entries generalizing s with
  | nil => exact hexec
  | cons entry entries ih =>
      obtain ⟨u, hstep, hrest⟩ := Option.bind_eq_some_iff.mp hexec
      exact Option.bind_eq_some_iff.mpr ⟨u, hstep, ih hrest⟩

theorem caught_alone : Run.EachStep Growth.step (Catches root) s (entries.map .server) := by
  induction entries generalizing s with
  | nil => trivial
  | cons entry entries ih => exact fun t _ => ⟨trivial, ih⟩

theorem exec_keeps (hexec : Run.exec Growth.alone s entries = some t) :
    t.tree = s.tree ∧ t.writing = s.writing := by
  have halways : Run.Always Growth.alone
      (fun u => u.tree = s.tree ∧ u.writing = s.writing) s entries := by
    refine Run.always_of_step (fun u _ _ hinv hstep => ?_) ⟨rfl, rfl⟩
    obtain ⟨htree, hwriting⟩ := alone_keeps hstep
    exact ⟨htree.trans hinv.1, hwriting.trans hinv.2⟩
  exact halways.of_exec hexec

theorem open_exec (h : s.server.Open s.tree) (hexec : Run.exec Growth.step s ops = some t) :
    t.server.Open t.tree :=
  (Run.always_of_step (I := fun u => u.server.Open u.tree) (fun _ _ _ hinv hstep =>
    open_step hinv hstep) h).of_exec hexec

theorem running_exec (h : ∃ scanner, s.server = .running scanner)
    (hexec : Run.exec Growth.step s ops = some t) : ∃ scanner, t.server = .running scanner :=
  (Run.always_of_step (I := fun u => ∃ scanner, u.server = .running scanner)
    (fun _ _ _ hinv hstep => running_step hinv hstep) h).of_exec hexec

/-- Whenever the others pause, and the server can hold the paths of all directories, the
thread is done after so many steps, whatever `readdir_r` returns first; then all visible
directories have their watches, and the files that have been made since `main` has gone
through the storage, and that nobody is writing, have their items. -/
theorem growth_caught_up (root : Root) (hstart : start.Starts root)
    (hwalk : Run.exec Growth.step start before = some middle)
    (hcaught : Run.EachStep Growth.step (Catches root) start before)
    (hrunning : ∃ scanner, middle.server = .running scanner)
    (hrun : Run.exec Growth.step middle since = some s)
    (hcaught' : Run.EachStep Growth.step (Catches root) middle since)
    (hfits : ∀ d ∈ s.tree.dirs, Fits d.1) :
    ∃ bound, ∀ entries t, Run.exec Growth.alone s entries = some t →
      entries.length ≤ bound ∧ ((∃ entry u, t.alone entry = some u) ∨
        (∀ d ∈ s.tree.dirs, Visible root.path d.1 →
          (d.2 : Int) ∈ t.inoti.kernel ∧ ⟨text d.1, d.2⟩ ∈ t.inoti.watches) ∧
        ∀ q ∈ s.tree.files, Visible root.path q → q ∉ middle.tree.files → q ∉ s.writing →
          text q ∈ t.inoti.db) := by
  have hopen : start.server.Open start.tree := by
    obtain ⟨inoti, hserver⟩ := hstart.server
    rw [hserver]
    trivial
  have hbounded : Bounded s.tree s :=
    ⟨running_exec hrunning hrun, rfl, open_exec (open_exec hopen hwalk) hrun, hfits⟩
  refine ⟨s.work, fun entries t hexec => ?_⟩
  obtain ⟨hlength, hidle | hmove⟩ := hbounded.settles hexec
  · refine ⟨hlength, .inr ?_⟩
    obtain ⟨htree, hwriting⟩ := exec_keeps hexec
    obtain ⟨ahead, hmiddle⟩ := hstart.accounts.exec hcaught hwalk
    obtain ⟨scanner, hserver⟩ := hrunning
    obtain ⟨ahead', hpause⟩ := (hmiddle.since hserver).exec hcaught' hrun
    obtain ⟨ahead'', hend⟩ := hpause.exec caught_alone (exec_alone hexec)
    obtain ⟨scanner', hserver', hcalls, hwaits⟩ := hidle
    have hon : scanner'.inoti.stopped = false :=
      Growth.inoti_of_running hserver' ▸ hend.sound.tables.running
    have hrest : t.AtRest := by
      refine ⟨hwaits.resolve_right fun hstopped => ?_, scanner', hserver', hcalls⟩
      rw [hon] at hstopped
      cases hstopped
    obtain rfl : ahead'' = [] := by
      have hstage := hend.stage
      rw [hserver'] at hstage
      exact hstage.1
    rw [← htree, ← hwriting]
    exact ⟨fun d hd hvisible => hend.watched hrest hd hvisible,
      fun q hq hvisible hnew hnot => hend.stored hrest hq hvisible hnew hnot⟩
  · exact ⟨hlength, .inl hmove⟩

/-- The others pause while the thread has the directory open. -/
def pausingRun : List Growing :=
  [.create ⟨media.path ++ ["b".toList], "f".toList⟩, .server none, .server none,
    .close ⟨media.path ++ ["b".toList], "f".toList⟩]

theorem growth_caught_up_pausing :
    ∃ middle s, Run.exec Growth.step booting bootingRun = some middle ∧
      Run.exec Growth.step middle pausingRun = some s ∧
      ∃ bound, ∀ entries t, Run.exec Growth.alone s entries = some t →
        entries.length ≤ bound ∧ ((∃ entry u, t.alone entry = some u) ∨
          (∀ d ∈ s.tree.dirs, Visible media.path d.1 →
            (d.2 : Int) ∈ t.inoti.kernel ∧ ⟨text d.1, d.2⟩ ∈ t.inoti.watches) ∧
          ∀ q ∈ s.tree.files, Visible media.path q → q ∉ middle.tree.files → q ∉ s.writing →
            text q ∈ t.inoti.db) := by
  have hcaught : Run.EachStep Growth.step (Catches media) booting bootingRun := by decide
  have hcaught' : ∀ middle ∈ Run.exec Growth.step booting bootingRun,
      Run.EachStep Growth.step (Catches media) middle pausingRun := by decide
  have hfits : ∀ middle ∈ Run.exec Growth.step booting bootingRun,
      ∀ s ∈ Run.exec Growth.step middle pausingRun, ∀ d ∈ s.tree.dirs, Fits d.1 := by decide
  exact ⟨_, _, rfl, rfl, growth_caught_up media booting_starts rfl hcaught ⟨_, rfl⟩ rfl
    (hcaught' _ rfl) (hfits _ rfl _ rfl)⟩

end Runs

end MediaServer.Inotify
