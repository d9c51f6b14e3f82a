import MediaServer.Inotify.Arrivals
import MediaServer.Inotify.Control

/-!
# A directory that has been overlooked

A directory that comes in between `opendir` and the watch of the one above it is in no
stream, and no event tells of it. Later events do not lead there either: they come from
directories with a watch, and the thread goes down only into directories that are new.
-/

namespace MediaServer.Inotify

open Scan

section Paths

variable {x q : Path} {path name : Text}

/-- Below a path with a slash at its end lies what has its names in front. -/
theorem prefix_of_text (hx : ∀ name ∈ x, '/' ∉ name) (hq : ∀ name ∈ q, '/' ∉ name)
    (h : text x ++ ['/'] <+: text q) : x <+: q ∧ x ≠ q := by
  induction x generalizing q with
  | nil =>
      refine ⟨List.nil_prefix, ?_⟩
      rintro rfl
      exact absurd (List.prefix_nil.mp h) (List.append_ne_nil_of_right_ne_nil _ (by simp))
  | cons n x ih =>
      obtain ⟨rest, heq⟩ := h
      cases q with
      | nil => cases heq
      | cons m q =>
          have htail : n ++ text (x ++ [rest]) = m ++ text q := by
            rw [text_append, text_singleton]
            have hcons : n ++ text x ++ ['/'] ++ rest = m ++ text q := (List.cons.inj heq).2
            simpa only [List.append_assoc, List.singleton_append] using hcons
          have hname : n = m := by
            rw [← takeWhile_text (hx n List.mem_cons_self) (x ++ [rest]), htail,
              takeWhile_text (hq m List.mem_cons_self) q]
          subst hname
          have hrest : text x ++ ['/'] <+: text q := by
            refine ⟨rest, ?_⟩
            rw [← List.append_cancel_left htail, text_append, text_singleton, List.append_assoc,
              List.singleton_append]
          obtain ⟨hstart, hne⟩ := ih (fun k hk => hx k (List.mem_cons_of_mem _ hk))
            (fun k hk => hq k (List.mem_cons_of_mem _ hk)) hrest
          exact ⟨List.cons_prefix_cons.mpr ⟨rfl, hstart⟩, fun heq => hne (List.cons.inj heq).2⟩

theorem under_text_iff (hx : ∀ name ∈ x, '/' ∉ name) (hq : ∀ name ∈ q, '/' ∉ name) :
    Under (text x) (text q) ↔ x <+: q := by
  constructor
  · rintro (heq | hbelow)
    · rw [text_inj hq hx heq]
    · exact (prefix_of_text hx hq hbelow).1
  · exact under_text

/-- Neither of the two lies below the other one. -/
def Beside (x : Path) (path : Text) : Prop := ¬ Under (text x) path ∧ ¬ Under path (text x)

/-- A path is cut off at a length that the directory does not have. -/
theorem beside_of_msStrappend (hx : ∀ name ∈ x, '/' ∉ name)
    (hq : ∀ n ∈ q ++ [name], '/' ∉ n) (hlen : (text x).length < msFilePathLenMax - 2)
    (hnot : ¬ x <+: q) (hnot' : ¬ q ++ [name] <+: x) (h : msStrappend (text q) name = some path) :
    Beside x path := by
  have hcut : path = (text (q ++ [name])).take (msFilePathLenMax - 2) := by
    rw [msStrappend] at h
    split at h
    · rw [text_append, text_singleton]
      exact (Option.some.inj h).symm
    · cases h
  have hwhole : path.length < msFilePathLenMax - 2 → path = text (q ++ [name]) := by
    intro hshort
    rw [hcut, List.length_take] at hshort
    rw [hcut, List.take_of_length_le (by omega)]
  constructor
  · rintro (rfl | hbelow)
    · exact hnot' (text_inj hx hq (hwhole hlen) ▸ List.prefix_refl _)
    · obtain ⟨hle, hne⟩ := prefix_of_text hx hq (hbelow.trans (hcut ▸ List.take_prefix _ _))
      rcases List.prefix_concat_iff.mp hle with heq | habove
      · exact hne heq
      · exact hnot habove
  · intro hbelow
    have hle : path.length ≤ (text x).length := by
      rcases hbelow with heq | hbelow
      · rw [heq]
      · have hle := hbelow.length_le
        rw [List.length_append] at hle
        omega
    rw [hwhole (Nat.lt_of_le_of_lt hle hlen)] at hbelow
    exact hnot' ((under_text_iff hq hx).mp hbelow)

end Paths

/-! ### What stays away from it -/

def Visiting.path : Visiting → Text
  | .entered dirPath | .opened dirPath _ => dirPath
  | .reading dp => dp.path

/-- An event of a directory with a watch, about an item that is not above the directory. -/
def Elsewhere (x : Path) (t : Tree) (i : Inoti) (e : Event) : Prop :=
  ∃ p id name, (p, id) ∈ t.dirs ∧ ⟨text p, id⟩ ∈ i.watches ∧ t.Has (p ++ [name]) ∧
    ¬ p ++ [name] <+: x ∧
      (e = mkdirEvent id name ∨ e = madeEvent id name ∨ e = closedEvent id name)

/-- What the thread has to do lies beside the directory. -/
structure Aside (x : Path) (t : Tree) (queue : List Event) (scanner : Scanner) : Prop where
  tables : Accurate t scanner.inoti
  queue : ∀ e ∈ queue, Elsewhere x t scanner.inoti e
  calls : ∀ call ∈ scanner.calls, Beside x call.path

/-- The thread has left its loop. -/
def Scanner.Left (scanner : Scanner) : Prop :=
  scanner.calls = [] ∧ scanner.inoti.stopped = true ∧ scanner.inoti.kernel = []

/-- Nothing at the directory or below it has a watch, and these are all the items there. -/
structure Overlooked (x : Path) (items : List Text) (s : Growth) : Prop where
  dir : s.tree.IsDir x
  unwatched : ∀ node ∈ s.inoti.watches, ¬ Under (text x) node.name
  items : ∀ item ∈ s.inoti.db, Under (text x) item → item ∈ items
  server : ∃ scanner, s.server = .running scanner ∧
    (scanner.Left ∨ Aside x s.tree s.queue scanner)

section Steps

variable {x p : Path} {items : List Text} {s s' : Growth} {place : Place} {t t' : Tree}
variable {scanner scanner' : Scanner} {queue rest : List Event} {e : Event} {i i' : Inoti}
variable {call : Visiting} {calls : List Visiting} {path name : Text} {id : Nat}

theorem Tree.Wf.noSlash (h : t.Wf) (hhas : t.Has p) : ∀ name ∈ p, '/' ∉ name :=
  fun name hname => (h.validName hhas name hname).2

theorem mem_entries {ent : Dirent} (h : ent ∈ t.world.fs.entries path) :
    ∃ p, t.IsDir p ∧ path = text p ∧ t.Has (p ++ [ent.name]) := by
  cases hdir : t.dirAt path with
  | none =>
      simp only [Tree.world, hdir, Option.map_none, Option.getD_none] at h
      cases h
  | some d =>
      simp only [Tree.world, hdir, Option.map_some, Option.getD_some] at h
      have htext := List.find?_some hdir
      rw [decide_eq_true_eq] at htext
      refine ⟨d.1, ⟨d.2, List.mem_of_find?_eq_some hdir⟩, htext.symm, ?_⟩
      exact (Tree.mem_children.mp h).imp And.left And.left

theorem Elsewhere.grow (h : Elsewhere x t i e) (hdirs : ∀ d ∈ t.dirs, d ∈ t'.dirs)
    (hfiles : ∀ q ∈ t.files, q ∈ t'.files) (hwatches : ∀ node ∈ i.watches, node ∈ i'.watches) :
    Elsewhere x t' i' e := by
  obtain ⟨p, id, name, hmem, hwatch, hhas, hrest⟩ := h
  refine ⟨p, id, name, hdirs _ hmem, hwatches _ hwatch, ?_, hrest⟩
  rcases hhas with ⟨id', hdir⟩ | hfile
  · exact .inl ⟨id', hdirs _ hdir⟩
  · exact .inr (hfiles _ hfile)

/-- No directory with a watch lies at or below it. -/
theorem Overlooked.not_prefix (h : Overlooked x items s) (hwatch : ⟨text p, id⟩ ∈ s.inoti.watches) :
    ¬ x <+: p :=
  fun habove => h.unwatched _ hwatch (under_text habove)

/-- The others make something, and the events tell of it. -/
theorem Overlooked.grow (h : Overlooked x items s) (hserver : s'.server = s.server)
    (hdirs : ∀ d ∈ s.tree.dirs, d ∈ s'.tree.dirs) (hfiles : ∀ q ∈ s.tree.files, q ∈ s'.tree.files)
    (hhas : s'.tree.Has place.path) (hnew : ¬ place.path <+: x) {mask : Nat}
    (hqueue : ∀ e ∈ s'.queue, e ∈ s.queue ∨ e ∈ s.sys.notify place mask 0)
    (hmask : ∀ id, nameEvent id mask 0 place.name = mkdirEvent id place.name ∨
      nameEvent id mask 0 place.name = madeEvent id place.name ∨
      nameEvent id mask 0 place.name = closedEvent id place.name) : Overlooked x items s' := by
  have hinoti : s'.inoti = s.inoti := congrArg Party.inoti hserver
  obtain ⟨scanner, hrunning, hstage⟩ := h.server
  obtain ⟨id, hmem⟩ := h.dir
  refine ⟨⟨id, hdirs _ hmem⟩, hinoti ▸ h.unwatched, hinoti ▸ h.items, scanner,
    hserver.trans hrunning, hstage.imp_right fun haside => ?_⟩
  refine ⟨haside.tables.grow hdirs, fun e he => ?_, haside.calls⟩
  cases hqueue e he with
  | inl he => exact (haside.queue e he).grow hdirs hfiles fun _ hnode => hnode
  | inr he =>
      obtain ⟨id, hmem, hkernel, rfl⟩ := Sys.mem_notify.mp he
      have hold : s.inoti = scanner.inoti := Growth.inoti_of_running hrunning
      have hwatch := (haside.tables.mem_kernel s.wf hmem).mp (hold ▸ hkernel)
      exact ⟨place.dir, id, place.name, hdirs _ hmem, hwatch, hhas, hnew, hmask id⟩

/-- The thread goes on beside the directory. -/
theorem Overlooked.moved (h : Overlooked x items s) (hserver : s.server = .running scanner)
    (haside : Aside x s.tree s.queue scanner) (htables : Accurate s.tree scanner'.inoti)
    (hold : ∀ node ∈ scanner.inoti.watches, node ∈ scanner'.inoti.watches)
    (hwatches : ∀ node ∈ scanner'.inoti.watches,
      node ∈ scanner.inoti.watches ∨ ¬ Under (text x) node.name)
    (hdb : ∀ item ∈ scanner'.inoti.db, item ∈ scanner.inoti.db ∨ ¬ Under (text x) item)
    (hqueue : ∀ e ∈ queue, e ∈ s.queue) (hcalls : ∀ call ∈ scanner'.calls, Beside x call.path) :
    Overlooked x items { s with queue, server := .running scanner' } := by
  have hinoti : s.inoti = scanner.inoti := Growth.inoti_of_running hserver
  refine ⟨h.dir, fun node hnode => ?_, fun item hitem hunder => ?_, scanner', rfl, .inr ?_⟩
  · exact (hwatches node hnode).elim (fun hnode => h.unwatched node (hinoti ▸ hnode)) id
  · cases hdb item hitem with
    | inl hitem => exact h.items item (hinoti ▸ hitem) hunder
    | inr hbeside => exact absurd hunder hbeside
  · exact ⟨htables, fun e he => (haside.queue e (hqueue e he)).grow (fun _ hd => hd)
      (fun _ hq => hq) hold, hcalls⟩

/-- It goes on with the same watches. -/
theorem Overlooked.turned (h : Overlooked x items s) (hserver : s.server = .running scanner)
    (haside : Aside x s.tree s.queue scanner) (hsame : SameTable scanner.inoti scanner'.inoti)
    (hdb : ∀ item ∈ scanner'.inoti.db, item ∈ scanner.inoti.db ∨ ¬ Under (text x) item)
    (hqueue : ∀ e ∈ queue, e ∈ s.queue) (hcalls : ∀ call ∈ scanner'.calls, Beside x call.path) :
    Overlooked x items { s with queue, server := .running scanner' } :=
  h.moved hserver haside (haside.tables.of_sameTable hsame) (fun _ hnode => hsame.1 ▸ hnode)
    (fun _ hnode => .inl (hsame.1 ▸ hnode)) hdb hqueue hcalls

/-! ### The thread -/

/-- What an entry of a stream beside the directory leads to lies beside it too. -/
theorem beside_of_entry (wf : t.Wf) (hdir : t.IsDir x)
    (hlen : (text x).length < msFilePathLenMax - 2) {dp : Dir} {ent : Dirent}
    (hbeside : Beside x dp.path) (hent : ent ∈ t.world.fs.entries dp.path)
    (happend : msStrappend dp.path ent.name = some path) : Beside x path := by
  obtain ⟨p, -, hpath, hhas⟩ := mem_entries hent
  rw [hpath] at hbeside happend
  refine beside_of_msStrappend (wf.noSlash (.inl hdir)) (wf.noSlash hhas) hlen
    (fun habove => hbeside.1 (under_text habove)) (fun habove => hbeside.2 ?_) happend
  exact under_text ((List.prefix_append _ _).trans habove)

theorem Overlooked.entry {ent : Dirent} (h : Overlooked x items s)
    (hserver : s.server = .running scanner) (haside : Aside x s.tree s.queue scanner) (dp : Dir)
    (hcalls : ∀ c ∈ .reading dp :: calls, Beside x c.path)
    (hsub : ∀ path, msStrappend dp.path ent.name = some path → Beside x path) :
    Overlooked x items { s with server := .running (scanner.entry dp ent calls) } := by
  have hskipped : Overlooked x items
      { s with server := .running { scanner with calls := .reading dp :: calls } } :=
    h.turned hserver haside (.refl _) (fun _ hitem => .inl hitem) (fun _ he => he) hcalls
  rw [Scanner.entry]
  split
  · exact hskipped
  · split
    next => exact hskipped
    next path happend =>
      have hbeside := hsub path happend
      split
      · exact h.turned hserver haside (.refl _) (fun _ hitem => .inl hitem) (fun _ he => he)
          (List.forall_mem_cons.mpr ⟨hbeside, hcalls⟩)
      · refine h.turned hserver haside sameTable_registerFile (fun item hitem => ?_)
          (fun _ he => he) hcalls
        refine (mem_registerFile.mp hitem).imp_right fun heq => ?_
        rw [heq]
        exact hbeside.1

theorem Overlooked.visit {next : Option Dirent} (h : Overlooked x items s)
    (hlen : (text x).length < msFilePathLenMax - 2) (hserver : s.server = .running scanner)
    (haside : Aside x s.tree s.queue scanner) (hcalls : scanner.calls = call :: calls)
    (hstep : scanner.visit s.tree.world next calls call = some scanner') :
    Overlooked x items { s with server := .running scanner' } := by
  have hbeside : Beside x call.path := haside.calls call (hcalls ▸ List.mem_cons_self)
  have hrest : ∀ c ∈ calls, Beside x c.path := fun c hc =>
    haside.calls c (hcalls ▸ List.mem_cons_of_mem _ hc)
  have hret : Overlooked x items { s with server := .running (scanner.ret calls) } :=
    h.turned hserver haside sameTable_ret (fun _ hitem => .inl (by rwa [ret_db] at hitem))
      (fun _ he => he) (by rwa [ret_calls])
  cases call with
  | entered dirPath =>
      rw [Scanner.visit] at hstep
      split at hstep
      next =>
        obtain rfl := Option.some.inj hstep
        exact hret
      next =>
        obtain rfl := Option.some.inj hstep
        exact h.turned hserver haside (.refl _) (fun _ hitem => .inl hitem) (fun _ he => he)
          (List.forall_mem_cons.mpr ⟨hbeside, hrest⟩)
  | opened dirPath entries =>
      obtain rfl := Option.some.inj hstep
      refine h.moved hserver haside (haside.tables.addWatch dirPath)
        (fun _ hnode => mem_addWatch hnode) (fun node hnode => ?_)
        (fun _ hitem => .inl (by rwa [addWatch_db] at hitem)) (fun _ he => he)
        (List.forall_mem_cons.mpr ⟨hbeside, hrest⟩)
      refine (mem_of_mem_addWatch hnode).imp_right fun hname => ?_
      rw [hname]
      exact hbeside.1
  | reading dp =>
      obtain ⟨dp', hread, rfl⟩ := Option.map_eq_some_iff.mp hstep
      cases next with
      | none => exact hret
      | some ent =>
          obtain ⟨hentry, -, rfl⟩ := Dir.readdir_some hread
          refine h.entry hserver haside { dp with returned := dp.returned ++ [ent] }
            (List.forall_mem_cons.mpr ⟨hbeside, hrest⟩) fun path happend => ?_
          exact beside_of_entry s.wf h.dir hlen hbeside hentry happend

theorem received_of_scanCall {w : World} (h : i.scanCall w e = some path) :
    ∃ name, i.received e = some (name, path) := by
  rw [Inoti.scanCall] at h
  split at h
  · cases h
  · split at h
    next name path' hreceived _ =>
      obtain rfl := Option.some.inj h
      exact ⟨name, hreceived⟩
    next => cases h

theorem of_mem_closeWrite {w : World} {item : Text} (h : item ∈ (i.closeWrite w e name path).db) :
    item ∈ i.db ∨ item = path := by
  rw [Inoti.closeWrite] at h
  split at h
  · exact mem_registerFile.mp h
  · split at h <;> exact .inl h

theorem event_of_powerOff {w : World} (hrunning : scanner.inoti.stopped = false)
    (hname : e.name = powerOffName) :
    scanner.event w e = { scanner with inoti := scanner.inoti.leave } := by
  have hnone : scanner.inoti.scanCall w e = none := if_pos (.inr (.inl hname))
  have hleave : scanner.inoti.event w e = scanner.inoti.leave :=
    event_of_control (by rw [hrunning]; decide) (.inr hname)
  rw [Scanner.event, hnone, hleave]

/-- The directory that is made for a power-off takes the thread out of its loop. -/
theorem Overlooked.left (h : Overlooked x items s) (hserver : s.server = .running scanner)
    (hcalls : scanner.calls = []) (hrunning : scanner.inoti.stopped = false)
    (hname : e.name = powerOffName) :
    Overlooked x items { s with
      queue := rest
      server := .running (scanner.event s.tree.world e) } := by
  have hinoti : s.inoti = scanner.inoti := Growth.inoti_of_running hserver
  rw [event_of_powerOff hrunning hname]
  refine ⟨h.dir, fun node hnode => h.unwatched node ?_, fun item hitem => h.items item ?_, _, rfl,
    .inl ⟨hcalls, rfl, rfl⟩⟩
  · rw [hinoti]
    exact List.mem_of_mem_eraseP (List.mem_of_mem_filter hnode)
  · rw [hinoti]
    exact hitem

/-- A scan or an item comes of the event, or nothing. -/
theorem Overlooked.event (h : Overlooked x items s)
    (hlen : (text x).length < msFilePathLenMax - 2) (hserver : s.server = .running scanner)
    (haside : Aside x s.tree s.queue scanner) (hcalls : scanner.calls = [])
    (hqueue : s.queue = e :: rest) :
    Overlooked x items { s with
      queue := rest
      server := .running (scanner.event s.tree.world e) } := by
  have hrunning : scanner.inoti.stopped = false := haside.tables.running
  have hrest : ∀ e ∈ rest, e ∈ s.queue := fun e he => hqueue ▸ List.mem_cons_of_mem _ he
  obtain ⟨p, id, name, hmem, hwatch, hhas, hnew, hkind⟩ :=
    haside.queue e (hqueue ▸ List.mem_cons_self)
  have hnot : ¬ x <+: p := h.not_prefix (Growth.inoti_of_running hserver ▸ hwatch)
  have hname : e.name = name := by rcases hkind with rfl | rfl | rfl <;> rfl
  have hwd : e.wd = id := by rcases hkind with rfl | rfl | rfl <;> rfl
  have hbeside : ∀ n path, scanner.inoti.received e = some (n, path) → Beside x path := by
    intro n path hreceived
    obtain ⟨rfl, hfull⟩ := received_spec hreceived
    rw [hwd, hname, haside.tables.getFullPath s.wf hmem hwatch] at hfull
    exact beside_of_msStrappend (s.wf.noSlash (.inl h.dir)) (s.wf.noSlash hhas) hlen hnot hnew
      hfull
  by_cases hpower : name = powerOffName
  · exact h.left hserver hcalls hrunning (hname.trans hpower)
  · rcases hkind with rfl | rfl | rfl
    · rw [Scanner.event]
      split
      next path hcall =>
        obtain ⟨n, hreceived⟩ := received_of_scanCall hcall
        exact h.turned hserver haside (.refl _) (fun _ hitem => .inl hitem) hrest
          (List.forall_mem_singleton.mpr (hbeside n path hreceived))
      next hcall =>
        rw [event_of_mkdir rfl hrunning hpower hcall]
        exact h.turned hserver haside (.refl _) (fun _ hitem => .inl hitem) hrest haside.calls
    · rw [event_of_file (by rw [branch_madeEvent]; decide)]
      refine h.turned hserver haside (sameTable_event rfl notDir_madeEvent hpower)
        (fun item hitem => .inl ?_) hrest haside.calls
      rcases event_of_made s.tree.world id rfl hrunning hpower with hsame | ⟨n, hlonger⟩
      · rwa [hsame] at hitem
      · rwa [hlonger] at hitem
    · rw [event_of_file (by rw [branch_closedEvent]; decide)]
      refine h.turned hserver haside (sameTable_event rfl notDir_closedEvent hpower)
        (fun item hitem => ?_) hrest haside.calls
      rcases event_of_closed s.tree.world id rfl hrunning hpower with
        hsame | ⟨path, hreceived, hclosed⟩
      · rw [hsame] at hitem
        exact .inl hitem
      · rw [hclosed] at hitem
        refine (of_mem_closeWrite hitem).imp_right fun heq => ?_
        rw [heq]
        exact (hbeside name path hreceived).1

theorem Overlooked.run {entry : Option Dirent} {server : Party} (h : Overlooked x items s)
    (hlen : (text x).length < msFilePathLenMax - 2)
    (hstep : s.server.step s.tree.world s.queue entry = some (queue, server)) :
    Overlooked x items { s with queue, server } := by
  obtain ⟨scanner, hserver, hstage⟩ := h.server
  rw [hserver] at hstep
  obtain ⟨call, calls, scanner', hcalls, hvisit, rfl, rfl⟩ | ⟨e, hcalls, hqueue, hrunning, rfl⟩ :=
    Party.running_cases hstep
  · have haside : Aside x s.tree s.queue scanner := by
      refine hstage.resolve_left fun hleft => ?_
      rw [hleft.1] at hcalls
      cases hcalls
    exact h.visit hlen hserver haside hcalls hvisit
  · have haside := hstage.resolve_left fun hleft => Bool.false_ne_true (hrunning ▸ hleft.2.1)
    exact h.event hlen hserver haside hcalls hqueue

/-- The others make or write something, with its events, or open a file, or the server
moves. -/
theorem Growth.step_cases {op : Growing} (hstep : s.step op = some s') :
    (∃ place mask, s'.server = s.server ∧ (∀ d ∈ s.tree.dirs, d ∈ s'.tree.dirs) ∧
      (∀ q ∈ s.tree.files, q ∈ s'.tree.files) ∧ s'.tree.Has place.path ∧
      ¬ s.tree.IsDir place.path ∧ s'.queue = s.queue ++ s.sys.notify place mask 0 ∧
      ∀ id, nameEvent id mask 0 place.name = mkdirEvent id place.name ∨
        nameEvent id mask 0 place.name = madeEvent id place.name ∨
        nameEvent id mask 0 place.name = closedEvent id place.name) ∨
    (s'.server = s.server ∧ s'.tree = s.tree ∧ s'.queue = s.queue) ∨
    ∃ entry queue server, s.server.step s.tree.world s.queue entry = some (queue, server) ∧
      s' = { s with queue, server } := by
  cases op with
  | mkdir place =>
      rw [Growth.step] at hstep
      split at hstep
      next henabled =>
        obtain rfl := Option.some.inj hstep
        exact .inl ⟨place, inIsDir ||| inCreate, rfl, fun d hd => Tree.mem_addDir.mpr (.inl hd),
          fun q hq => hq, .inl ⟨_, Tree.mem_addDir.mpr (.inr rfl)⟩,
          fun hdir => henabled.2.2 (.inl hdir), rfl, fun id => .inl rfl⟩
      next => cases hstep
  | create place =>
      rw [Growth.step] at hstep
      split at hstep
      next henabled =>
        obtain rfl := Option.some.inj hstep
        exact .inl ⟨place, inCreate, rfl, fun d hd => by rwa [Tree.addFile_dirs],
          fun q hq => Tree.mem_addFile.mpr (.inl hq), .inr (Tree.mem_addFile.mpr (.inr rfl)),
          fun hdir => henabled.2.2 (.inl hdir), rfl, fun id => .inr (.inl rfl)⟩
      next => cases hstep
  | «open» place =>
      rw [Growth.step] at hstep
      split at hstep
      next =>
        obtain rfl := Option.some.inj hstep
        exact .inr (.inl ⟨rfl, rfl, rfl⟩)
      next => cases hstep
  | close place =>
      rw [Growth.step] at hstep
      split at hstep
      next hopen =>
        obtain rfl := Option.some.inj hstep
        have hfile := s.written place.path hopen
        exact .inl ⟨place, inCloseWrite, rfl, fun d hd => hd, fun q hq => hq, .inr hfile,
          s.wf.disjoint _ hfile, rfl, fun id => .inr (.inr rfl)⟩
      next => cases hstep
  | server entry =>
      obtain ⟨⟨queue, server⟩, hmove, rfl⟩ := Option.map_eq_some_iff.mp hstep
      exact .inr (.inr ⟨entry, queue, server, hmove, rfl⟩)

theorem Overlooked.step {op : Growing} (h : Overlooked x items s)
    (hlen : (text x).length < msFilePathLenMax - 2) (hstep : s.step op = some s') :
    Overlooked x items s' := by
  rcases Growth.step_cases hstep with
    ⟨place, mask, hserver, hdirs, hfiles, hhas, hnew, hqueue, hmask⟩ |
    ⟨hserver, htree, hqueue⟩ | ⟨entry, queue, server, hmove, rfl⟩
  · refine h.grow hserver hdirs hfiles hhas (fun habove => ?_)
      (fun e he => List.mem_append.mp (hqueue ▸ he)) hmask
    obtain ⟨rel, rfl⟩ := habove
    exact hnew (s.wf.isDir_of_append h.dir)
  · have hinoti : s'.inoti = s.inoti := congrArg Party.inoti hserver
    refine ⟨htree ▸ h.dir, hinoti ▸ h.unwatched, hinoti ▸ h.items, ?_⟩
    rw [hserver, htree, hqueue]
    exact h.server
  · exact h.run hlen hmove

end Steps

/-! ### What the tables say in every run -/

section Recorded

variable {σ : Type} {record : σ → Text → σ} {walker walker' : Walker σ} {next : Option Text}
variable {fs : FileSystem} {a : Nat} {path : Text} {e : Dirent}

theorem recorded_getFullPath (h : walker.getFullPath a = some (next, walker')) :
    walker'.recorded = walker.recorded := by
  obtain ⟨names, -, h⟩ := Option.bind_eq_some_iff.mp h
  simp only at h
  split at h
  · obtain ⟨-, rfl⟩ := Prod.mk.inj (Option.some.inj h)
    rfl
  · split at h
    · obtain ⟨-, rfl⟩ := Prod.mk.inj (Option.some.inj h)
      rfl
    · cases h

theorem recorded_getNextPath (h : walker.getNextPath = some (next, walker')) :
    walker'.recorded = walker.recorded := by
  rw [Walker.getNextPath] at h
  split at h
  · obtain ⟨node, -, h⟩ := Option.bind_eq_some_iff.mp h
    split at h
    next => exact (recorded_getFullPath h).trans rfl
    next =>
      obtain ⟨⟨up, depth⟩, -, h⟩ := Option.bind_eq_some_iff.mp h
      cases up with
      | none =>
          obtain ⟨-, rfl⟩ := Prod.mk.inj (Option.some.inj h)
          rfl
      | some b => exact (recorded_getFullPath h).trans rfl
  · exact recorded_getFullPath h

theorem recorded_addNode (h : walker.addNode record a = some walker') :
    walker'.recorded = walker.recorded ∨
      ∃ path, walker'.recorded = record walker.recorded path := by
  obtain ⟨⟨fullPath, middle⟩, hget, rfl⟩ := Option.map_eq_some_iff.mp h
  have hsame := recorded_getFullPath hget
  cases fullPath with
  | none => exact .inl hsame
  | some path => exact .inr ⟨path, congrArg (record · path) hsame⟩

theorem recorded_newNode (name : Text) : (walker.newNode name).recorded = walker.recorded := by
  rw [Walker.newNode]
  split <;> rfl

theorem recorded_walkEntry (h : walkEntry fs record path walker e = some walker') :
    walker'.recorded = walker.recorded ∨
      ∃ path, walker'.recorded = record walker.recorded path := by
  rw [walkEntry] at h
  split at h
  · split at h
    next =>
      obtain rfl := Option.some.inj h
      exact .inl rfl
    next =>
      split at h
      · have hadd := recorded_addNode h
        rwa [recorded_newNode] at hadd
      · obtain rfl := Option.some.inj h
        exact .inl rfl
  · obtain rfl := Option.some.inj h
    exact .inl rfl

end Recorded

section Tables

variable {root : Root} {t : Tree} {w : World} {s s' : Growth} {place : Place} {op : Growing}
variable {walker : Walker Inoti} {standing : Standing} {entry : Option Dirent} {server : Party}
variable {scanner scanner' : Scanner} {call : Visiting} {calls : List Visiting} {e : Event}

theorem inoti_next (h : Party.next walker = some server) : server.inoti = walker.recorded := by
  obtain ⟨⟨path, walker'⟩, hnext, rfl⟩ := Option.map_eq_some_iff.mp h
  have hsame := recorded_getNextPath hnext
  cases path <;> exact hsame

/-- A step of `main` adds a watch, or none. -/
theorem inoti_walk (h : Party.walk w walker entry standing = some server) :
    server.inoti = walker.recorded ∨ ∃ path, server.inoti = walker.recorded.addWatch w path := by
  cases standing with
  | start =>
      obtain ⟨⟨path, walker'⟩, hget, h⟩ := Option.bind_eq_some_iff.mp h
      have hsame := recorded_getFullPath hget
      cases path with
      | none =>
          obtain rfl := Option.some.inj h
          exact .inl hsame
      | some path =>
          obtain ⟨walker'', hadd, rfl⟩ := Option.map_eq_some_iff.mp h
          rw [← hsame]
          exact recorded_addNode hadd
  | before path =>
      rw [Party.walk] at h
      split at h
      · exact .inl ((inoti_next h).trans rfl)
      · obtain rfl := Option.some.inj h
        exact .inl rfl
  | reading dp =>
      obtain ⟨dp', -, h⟩ := Option.bind_eq_some_iff.mp h
      cases entry with
      | none => exact .inl (inoti_next h)
      | some e =>
          obtain rfl := Option.some.inj h
          exact .inl rfl
  | entry dp e =>
      obtain ⟨walker', hentry, rfl⟩ := Option.map_eq_some_iff.mp h
      exact recorded_walkEntry hentry

theorem sameTable_entry (dp : Dir) (ent : Dirent) :
    SameTable scanner.inoti (scanner.entry dp ent calls).inoti := by
  obtain ⟨-, -, -, -, hsame, -⟩ := entry_spec scanner dp ent calls
  exact hsame

/-- So does a step of an activation. -/
theorem inoti_visit (h : scanner.visit w entry calls call = some scanner') :
    SameTable scanner.inoti scanner'.inoti ∨
      ∃ path, scanner'.inoti = scanner.inoti.addWatch w path := by
  cases call with
  | entered dirPath =>
      rw [Scanner.visit] at h
      split at h
      · obtain rfl := Option.some.inj h
        exact .inl sameTable_ret
      · obtain rfl := Option.some.inj h
        exact .inl (.refl _)
  | opened dirPath entries =>
      obtain rfl := Option.some.inj h
      exact .inr ⟨dirPath, rfl⟩
  | reading dp =>
      obtain ⟨dp', -, rfl⟩ := Option.map_eq_some_iff.mp h
      cases entry with
      | none => exact .inl sameTable_ret
      | some ent => exact .inl (sameTable_entry dp' ent)

theorem Accurate.move {i i' : Inoti} (h : Accurate t i)
    (hmove : SameTable i i' ∨ ∃ path, i' = i.addWatch t.world path) : Accurate t i' := by
  rcases hmove with hsame | ⟨path, rfl⟩
  · exact h.of_sameTable hsame
  · exact h.addWatch path

/-- An event of what has been made or written. -/
def News (e : Event) : Prop :=
  ∃ id name, e = mkdirEvent id name ∨ e = madeEvent id name ∨ e = closedEvent id name

theorem inoti_event (hrunning : scanner.inoti.stopped = false) (hcalls : scanner.calls = [])
    (hnews : News e) :
    SameTable scanner.inoti (scanner.event t.world e).inoti ∨ (scanner.event t.world e).Left := by
  by_cases hpower : e.name = powerOffName
  · rw [event_of_powerOff hrunning hpower]
    exact .inr ⟨hcalls, rfl, rfl⟩
  · obtain ⟨id, name, rfl | rfl | rfl⟩ := hnews
    · have hsame : (scanner.event t.world (mkdirEvent id name)).inoti = scanner.inoti :=
        inoti_event_mkdir rfl hrunning hpower
      rw [hsame]
      exact .inl (.refl _)
    · rw [event_of_file (by rw [branch_madeEvent]; decide)]
      exact .inl (sameTable_event rfl notDir_madeEvent hpower)
    · rw [event_of_file (by rw [branch_closedEvent]; decide)]
      exact .inl (sameTable_event rfl notDir_closedEvent hpower)

/-- The watch list is right, or the thread has left. -/
structure Orderly (s : Growth) : Prop where
  queue : ∀ e ∈ s.queue, News e
  tables : Accurate s.tree s.inoti ∨ ∃ scanner, s.server = .running scanner ∧ scanner.Left

theorem Orderly.grow (h : Orderly s) (hserver : s'.server = s.server)
    (hdirs : ∀ d ∈ s.tree.dirs, d ∈ s'.tree.dirs) {mask : Nat}
    (hqueue : ∀ e ∈ s'.queue, e ∈ s.queue ∨ e ∈ s.sys.notify place mask 0)
    (hmask : ∀ id, News (nameEvent id mask 0 place.name)) : Orderly s' := by
  have hinoti : s'.inoti = s.inoti := congrArg Party.inoti hserver
  refine ⟨fun e he => ?_, ?_⟩
  · cases hqueue e he with
    | inl he => exact h.queue e he
    | inr he =>
        obtain ⟨id, -, -, rfl⟩ := Sys.mem_notify.mp he
        exact hmask id
  · rw [hinoti, hserver]
    exact h.tables.imp_left fun htables => htables.grow hdirs

theorem Orderly.accurate (h : Orderly s)
    (hstays : ∀ scanner, s.server = .running scanner → ¬ scanner.Left) :
    Accurate s.tree s.inoti :=
  h.tables.resolve_right fun ⟨scanner, hserver, hleft⟩ => hstays scanner hserver hleft

theorem Orderly.run {queue : List Event} (h : Orderly s)
    (hstep : s.server.step s.tree.world s.queue entry = some (queue, server)) :
    Orderly { s with queue, server } := by
  cases hserver : s.server with
  | walking walker standing =>
      rw [hserver] at hstep
      obtain ⟨rfl, hwalk⟩ := Party.walking_cases hstep
      have htables : Accurate s.tree s.inoti := by
        refine h.accurate fun scanner hrunning => ?_
        rw [hserver] at hrunning
        cases hrunning
      rw [Growth.inoti_of_walking hserver] at htables
      refine ⟨h.queue, .inl (htables.move ?_)⟩
      rcases inoti_walk hwalk with hsame | hadded
      · left
        show SameTable walker.recorded server.inoti
        rw [hsame]
        exact .refl _
      · exact .inr hadded
  | running scanner =>
      rw [hserver] at hstep
      have hgoesOn : ¬ scanner.Left → Accurate s.tree scanner.inoti := by
        intro hstays
        rw [← Growth.inoti_of_running hserver]
        refine h.accurate fun scanner' hrunning => ?_
        rw [hserver] at hrunning
        cases hrunning
        exact hstays
      obtain ⟨call, calls, scanner', hcalls, hvisit, rfl, rfl⟩ |
        ⟨e, hcalls, hqueue, hrunning, rfl⟩ := Party.running_cases hstep
      · have htables : Accurate s.tree scanner.inoti := by
          refine hgoesOn fun hleft => ?_
          rw [hleft.1] at hcalls
          cases hcalls
        exact ⟨h.queue, .inl (htables.move (inoti_visit hvisit))⟩
      · have htables : Accurate s.tree scanner.inoti :=
          hgoesOn fun hleft => Bool.false_ne_true (hrunning ▸ hleft.2.1)
        refine ⟨fun e he => h.queue e (hqueue ▸ List.mem_cons_of_mem _ he), ?_⟩
        rcases inoti_event (t := s.tree) hrunning hcalls
          (h.queue e (hqueue ▸ List.mem_cons_self)) with hsame | hleft
        · exact .inl (htables.of_sameTable hsame)
        · exact .inr ⟨_, rfl, hleft⟩

theorem Orderly.step (h : Orderly s) (hstep : s.step op = some s') : Orderly s' := by
  rcases Growth.step_cases hstep with ⟨place, mask, hserver, hdirs, -, -, -, hqueue, hmask⟩ |
    ⟨hserver, htree, hqueue⟩ | ⟨entry, queue, server, hmove, rfl⟩
  · exact h.grow hserver hdirs (fun e he => List.mem_append.mp (hqueue ▸ he))
      fun id => ⟨id, place.name, hmask id⟩
  · have hinoti : s'.inoti = s.inoti := congrArg Party.inoti hserver
    refine ⟨hqueue ▸ h.queue, ?_⟩
    rw [hserver, htree, hinoti]
    exact h.tables
  · exact h.run hmove

end Tables

section Runs

variable {x : Path} {items : List Text} {s s' : Growth} {ops : List Growing}

theorem Overlooked.exec (h : Overlooked x items s)
    (hlen : (text x).length < msFilePathLenMax - 2)
    (hexec : Run.exec Growth.step s ops = some s') : Overlooked x items s' :=
  (Run.always_of_step (fun _ _ _ hinv hstep => hinv.step hlen hstep) h).of_exec hexec

theorem Orderly.exec (h : Orderly s) (hexec : Run.exec Growth.step s ops = some s') :
    Orderly s' :=
  (Run.always_of_step (fun _ _ _ hinv hstep => hinv.step hstep) h).of_exec hexec

/-- When the thread waits for events and has no watch at or below a directory, whose path its
buffers hold with room to spare, it never gets one there, and no item, whatever is made or
written. -/
theorem overlooked_stays (root : Root) {start : Growth} {before since : List Growing}
    (hstart : start.Starts root) (hbefore : Run.exec Growth.step start before = some s)
    (hrest : s.AtRest) (hdir : s.tree.IsDir x) (hlen : (text x).length < msFilePathLenMax - 2)
    (hunwatched : ∀ node ∈ s.inoti.watches, ¬ Under (text x) node.name)
    (hsince : Run.exec Growth.step s since = some s') :
    (∀ d ∈ s'.tree.dirs, x <+: d.1 →
      (d.2 : Int) ∉ s'.inoti.kernel ∧ ⟨text d.1, d.2⟩ ∉ s'.inoti.watches) ∧
    ∀ item ∈ s'.inoti.db, Under (text x) item → item ∈ s.inoti.db := by
  have hnews : ∀ e ∈ start.queue, News e := by
    intro e he
    obtain ⟨d, -, name, hkind, -⟩ := hstart.sound.queue e he
    exact ⟨d.2, name, hkind⟩
  have hordered := Orderly.exec ⟨hnews, .inl hstart.sound.tables⟩ hbefore
  obtain ⟨hqueue, scanner, hserver, hcalls⟩ := hrest
  have hbegin : Overlooked x s.inoti.db s := by
    refine ⟨hdir, hunwatched, fun item hitem _ => hitem, scanner, hserver, ?_⟩
    rcases hordered.tables with htables | ⟨scanner', hserver', hleft⟩
    · refine .inr ⟨Growth.inoti_of_running hserver ▸ htables, ?_, ?_⟩
      · rw [hqueue]
        exact List.forall_mem_nil _
      · rw [hcalls]
        exact List.forall_mem_nil _
    · rw [hserver] at hserver'
      cases hserver'
      exact .inl hleft
  have hend := hbegin.exec hlen hsince
  refine ⟨fun d hd hbelow => ?_, hend.items⟩
  have hwatch : (⟨text d.1, d.2⟩ : Watch) ∉ s'.inoti.watches := fun hmem =>
    hend.unwatched _ hmem (under_text hbelow)
  refine ⟨fun hkernel => ?_, hwatch⟩
  obtain ⟨scanner', hserver', hleft | haside⟩ := hend.server
  · rw [Growth.inoti_of_running hserver', hleft.2.2] at hkernel
    cases hkernel
  · rw [Growth.inoti_of_running hserver'] at hkernel hwatch
    exact hwatch ((haside.tables.mem_kernel s'.wf hd).mp hkernel)

/-- A directory is made behind the back of the thread. -/
def overlookedRun : List Growing :=
  [.server none, .server none, .mkdir ⟨media.path ++ ["b".toList], "x".toList⟩, .server none,
    .server none]

/-- Later on a file is written in it, and another directory made beside it. -/
def laterRun : List Growing :=
  [.create ⟨media.path ++ ["b".toList, "x".toList], "f".toList⟩,
    .close ⟨media.path ++ ["b".toList, "x".toList], "f".toList⟩,
    .mkdir ⟨media.path ++ ["b".toList], "y".toList⟩, .server none, .server none, .server none,
    .server none]

theorem overlooked_stays_written :
    ∃ s s', Run.exec Growth.step booting (bootingRun ++ overlookedRun) = some s ∧
      Run.exec Growth.step s laterRun = some s' ∧
      media.path ++ ["b".toList, "x".toList, "f".toList] ∈ s'.tree.files ∧
      (∀ d ∈ s'.tree.dirs, media.path ++ ["b".toList, "x".toList] <+: d.1 →
        (d.2 : Int) ∉ s'.inoti.kernel ∧ ⟨text d.1, d.2⟩ ∉ s'.inoti.watches) ∧
      ∀ item ∈ s'.inoti.db, Under "/opt/media/b/x".toList item → item ∈ s.inoti.db := by
  have hunwatched : ∀ s ∈ Run.exec Growth.step booting (bootingRun ++ overlookedRun),
      ∀ node ∈ s.inoti.watches, ¬ Under "/opt/media/b/x".toList node.name := by decide
  refine ⟨_, _, rfl, rfl, by decide, ?_⟩
  exact overlooked_stays (x := media.path ++ ["b".toList, "x".toList]) media booting_starts
    (show Run.exec Growth.step booting (bootingRun ++ overlookedRun) = some _ from rfl)
    ⟨rfl, _, rfl, rfl⟩ ⟨6, by decide⟩ (by decide) (hunwatched _ rfl)
    (show Run.exec Growth.step _ laterRun = some _ from rfl)

end Runs

end MediaServer.Inotify
