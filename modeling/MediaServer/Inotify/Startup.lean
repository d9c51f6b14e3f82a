import MediaServer.Inotify.Accounts

/-!
# The walk of `main` among programs that go on

`ms_inoti_add_watch_all_directory` adds the watch of a directory when it comes across it,
and opens the directory later. What is made in between is in the listing, and what is made
after `opendir` has its event. So the walk overlooks nothing, whatever is made meanwhile.
-/

namespace MediaServer.Inotify

open Scan Discovery

section Paths

variable {root : Text} {frames : List Frame}

theorem joinNames_names (root k : Text) (ks : List Text) (frames : List Frame) :
    joinNames (names root (⟨k, ks⟩ :: frames)) = joinNames (names root frames) ++ '/' :: k := by
  rw [names_cons]
  exact joinNames_concat root k _

/-- The climb takes the first of what is left to do. -/
theorem climb_todo (root : Text) (frames : List Frame) :
    match climb frames with
    | none => todo root frames = []
    | some frames' => joinNames (names root frames') :: todo root frames' = todo root frames := by
  induction frames with
  | nil => rfl
  | cons frame up ih =>
      obtain ⟨name, rbrothers⟩ := frame
      cases rbrothers with
      | nil => exact ih
      | cons r rbrothers =>
          rw [climb]
          simp only [joinNames_names]
          rfl

/-- So does the step from a directory that has been read. -/
theorem nextNode_todo (root : Text) (kids : List Text) (frames : List Frame) :
    match nextNode kids frames with
    | none => kids.map (fun k => joinNames (names root frames) ++ '/' :: k) ++
        todo root frames = []
    | some frames' => joinNames (names root frames') :: todo root frames' =
        kids.map (fun k => joinNames (names root frames) ++ '/' :: k) ++ todo root frames := by
  cases kids with
  | nil => exact climb_todo root frames
  | cons k ks =>
      rw [nextNode]
      simp only [joinNames_names]
      rfl

theorem fullPath_names {path : Text} (h : msGetFullPathFromNode (names root frames) = some path) :
    path = joinNames (names root frames) := by
  obtain ⟨heq, -⟩ := fullPathLoop_eq_some h
  exact heq

theorem fullPath_of_le (h : (joinNames (names root frames)).length ≤ msFilePathLenMax) :
    msGetFullPathFromNode (names root frames) = some (joinNames (names root frames)) := by
  have hle : ([] : Text).length + (joinNames (names root frames)).length ≤ msFilePathLenMax := by
    rwa [List.length_nil, Nat.zero_add]
  exact (fullPathLoop_eq [] root _).trans (if_pos hle)

end Paths

section Walk

variable {root : Root} {t : Tree} {walker : Walker Inoti} {path : Text} {ahead : List Text}

/-- A new node goes behind the children, and its path to the watches. -/
theorem walkEntry_dir {σ : Type} {fs : FileSystem} {record : σ → Text → σ} {rootText : Text}
    {nodes : List DirInfo} {a : Nat} {frames : List Frame} {kids : List Text} {w : Walker σ}
    {e : Dirent} {getPath : Text} (h : Scan.Reading rootText nodes a frames kids w)
    (hpath : msGetFullPathFromNode (names rootText frames) = some path) (hdir : e.isDir)
    (happend : msStrappend path e.name = some getPath) (hopens : fs.opens getPath) :
    ∃ w', walkEntry fs record path w e = some w' ∧
      Scan.Reading rootText nodes a frames (kids ++ [e.name]) w' ∧
      w'.recorded = record w.recorded (path ++ '/' :: e.name) := by
  have hnew := h.newNode e.name
  have hlength : w.nodes.length = nodes.length + kids.length := by
    rw [h.grown, List.length_append, length_brood]
  have hrecorded : (w.newNode e.name).recorded = w.recorded := by
    rw [Walker.newNode]
    split <;> rfl
  have hfull : msGetFullPathFromNode (names rootText frames ++ [e.name]) =
      some (path ++ '/' :: e.name) := by
    rw [← names_cons rootText e.name []]
    exact fullPath_kid hpath (by rw [happend]; rfl)
  rw [walkEntry, if_pos hdir, happend]
  simp only [if_pos hopens, Walker.addNode, hlength, hnew.getFullPath_kid, hfull]
  exact ⟨_, rfl, { hnew with calls := calls_concat hnew.calls hnew.depth },
    by rw [← hrecorded]; rfl⟩

theorem Reached.grow {i i' : Inoti} {paths : List Text} (h : Reached root t i paths)
    (hwatches : ∀ node ∈ i.watches, node ∈ i'.watches) : Reached root t i' paths := by
  intro path hpath
  obtain ⟨p, id, htext, hvisible, hmem, hwatch⟩ := h path hpath
  exact ⟨p, id, htext, hvisible, hmem, hwatches _ hwatch⟩

theorem Reached.length_le {i : Inoti} {paths : List Text} (h : Reached root t i paths)
    (hfits : ∀ p, Visible root.path p → t.IsDir p → Fits p) (hpath : path ∈ paths) :
    path.length ≤ msFilePathLenMax := by
  obtain ⟨p, id, rfl, hvisible, hmem, -⟩ := h path hpath
  exact (hfits p hvisible ⟨id, hmem⟩).trans (by decide)

/-- After a directory the walk goes on with what is ahead, or it is over. -/
theorem InDir.next (h : InDir root t walker path ahead)
    (hfits : ∀ p, Visible root.path p → t.IsDir p → Fits p) :
    ∃ server, Party.next walker = some server ∧ server.inoti = walker.recorded ∧
      (∀ x, ¬ server.Brings t x) ∧
      ((∃ scanner, server = .running scanner ∧ scanner.calls = [] ∧ ahead = []) ∨
        ∃ walker' path', server = .walking walker' (.before path') ∧
          Walking root t walker' (.before path') ahead) := by
  obtain ⟨nodes, a, frames, kids, hreading, hpath, hahead⟩ := h.reading
  obtain rfl := fullPath_names hpath
  have hnext := hreading.getNextPath_spec
  have htodo := nextNode_todo (text root.path) kids frames
  rw [Party.next]
  cases hplace : nextNode kids frames with
  | none =>
      rw [hplace] at hnext htodo
      obtain ⟨w', hnext, hrecorded, -⟩ := hnext
      rw [hnext]
      refine ⟨_, rfl, hrecorded, ?_, .inl ⟨_, rfl, rfl, hahead.trans htodo⟩⟩
      rintro x ⟨call, hcall, -⟩
      cases hcall
  | some frames' =>
      rw [hplace] at hnext htodo
      obtain ⟨w', hnext, hrecorded, hstands⟩ := hnext
      have hmem : joinNames (names (text root.path) frames') ∈ ahead := by
        rw [hahead, ← htodo]
        exact List.mem_cons_self
      have hfull : msGetFullPathFromNode (names (text root.path) frames') = some
          (joinNames (names (text root.path) frames')) :=
        fullPath_of_le (h.reached.length_le hfits (List.mem_cons_of_mem _ hmem))
      rw [hnext, hfull]
      refine ⟨_, rfl, hrecorded, fun x hbrings => hbrings, .inr ⟨_, _, rfl, ?_⟩⟩
      refine ⟨?_, frames', hstands, hfull, hahead.trans htodo.symm⟩
      intro q hq
      show ∃ p id, q = text p ∧ Visible root.path p ∧ (p, id) ∈ t.dirs ∧
        ⟨text p, id⟩ ∈ w'.recorded.watches
      rw [hrecorded]
      exact h.reached q (List.mem_cons_of_mem _ hq)

end Walk

section Steps

variable {root : Root} {wanted : Path → Prop} {ahead : List Text} {s : Growth}
variable {walker : Walker Inoti} {entry : Option Dirent} {server : Party} {path : Text} {dp : Dir}
variable {e : Dirent} {standing : Standing}

theorem Accounts.fits_dir (h : Accounts root wanted ahead s) {p : Path}
    (hvisible : Visible root.path p) (hdir : s.tree.IsDir p) : Fits p :=
  h.fits p ⟨hvisible, .inl hdir⟩

theorem Growth.inoti_of_walking (hserver : s.server = .walking walker standing) :
    s.inoti = walker.recorded := by
  rw [Growth.inoti, hserver]
  rfl

theorem Accounts.rootFollowed_of_walking (h : Accounts root wanted ahead s)
    (hserver : s.server = .walking walker standing) (hstanding : standing ≠ .start) :
    root.path ∈ Followed s.tree walker.recorded := by
  rw [← Growth.inoti_of_walking hserver]
  refine h.rootFollowed.resolve_left ?_
  rintro ⟨walker', heq⟩
  rw [hserver] at heq
  cases heq
  exact hstanding rfl

/-- The server moves on with the same tables. -/
theorem Accounts.turned (h : Accounts root wanted ahead s)
    (hserver : s.server = .walking walker standing) (hstanding : standing ≠ .start)
    {ahead' : List Text} (hinoti : server.inoti = walker.recorded)
    (hbrings : ∀ p name, Visible root.path p → p ++ [name] ∈ Present root wanted s.tree →
      standing.Brings s.tree (p ++ [name]) ∨ Ahead ahead (p ++ [name]) →
        server.Brings s.tree (p ++ [name]) ∨ Ahead ahead' (p ++ [name]))
    (hstage : Stage root wanted s.tree server ahead') :
    Accounts root wanted ahead' { s with server } := by
  have hold := Growth.inoti_of_walking hserver
  have hsame : server.inoti = s.inoti := hinoti.trans hold.symm
  refine h.moved (hsame ▸ h.sound.tables) (fun node hnode => hsame ▸ hnode)
    (fun item hitem => hsame ▸ hitem) (congrArg _ hsame) ?_ ?_ ?_ hstage
  · intro p name hvisible hx hcoming
    rw [hserver] at hcoming
    exact .inr (hbrings p name hvisible hx hcoming)
  · exact fun p name hp hnew => absurd (hsame ▸ hp) hnew
  · exact hinoti ▸ h.rootFollowed_of_walking hserver hstanding

theorem getFullPath_root {σ : Type} {w : Walker σ} {rootText : Text} (h : Stands rootText [] w) :
    w.getFullPath 0 = some (msGetFullPathFromNode (names rootText []),
      { w with calls := w.calls ++ [(w.depth, 0)] }) :=
  getFullPath_spec h.rootNode (show Located w.nodes 0 [] from rfl) h.depth

theorem Accounts.walk_start (h : Accounts root wanted ahead s)
    (hserver : s.server = .walking walker .start)
    (hstep : Party.walk s.tree.world walker entry .start = some server) :
    Accounts root wanted [text root.path] { s with server } := by
  have hstage := h.stage
  rw [hserver] at hstage
  obtain ⟨hwanted, rfl, hstands⟩ := hstage
  obtain ⟨id, hmem⟩ := h.rootDir
  have hvisible : Visible root.path root.path :=
    visible_iff.mpr ⟨[], (List.append_nil _).symm, List.forall_mem_nil _⟩
  have hfull : msGetFullPathFromNode (names (text root.path) []) = some (text root.path) := by
    have hle := (h.fits_dir hvisible ⟨id, hmem⟩).trans (by decide : _ ≤ msFilePathLenMax)
    rw [names, List.map_nil, List.reverse_nil, msGetFullPathFromNode]
    exact fullPathLoop_singleton (by rwa [List.length_nil, Nat.zero_add])
  have hcalled : Stands (text root.path) []
      { walker with calls := walker.calls ++ [(walker.depth, 0)] } :=
    { hstands with calls := calls_concat hstands.calls hstands.depth }
  simp only [Party.walk, getFullPath_root hstands, hfull, Option.bind_some, Walker.addNode,
    getFullPath_root hcalled, Option.map_some, Option.some.injEq, Option.elim_some] at hstep
  subst hstep
  have hold := Growth.inoti_of_walking hserver
  have hwatched := watched_addWatch (hold ▸ h.sound.tables) s.wf hmem
  have hroot : root.path ∈ Followed s.tree
      (walker.recorded.addWatch s.tree.world (text root.path)) := .inl ⟨id, hmem, hwatched⟩
  refine h.moved (hold ▸ h.sound.tables.addWatch _) (fun node hnode => ?_) (fun item hitem => ?_)
    ?_ ?_ ?_ hroot ?_
  · exact mem_addWatch (hold ▸ hnode)
  · rw [Party.inoti, addWatch_db, ← hold]
    exact hitem
  · rw [hold]
    exact (SameLoop.addWatch _).createFiles
  · rintro p name - - (hbrings | ⟨p', name', -, hpath⟩)
    · rw [hserver] at hbrings
      exact hbrings.elim
    · cases hpath
  · intro p name hp hnew _
    rw [hold] at hnew
    obtain ⟨-, htext⟩ := (followed_of_addWatch hp).resolve_left hnew
    exact .inr ⟨p, name, rfl, List.mem_singleton.mpr htext⟩
  · refine ⟨hwanted, ?_, [], ?_, hfull, rfl⟩
    · intro path hpath
      obtain rfl := List.mem_singleton.mp hpath
      exact ⟨root.path, id, rfl, hvisible, hmem, hwatched⟩
    · exact { hcalled with calls := calls_concat hcalled.calls hcalled.depth }

theorem Accounts.walk_before (h : Accounts root wanted ahead s)
    (hserver : s.server = .walking walker (.before path))
    (hstep : Party.walk s.tree.world walker entry (.before path) = some server) :
    ∃ ahead', Accounts root wanted ahead' { s with server } := by
  have hstage := h.stage
  rw [hserver] at hstage
  obtain ⟨hwanted, hreached, frames, hstands, hfull, rfl⟩ := hstage
  obtain ⟨p, id, rfl, hvisible, hmem, hwatch⟩ := hreached _ List.mem_cons_self
  rw [Party.walk, s.wf.opendir_text ⟨id, hmem⟩] at hstep
  obtain rfl := Option.some.inj hstep
  refine ⟨_, h.turned hserver (by rintro ⟨⟩) rfl ?_ ⟨hwanted, hreached, ?_⟩⟩
  · rintro q name - hx (hbrings | ⟨q', name', heq, hpath⟩)
    · exact hbrings.elim
    · cases List.mem_cons.mp hpath with
      | inl hpath =>
          obtain ⟨rfl, -⟩ := List.append_inj' heq rfl
          have hdir := s.wf.isDir_of_has (has_of_present hx)
          obtain rfl := s.wf.text_eq (.inl hdir) (.inl ⟨id, hmem⟩) hpath
          obtain ⟨e, he, rfl⟩ := exists_entry hx
          exact .inl ⟨q, e, he, rfl, rfl, List.not_mem_nil⟩
      | inr hpath => exact .inr ⟨q', name', heq, hpath⟩
  · exact ⟨walker.nodes, walker.tmpRoot, frames, [], hstands.reading, hfull, rfl⟩

theorem Accounts.walk_reading (h : Accounts root wanted ahead s)
    (hserver : s.server = .walking walker (.reading dp))
    (hstep : Party.walk s.tree.world walker entry (.reading dp) = some server) :
    ∃ ahead', Accounts root wanted ahead' { s with server } := by
  have hstage := h.stage
  rw [hserver] at hstage
  obtain ⟨hwanted, hdir⟩ := hstage
  obtain ⟨dp', hread, hstep⟩ := Option.bind_eq_some_iff.mp hstep
  cases entry with
  | none =>
      obtain ⟨hall, -⟩ := Dir.readdir_none hread
      obtain ⟨server', hnext, hinoti, hbrings, hgoes⟩ := hdir.next fun p => h.fits_dir
      obtain rfl := Option.some.inj (hnext.symm.trans hstep)
      refine ⟨ahead, h.turned hserver (by rintro ⟨⟩) hinoti ?_ ?_⟩
      · rintro p name - - (howes | hahead)
        · exact absurd howes (Dir.not_owes hall)
        · exact .inr hahead
      · rcases hgoes with ⟨scanner, rfl, hcalls, rfl⟩ | ⟨walker', path', rfl, hwalking⟩
        · refine ⟨rfl, fun dirPath entries hcall => ?_⟩
          rw [hcalls] at hcall
          cases hcall
        · exact ⟨hwanted, hwalking⟩
  | some e =>
      obtain ⟨hentry, -, rfl⟩ := Dir.readdir_some hread
      obtain rfl := Option.some.inj hstep
      refine ⟨ahead, h.turned hserver (by rintro ⟨⟩) rfl ?_ ?_⟩
      · rintro p name hvisible hx (howes | hahead)
        · refine .inl ?_
          show Standing.Brings _ _ _
          rcases howes.returned (e := e) with howes | ⟨rfl, hpath⟩
          · split
            · exact howes
            · exact .inl howes
          · have hdir : s.tree.IsDir (p ++ [e.name]) :=
              hx.2.resolve_right fun hfile => hwanted _ hfile.2
            have hhidden : ¬ e.hidden := shown_of_visible hvisible hx.1
            rw [if_neg hhidden]
            refine .inr ⟨hdir, ?_⟩
            rw [text_append, text_singleton, ← hpath]
        · exact .inr hahead
      · refine ⟨hwanted, ?_⟩
        show Walking _ _ _ (if e.hidden then _ else _) _
        split
        next => exact ⟨hdir.reached, hdir.reading⟩
        next hhidden => exact ⟨⟨hdir.reached, hdir.reading⟩, hhidden, hentry⟩

/-- The watch of a directory is added when the walk comes across it, and with the watch it is
ahead. -/
theorem Accounts.walk_entry_dir (h : Accounts root wanted ahead s) {p : Path}
    (hserver : s.server = .walking walker (.entry dp e)) (hwanted : ∀ q, ¬ wanted q)
    (hdir : InDir root s.tree walker dp.path ahead) (hpath : dp.path = text p)
    (hshown : Visible root.path (p ++ [e.name])) (hsubdir : s.tree.IsDir (p ++ [e.name]))
    (htype : e.dType = dtDir) {w : Walker Inoti}
    (hwalk : walkEntry s.tree.world.fs (fun i path => i.addWatch s.tree.world path) dp.path
      walker e = some w) :
    ∃ ahead', Accounts root wanted ahead' { s with server := .walking w (.reading dp) } := by
  obtain ⟨id, hmem⟩ := hsubdir
  have hisDir : e.isDir := by
    rw [Dirent.isDir, htype]
    decide
  have happend : msStrappend dp.path e.name = some (text (p ++ [e.name])) := by
    rw [hpath]
    exact msStrappend_text (h.fits_dir hshown ⟨id, hmem⟩)
  have hopens : s.tree.world.fs.opens (text (p ++ [e.name])) = true := by
    simp only [Tree.world, s.wf.dirAt_text hmem, Option.isSome_some]
  have htext : dp.path ++ '/' :: e.name = text (p ++ [e.name]) := by
    rw [text_append, text_singleton, hpath]
  obtain ⟨nodes, a, frames, kids, hreading, hfull, hahead⟩ := hdir.reading
  obtain ⟨w', hw, hreading', hrecorded⟩ := walkEntry_dir hreading hfull hisDir happend hopens
  obtain rfl := Option.some.inj (hw.symm.trans hwalk)
  have hold := Growth.inoti_of_walking hserver
  rw [htext] at hrecorded
  have hwatched : ⟨text (p ++ [e.name]), id⟩ ∈ w'.recorded.watches := by
    rw [hrecorded]
    exact watched_addWatch (hold ▸ h.sound.tables) s.wf hmem
  have hgrown : ∀ node ∈ walker.recorded.watches, node ∈ w'.recorded.watches := by
    rw [hrecorded]
    exact fun node hnode => mem_addWatch hnode
  have hdb : w'.recorded.db = walker.recorded.db := by
    rw [hrecorded]
    exact addWatch_db
  have hnew : text (p ++ [e.name]) ∈ (kids ++ [e.name]).map (fun k => dp.path ++ '/' :: k) := by
    rw [← htext]
    exact List.mem_map_of_mem (List.mem_append_right _ (List.mem_singleton_self _))
  have hmore : ∀ path ∈ ahead, path ∈
      (kids ++ [e.name]).map (fun k => dp.path ++ '/' :: k) ++ todo (text root.path) frames := by
    rw [hahead, List.map_append, List.append_assoc]
    intro path hpath
    exact (List.mem_append.mp hpath).elim (List.mem_append_left _)
      fun hpath => List.mem_append_right _ (List.mem_append_right _ hpath)
  refine ⟨_, h.moved ?_ (hold ▸ hgrown) (hold ▸ fun item hitem => hdb ▸ hitem) ?_ ?_ ?_
    (followed_mono hgrown (fun item hitem => hdb ▸ hitem)
      (h.rootFollowed_of_walking hserver (by rintro ⟨⟩)))
    ⟨hwanted, ?_, nodes, a, frames, kids ++ [e.name], hreading', hfull, rfl⟩⟩
  · rw [Party.inoti, hrecorded, ← hold]
    exact h.sound.tables.addWatch _
  · rw [Party.inoti, hrecorded, hold]
    exact (SameLoop.addWatch _).createFiles
  · rintro q name - hx (hbrings | ⟨q', name', heq, hq⟩)
    · rw [hserver] at hbrings
      rcases hbrings with howes | ⟨hsub, hsubText⟩
      · exact .inr (.inl howes)
      · have heq := s.wf.text_eq (.inl hsub) (.inl ⟨id, hmem⟩) (hsubText.symm.trans htext)
        rw [heq]
        exact .inl (.inl ⟨id, hmem, hwatched⟩)
    · exact .inr (.inr ⟨q', name', heq, hmore _ hq⟩)
  · intro q name hq hnot _
    rw [Party.inoti, hrecorded, ← hold] at hq
    obtain ⟨hqdir, hqtext⟩ := (followed_of_addWatch hq).resolve_left hnot
    exact .inr ⟨q, name, rfl, List.mem_append_left _ (hqtext ▸ hnew)⟩
  · intro path hmore
    have hcases : path ∈ dp.path :: ahead ∨ path = text (p ++ [e.name]) := by
      rw [hahead, ← htext]
      simp only [List.map_append, List.map_singleton, List.mem_cons, List.mem_append] at hmore ⊢
      grind
    rcases hcases with hold | rfl
    · exact hdir.reached.grow hgrown path hold
    · exact ⟨_, id, rfl, hshown, hmem, hwatched⟩

theorem Accounts.walk_entry (h : Accounts root wanted ahead s)
    (hserver : s.server = .walking walker (.entry dp e))
    (hstep : Party.walk s.tree.world walker entry (.entry dp e) = some server) :
    ∃ ahead', Accounts root wanted ahead' { s with server } := by
  have hstage := h.stage
  rw [hserver] at hstage
  obtain ⟨hwanted, hdir, hhidden, he⟩ := hstage
  obtain ⟨p, id, hpath, hvisible, hmem, hwatch⟩ := hdir.reached _ List.mem_cons_self
  obtain ⟨walker', hwalk, rfl⟩ := Option.map_eq_some_iff.mp hstep
  rw [hpath, entries_text s.wf ⟨id, hmem⟩, Tree.mem_children] at he
  rcases he with ⟨hsubdir, htype⟩ | ⟨hfile, htype⟩
  · have hshown : Visible root.path (p ++ [e.name]) :=
      (visible_append hvisible).mpr fun name hname => by rwa [List.mem_singleton.mp hname]
    exact h.walk_entry_dir hserver hwanted hdir hpath hshown hsubdir htype hwalk
  -- the walk passes a file by, and no file is wanted while it goes on
  · have hskip : ¬ e.isDir := by
      rw [Dirent.isDir, htype]
      decide
    rw [walkEntry, if_neg hskip] at hwalk
    obtain rfl := Option.some.inj hwalk
    refine ⟨ahead, h.turned hserver (by rintro ⟨⟩) rfl ?_ ⟨hwanted, hdir⟩⟩
    rintro q name - hx ((howes | ⟨hsub, htext⟩) | hahead)
    · exact .inl howes
    · rw [hpath, ← text_singleton, ← text_append] at htext
      have heq := s.wf.text_eq (.inr hfile) (.inl hsub) htext
      exact absurd (heq ▸ hsub) (s.wf.disjoint _ hfile)
    · exact .inr hahead

/-- Whatever is made while `main` walks, nothing is overlooked. -/
theorem Accounts.walk (h : Accounts root wanted ahead s)
    (hserver : s.server = .walking walker standing)
    (hstep : Party.walk s.tree.world walker entry standing = some server) :
    ∃ ahead', Accounts root wanted ahead' { s with server } := by
  cases standing with
  | start => exact ⟨_, h.walk_start hserver hstep⟩
  | before path => exact h.walk_before hserver hstep
  | reading dp => exact h.walk_reading hserver hstep
  | entry dp e => exact h.walk_entry hserver hstep

end Steps

end MediaServer.Inotify
