import MediaServer.Foundation.Run
import MediaServer.Inotify.Decoding

/-!
# The events that get through

A record with an ordinary name, from a directory that the watch list knows, should reach
the branch of its mask with its name. The test that stands in the way compares the length
of the name field, padding included, with the longest name.
-/

namespace MediaServer.Inotify

/-- A record with a name that is neither hidden nor one of the control names. -/
structure Ordinary (r : KernelEvent) : Prop where
  wd_pos : 1 ≤ r.wd
  name_ne_nil : r.name ≠ []
  visible : r.name.head? ≠ some '.'
  not_poweroff : r.name ≠ poweroffDirName
  not_end : r.name ≠ fileOperationEnd

instance : DecidablePred Ordinary := fun r =>
  decidable_of_iff (1 ≤ r.wd ∧ r.name ≠ [] ∧ r.name.head? ≠ some '.' ∧
      r.name ≠ poweroffDirName ∧ r.name ≠ fileOperationEnd)
    ⟨fun ⟨hwd, hname, hvisible, hoff, hend⟩ => ⟨hwd, hname, hvisible, hoff, hend⟩,
      fun h => ⟨h.wd_pos, h.name_ne_nil, h.visible, h.not_poweroff, h.not_end⟩⟩

/-- The descriptor is in the watch list, and the full path fits in the buffer. -/
def Locates (s : Inoti) (x : World × KernelEvent) : Prop :=
  (∃ node ∈ s.watches, node.wd = x.2.wd) ∧
    ∀ node ∈ s.watches, node.wd = x.2.wd →
      (node.name ++ '/' :: x.2.name).length < msFilePathLenMax

instance (s : Inoti) (x : World × KernelEvent) : Decidable (Locates s x) :=
  inferInstanceAs (Decidable ((∃ node ∈ s.watches, node.wd = x.2.wd) ∧
    ∀ node ∈ s.watches, node.wd = x.2.wd →
      (node.name ++ '/' :: x.2.name).length < msFilePathLenMax))

/-- The iteration for a record with a name, which no other record has a part in. -/
def recordStep (s : Inoti) (x : World × KernelEvent) : Option Inoti :=
  match iteration x.1 s (x.2.shown []) with
  | (.powerOff, _) => none
  | (_, t) => some t

def Handling.dispatch : Handling → Option (Branch × Int × Text)
  | .dispatched branch wd name _ => some (branch, wd, name)
  | _ => none

/-- The offset of every record, with the dispatch that is due there. -/
def dispatches : Nat → List (World × KernelEvent) → List (Nat × Option (Branch × Int × Text))
  | _, [] => []
  | i, (_, r) :: records =>
      (i, some (branch r.mask, r.wd, r.name)) :: dispatches (i + r.encode.length) records

/-- The loop ends, has looked at every record once, in order and at its offset, and has
dispatched each of them. -/
def Dispatches (d : Delivery) (s : Inoti) (left : Text) : Prop :=
  ∃ t iterations, d.decode s left = some (t, iterations) ∧
    iterations.map (fun it => (it.offset, it.handling.dispatch)) = dispatches 0 d.records

/-- The longest name whose field, with its padding, passes the test. -/
def longestName : Nat := 239

section Record

variable {w : World} {s : Inoti} {r : KernelEvent}

theorem len_le_iff (h : Ordinary r) : r.len ≤ msFileNameLenMax ↔ r.name.length ≤ longestName := by
  have hsize : inotiEventSize = 16 := rfl
  have hmax : msFileNameLenMax = 255 := rfl
  have hlongest : longestName = 239 := rfl
  rw [KernelEvent.len, if_neg h.name_ne_nil, hsize, hmax, hlongest]
  omega

/-- The iteration behind the tests for the control names. -/
theorem iteration_of_ordinary (h : Ordinary r) (hon : w.powerOff = false) (after : Text) :
    ∃ event : Event, event.wd = r.wd ∧ event.mask = r.mask ∧ event.len = r.len ∧
      event.name = r.name ∧
      iteration w s (r.shown after) =
        match s.received event with
        | none => (.ignored, s)
        | some (name, path) =>
            (.dispatched (branch r.mask) r.wd name (s.serviceCalls w event),
              s.handle w event name path) := by
  have hname : (r.shown after).name = r.name := if_neg h.name_ne_nil
  have hlen : (r.shown after).name.length < (r.shown after).len := by
    rw [hname]
    exact r.name_lt_len h.name_ne_nil
  refine ⟨(r.shown after).toEvent hlen, rfl, rfl, rfl, hname, ?_⟩
  rw [iteration, if_neg (by simp [hon, hname, h.not_poweroff]),
    if_neg (by rw [hname]; exact h.not_end), dif_pos hlen]
  rfl

theorem received_eq {e : Event} (hvisible : e.name.head? ≠ some '.') (hwd : 1 ≤ e.wd)
    (hlen : e.len ≠ 0) :
    s.received e =
      if e.len ≤ msFileNameLenMax then
        (msStrcopy (msFileNameLenMax + 1) e.name).bind fun name =>
          (s.getFullPath e.wd name).map fun path => (name, path)
      else none := by
  rw [Inoti.received, if_neg (by simp only [hvisible, false_or]; omega)]
  simp [hlen]

/-- A located record gets its path. -/
theorem getFullPath_of_locates (h : Locates s (w, r)) :
    ∃ path, s.getFullPath r.wd r.name = some path := by
  obtain ⟨node, hnode, hwd, hfind⟩ := findNode_of_mem h.1
  have hfits := h.2 node hnode hwd
  simp only [List.length_append, List.length_cons] at hfits
  rw [Inoti.getFullPath, hfind, Option.bind_some, msStrappend, if_pos (by omega)]
  exact ⟨_, rfl⟩

/-- The dispatch depends on the length of the name alone. -/
theorem dispatch_iteration (h : Ordinary r) (hon : w.powerOff = false) (hlocates : Locates s (w, r))
    (after : Text) :
    (iteration w s (r.shown after)).1.dispatch =
      if r.name.length ≤ longestName then some (branch r.mask, r.wd, r.name) else none := by
  obtain ⟨event, hwd, hmask, hlen, hname, hiteration⟩ := iteration_of_ordinary (s := s) h hon after
  have hne : event.len ≠ 0 := by
    have hlt := r.name_lt_len h.name_ne_nil
    omega
  rw [hiteration, received_eq (by rw [hname]; exact h.visible) (by rw [hwd]; exact h.wd_pos) hne,
    hlen, hname, hwd]
  by_cases hshort : r.name.length ≤ longestName
  · have hcopy : msStrcopy (msFileNameLenMax + 1) r.name = some r.name := by
      have hmax : msFileNameLenMax = 255 := rfl
      have hlongest : longestName = 239 := rfl
      rw [msStrcopy, if_pos (by omega), List.take_of_length_le (by omega)]
    obtain ⟨path, hpath⟩ := getFullPath_of_locates hlocates
    rw [if_pos ((len_le_iff h).mpr hshort), if_pos hshort, hcopy, Option.bind_some, hpath]
    rfl
  · rw [if_neg (mt (len_le_iff h).mp hshort), if_neg hshort]
    rfl

end Record

/-- The records that the loop dispatches: no step of the loop changes what is due at
another record. -/
theorem recordLoop_dispatches_iff (left : Text) {records : List (World × KernelEvent)} {s : Inoti}
    (hordinary : ∀ x ∈ records, Ordinary x.2) (hlocates : Run.EachStep recordStep Locates s records)
    (i : Nat) :
    (recordLoop left records i s).2.map (fun it => (it.offset, it.handling.dispatch)) =
        dispatches i records ↔
      ∀ x ∈ records, x.1.powerOff = false ∧ x.2.name.length ≤ longestName := by
  induction records generalizing i s with
  | nil => simp [recordLoop, dispatches]
  | cons x records ih =>
      obtain ⟨w, r⟩ := x
      have hr : Ordinary r := hordinary (w, r) List.mem_cons_self
      cases hpower : w.powerOff with
      | true =>
          rw [recordLoop_of_leaves (iteration_of_powerOff hpower)]
          refine iff_of_false (by simp [dispatches, Handling.dispatch]) fun hall => ?_
          have hon := (hall (w, r) List.mem_cons_self).1
          rw [hpower] at hon
          cases hon
      | false =>
          obtain ⟨⟨handling, t⟩, houtcome⟩ :
              ∃ outcome, iteration w s (r.shown (encodeAll records ++ left)) = outcome := ⟨_, rfl⟩
          have hstays : handling ≠ .powerOff := by
            have hiff := @iteration_powerOff_iff w s (r.shown (encodeAll records ++ left))
            have hname : (r.shown (encodeAll records ++ left)).name = r.name :=
              if_neg hr.name_ne_nil
            rw [houtcome, hname] at hiff
            exact hiff.not.mpr (by simp [hpower, hr.not_poweroff])
          have hstep : recordStep s (w, r) = some t := by
            rw [recordStep, r.shown_of_name hr.name_ne_nil [] (encodeAll records ++ left), houtcome]
            cases handling with
            | powerOff => exact absurd rfl hstays
            | announced | ignored | dispatched => rfl
          obtain ⟨hhere, hrest⟩ := hlocates t hstep
          have hdispatch := dispatch_iteration hr hpower hhere (encodeAll records ++ left)
          rw [houtcome] at hdispatch
          rw [recordLoop_cons houtcome hstays, List.map_cons, dispatches, List.cons.injEq,
            List.forall_mem_cons, hdispatch,
            ih (fun y hy => hordinary y (List.mem_cons_of_mem _ hy)) hrest]
          refine and_congr ?_ Iff.rfl
          by_cases hshort : r.name.length ≤ longestName
          · simp [hshort, hpower]
          · simp [hshort]

/-- A read of ordinary records is decoded exactly if and only if every name fits in the
tested length with its padding, and the power stays on. -/
theorem decoding_exact_iff (d : Delivery) (s : Inoti) (left : Text)
    (hordinary : ∀ x ∈ d.records, Ordinary x.2)
    (hlocates : Run.EachStep recordStep Locates s d.records) :
    Dispatches d s left ↔
      ∀ x ∈ d.records, x.1.powerOff = false ∧ x.2.name.length ≤ longestName := by
  rw [← recordLoop_dispatches_iff (left ++ [Bytes.nul]) hordinary hlocates 0, Dispatches,
    d.decode_eq]
  constructor
  · rintro ⟨t, iterations, hloop, hdispatches⟩
    rwa [Option.some.inj hloop]
  · exact fun hdispatches => ⟨_, _, rfl, hdispatches⟩

/-- An event of the directory with the descriptor 1. -/
def namedRecord (mask : Nat) (name : Text) (hmask : mask < 2 ^ 32) (hnul : Bytes.nul ∉ name)
    (hlength : name.length ≤ msFileNameLenMax) : KernelEvent where
  wd := 1
  mask := mask
  cookie := 0
  name := name
  wd_range := one_wd_range
  mask_lt := hmask
  cookie_lt := zero_cookie_lt
  nul_not_mem := hnul
  name_length_le := hlength

def quietWorld : World where
  fs := { entries := fun _ => [], opens := fun _ => false }
  inotifyAddWatch := fun _ => 0

theorem length_encodeAll_le (records : List (World × KernelEvent)) :
    (encodeAll records).length ≤ records.length * 272 := by
  induction records with
  | nil => exact Nat.zero_le _
  | cons x records ih =>
      have hlen := x.2.len_le
      have hsize : inotiEventSize = 16 := rfl
      show (x.2.encode ++ encodeAll records).length ≤ _
      rw [List.length_append, x.2.length_encode, List.length_cons]
      omega

def phoneInoti : Inoti := { watches := [⟨msRootPathInternal, 1⟩] }

theorem nul_not_mem_replicate (n : Nat) : Bytes.nul ∉ List.replicate n 'a' :=
  fun hmem => absurd (List.eq_of_mem_replicate hmem) (by decide)

/-- The longest name that gets through. -/
def edgeRecord : KernelEvent :=
  namedRecord inCloseWrite (List.replicate longestName 'a') (by decide) (nul_not_mem_replicate _)
    (by rw [List.length_replicate]; decide)

/-- A directory and a file are made, a file is written, another one removed. -/
def importDelivery : Delivery where
  records :=
    [(quietWorld, namedRecord (inIsDir ||| inCreate) "album".toList (by decide) (by decide)
        (by decide)),
      (quietWorld, namedRecord inCreate "photo.jpg".toList (by decide) (by decide) (by decide)),
      (quietWorld, edgeRecord),
      (quietWorld, namedRecord inDelete "old.jpg".toList (by decide) (by decide) (by decide))]
  length_le := (length_encodeAll_le _).trans (by decide)

theorem decoding_exact_import : Dispatches importDelivery phoneInoti [] :=
  (decoding_exact_iff importDelivery phoneInoti [] (by decide +kernel) (by decide +kernel)).mpr
    (by decide +kernel)

/-- Of the allowed lengths of a name, 240 is the first one that is too long. -/
def longRecord : KernelEvent :=
  namedRecord inCreate (List.replicate (longestName + 1) 'a') (by decide)
    (nul_not_mem_replicate _) (by rw [List.length_replicate]; decide)

def longDelivery : Delivery where
  records := [(quietWorld, longRecord)]
  length_le := (length_encodeAll_le _).trans (by decide)

/-- The creation of a file with a long name goes unnoticed. -/
theorem decoding_inexact :
    Ordinary longRecord ∧ Locates phoneInoti (quietWorld, longRecord) ∧
      ¬ Dispatches longDelivery phoneInoti [] := by
  have hlength : longRecord.name.length = 240 := List.length_replicate
  have hname : ∀ name : Text, name.length ≠ 240 → longRecord.name ≠ name := fun _ hne heq =>
    hne (heq ▸ hlength)
  have hordinary : Ordinary longRecord := by
    refine ⟨by decide, hname _ (by decide), ?_, hname _ (by decide), hname _ (by decide)⟩
    show (List.replicate (longestName + 1) 'a').head? ≠ some '.'
    rw [List.head?_replicate]
    decide
  have hlocates : Locates phoneInoti (quietWorld, longRecord) := by
    refine ⟨⟨_, List.mem_singleton_self _, rfl⟩, fun node hnode _ => ?_⟩
    obtain rfl := List.mem_singleton.mp hnode
    rw [List.length_append, List.length_cons, hlength]
    decide
  refine ⟨hordinary, hlocates, fun ⟨t, iterations, hloop, hdispatches⟩ => ?_⟩
  rw [Delivery.decode_eq] at hloop
  have hall := (recordLoop_dispatches_iff ([] ++ [Bytes.nul])
    (fun x hx => List.mem_singleton.mp hx ▸ hordinary) (fun _ _ => ⟨hlocates, trivial⟩) 0).mp
    ((congrArg _ (congrArg Prod.snd (Option.some.inj hloop))).trans hdispatches)
  have hshort := (hall (quietWorld, longRecord) (List.mem_singleton_self _)).2
  rw [hlength] at hshort
  exact absurd hshort (by decide)

end MediaServer.Inotify
