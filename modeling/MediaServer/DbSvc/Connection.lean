import MediaServer.DbSvc.Storage
import MediaServer.Foundation.Channels
import MediaServer.Scan.Array
import MediaServer.Scan.Connections

/-!
# The connections to the plug-ins

A plug-in commits the items of a bundle together: what has been put into one is safe when
its end has been called. `ms_scan_thread` puts the items of a scan into a bundle, those that
it finds again into a second one inside it, and `ms_inoti_thread` the moves of a directory
into a third. Which calls may come over a connection, and when, is a protocol of its own.

Below are the protocol, the calls that the functions of `media-server-db-svc.c` make over
the connections of one thread, and what they do to these in the protocol. A connection is
named by the number of slots that the thread has handed to `CONNECT` before it.
-/

namespace MediaServer.DbSvc

open Inotify Scan

/-- The three pairs of entries that begin and end a bundle. -/
inductive Bundle where
  | insert
  | validity
  | move
deriving DecidableEq, Repr

/-- `MS_REGISTER_COUNT`, `MS_VALID_COUNT` and `MS_MOVE_COUNT`. -/
def Bundle.count : Bundle → Nat
  | .insert => 100
  | .validity => 100
  | .move => 100

/-- What a plug-in is called for over a connection. -/
inductive Talk where
  | connect
  | disconnect
  | bundleBegin (bundle : Bundle) (count : Nat)
  | bundleEnd (bundle : Bundle)
  | item (call : ItemCall)
  | setAllValidity (storageType : StorageType) (valid : Bool)
  | deleteAll (storageType : StorageType)
  | deleteInvalidItems (storageType : StorageType)
deriving DecidableEq, Repr

/-! ### What a connection may carry -/

inductive Phase where
  | fresh
  | live
  | closed
deriving DecidableEq, Repr

/-- A connection with the bundles that are open. -/
structure Session where
  phase : Phase := .fresh
  insert : Bool := false
  validity : Bool := false
  move : Bool := false
deriving DecidableEq, Repr

namespace Session

/-- No bundle is open. -/
def idle (s : Session) : Bool := !s.insert && !s.validity && !s.move

/-- Where a call about an item belongs: the calls of a scan into its bundles, those of a
rename into its bundle, the others outside of all bundles. -/
def takes (s : Session) : ItemCall → Bool
  | .exist .. => true
  | .insertBatch .. => s.insert
  | .setValidity .. => s.insert && s.validity
  | .move .. => s.move
  | .insert .. | .delete .. | .refresh .. => s.idle

def hearLive (s : Session) : Talk → Option Session
  | .connect => none
  | .disconnect => some { s with phase := .closed }
  | .bundleBegin .insert _ => if s.idle then some { s with insert := true } else none
  | .bundleBegin .validity _ =>
      if s.insert && !s.validity then some { s with validity := true } else none
  | .bundleBegin .move _ => if s.idle then some { s with move := true } else none
  | .bundleEnd .insert => if s.insert then some { s with insert := false } else none
  | .bundleEnd .validity =>
      if s.validity && !s.insert then some { s with validity := false } else none
  | .bundleEnd .move => if s.move then some { s with move := false } else none
  | .item call => if s.takes call then some s else none
  | .setAllValidity _ _ => if !s.validity && !s.move then some s else none
  | .deleteAll _ | .deleteInvalidItems _ => if s.idle then some s else none

/-- The protocol. A connection that is closed may only be closed again. -/
def hear (s : Session) (talk : Talk) : Option Session :=
  match s.phase with
  | .fresh => if talk = .connect then some { s with phase := .live } else none
  | .live => s.hearLive talk
  | .closed => if talk = .disconnect then some s else none

/-- A new connection. -/
def connected : Session := { phase := .live }

/-- Inside the bundles of a scan. -/
def scanning (scanType : ScanType) : Session :=
  { phase := .live, insert := true, validity := scanType = .part }

/-- Inside the bundle of a rename. -/
def moving : Session := { phase := .live, move := true }

/-- No bundle is open, and the connection has been made at some time. -/
def Stale (s : Session) : Prop := s.phase ≠ .fresh ∧ s.idle = true

end Session

/-! ### The calls of a thread -/

/-- The connections of one thread, and its calls. -/
structure Talker where
  /-- The variable with the handles. -/
  handle : List (Option Nat) := []
  /-- The name of the next connection. -/
  serial : Nat := 0
  /-- The calls that were made, each with the slot it went through. -/
  said : List (Option Nat × Talk) := []
  /-- The calls that come before anything else the thread does. -/
  todo : List (Option Nat × Talk) := []

/-- The call behind an entry of the account. -/
def talkOf : Ledger.Entry Nat → Option (Option Nat × Talk)
  | .acquire k => some (some k, .connect)
  | .release slot _ => some (slot, .disconnect)
  | .pass _ | .settle => none

namespace Talker

variable (t : Talker)

def say (talks : List (Option Nat × Talk)) : Talker := { t with todo := t.todo ++ talks }

/-- The next call. -/
def talk : Option Talker :=
  match t.todo with
  | [] => none
  | x :: todo => some { t with said := t.said ++ [x], todo }

/-- One call for every slot, whatever the plug-ins answer. -/
def toAll (talk : Talk) : List (Option Nat × Talk) := t.handle.map fun slot => (slot, talk)

/-- The first call that fails ends the loop. -/
def untilFailure (answers : Nat → Bool) (talk : Talk) : List (Option Nat × Talk) :=
  (t.handle.take (firstFailure answers t.handle.length 0 + 1)).map fun slot => (slot, talk)

/-- The calls about items, through the slots of the plug-ins. -/
def through (trace : Trace) : List (Option Nat × Talk) :=
  trace.map fun x => ((t.handle[x.1]?).join, .item x.2)

/-- `ms_connect_db`; a `CONNECT` that fails makes no connection. -/
def msConnectDb (libNum : Nat) (answers : Nat → Bool) : Talker × Bool :=
  let (handle, entries, ok) := connectLoop answers t.serial libNum 0
  let t := { t with handle, serial := t.serial + libNum }
  (t.say (entries.filterMap talkOf), ok)

/-- `if (handle) ms_disconnect_db(&handle)`. -/
def msDisconnectDb (answers : Nat → Bool) : Talker :=
  let (entries, ok) := disconnectLoop answers t.handle 0
  let t := t.say (entries.filterMap talkOf)
  if ok then { t with handle := [] } else t

def msRegisterStart : Talker := t.say (t.toAll (.bundleBegin .insert (Bundle.count .insert)))
def msRegisterEnd : Talker := t.say (t.toAll (.bundleEnd .insert))
def msValidateStart : Talker := t.say (t.toAll (.bundleBegin .validity (Bundle.count .validity)))
def msValidateEnd : Talker := t.say (t.toAll (.bundleEnd .validity))
def msMoveStart : Talker := t.say (t.toAll (.bundleBegin .move (Bundle.count .move)))
def msMoveEnd : Talker := t.say (t.toAll (.bundleEnd .move))

def msInvalidateAllItems (storeType : StorageType) : Talker :=
  t.say (t.toAll (.setAllValidity storeType false))

def msDeleteAllItems (answers : Nat → Bool) (storeType : StorageType) : Talker :=
  t.say (t.untilFailure answers (.deleteAll storeType))

def msDeleteInvalidItems (answers : Nat → Bool) (storeType : StorageType) : Talker :=
  t.say (t.untilFailure answers (.deleteInvalidItems storeType))

/-- `ms_register_start`, and `ms_validate_start` for a scan that validates. -/
def startScan (scanType : ScanType) : Talker :=
  if scanType = .part then t.msRegisterStart.msValidateStart else t.msRegisterStart

/-- `ms_register_end`, and `ms_validate_end` for a scan that validates. -/
def endScan (scanType : ScanType) : Talker :=
  if scanType = .part then t.msRegisterEnd.msValidateEnd else t.msRegisterEnd

end Talker

/-! ### The connections of one thread -/

namespace Talker

/-- All calls, with those that are sure to come. -/
def line (t : Talker) : List (Option Nat × Talk) := t.said ++ t.todo

/-- Where a connection is in the protocol once they have all been made. -/
def session (t : Talker) (k : Nat) : Option Session :=
  Channels.stateOf Session.hear {} t.line (some k)

/-- The connections in the variable are at a certain place in the protocol, and no bundle is
open on the others. -/
structure At (t : Talker) (W : Session → Prop) : Prop where
  new : ∀ k, t.serial ≤ k → Channels.carried (some k) t.line = []
  mine : ∀ k, some k ∈ t.handle → k < t.serial ∧ ∃ u, t.session k = some u ∧ W u
  others : ∀ k, some k ∉ t.handle → ∃ u, t.session k = some u ∧ u.idle = true
  once : ∀ k, t.handle.count (some k) ≤ 1

variable {t t' : Talker} {W W' : Session → Prop} {talks : List (Option Nat × Talk)}
  {message : Talk} {answers : Nat → Bool}

theorem At.mono (h : t.At W) (imp : ∀ u, W u → W' u) : t.At W' where
  new := h.new
  mine k hk := by
    obtain ⟨hlt, u, hu, hW⟩ := h.mine k hk
    exact ⟨hlt, u, hu, imp u hW⟩
  others := h.others
  once := h.once

theorem At.inOrder (h : t.At W) (k : Nat) : ∃ u, t.session k = some u := by
  by_cases hk : some k ∈ t.handle
  · obtain ⟨-, u, hu, -⟩ := h.mine k hk
    exact ⟨u, hu⟩
  · obtain ⟨u, hu, -⟩ := h.others k hk
    exact ⟨u, hu⟩

theorem At.idle (h : t.At W) (idle : ∀ u, W u → u.idle = true) (k : Nat) :
    ∃ u, t.session k = some u ∧ u.idle = true := by
  by_cases hk : some k ∈ t.handle
  · obtain ⟨-, u, hu, hW⟩ := h.mine k hk
    exact ⟨u, hu, idle u hW⟩
  · exact h.others k hk

theorem line_say : (t.say talks).line = t.line ++ talks := (List.append_assoc ..).symm

theorem session_say (k : Nat) :
    (t.say talks).session k = Channels.stateOf Session.hear {} (t.line ++ talks) (some k) := by
  rw [session, line_say]

theorem line_talk (h : t.talk = some t') : t'.line = t.line := by
  rw [Talker.talk] at h
  cases htodo : t.todo with
  | nil => rw [htodo] at h; cases h
  | cons x todo =>
      rw [htodo] at h
      obtain rfl := Option.some.inj h
      rw [line, line, htodo, List.append_assoc, List.singleton_append]

theorem At.talk (h : t.At W) (htalk : t.talk = some t') : t'.At W := by
  have hline : t'.line = t.line := line_talk htalk
  have hsession : t'.session = t.session := by
    funext k
    rw [session, session, hline]
  have hsame : t'.handle = t.handle ∧ t'.serial = t.serial := by
    rw [Talker.talk] at htalk
    cases htodo : t.todo with
    | nil => rw [htodo] at htalk; cases htalk
    | cons x todo =>
        rw [htodo] at htalk
        obtain rfl := Option.some.inj htalk
        exact ⟨rfl, rfl⟩
  obtain ⟨hhandle, hserial⟩ := hsame
  constructor
  · rw [hserial, hline]
    exact h.new
  · rw [hhandle, hserial, hsession]
    exact h.mine
  · rw [hhandle, hsession]
    exact h.others
  · rw [hhandle]
    exact h.once

/-- Calls that the connections of the variable take where they are. -/
theorem At.say (h : t.At W) (slots : ∀ x ∈ talks, x.1 = none ∨ x.1 ∈ t.handle)
    (keeps : ∀ x ∈ talks, ∀ u, W u → ∃ u', u.hear x.2 = some u' ∧ W u') : (t.say talks).At W := by
  have hout : ∀ k, some k ∉ t.handle → ∀ x ∈ talks, x.1 ≠ some k := by
    intro k hk x hx heq
    rcases slots x hx with hnone | hmem
    · rw [heq] at hnone
      cases hnone
    · exact hk (heq ▸ hmem)
  constructor
  · intro k hk
    have hnot : some k ∉ t.handle := fun hmem => Nat.not_lt.mpr hk (h.mine k hmem).1
    rw [line_say, Channels.carried_append, h.new k hk, Channels.carried_eq_nil (hout k hnot)]
    rfl
  · intro k hk
    obtain ⟨hlt, hmine⟩ := h.mine k hk
    refine ⟨hlt, ?_⟩
    rw [session_say]
    exact Channels.stateOf_of_keeps keeps hmine
  · intro k hk
    rw [session_say, Channels.stateOf_append_of_notMem (hout k hk)]
    exact h.others k hk
  · exact h.once

/-- A call for every slot. -/
theorem At.toAll (h : t.At W) (moves : ∀ u, W u → ∃ u', u.hear message = some u' ∧ W' u') :
    (t.say (t.toAll message)).At W' := by
  have hout : ∀ k, some k ∉ t.handle → ∀ x ∈ t.toAll message, x.1 ≠ some k := by
    intro k hk x hx heq
    obtain ⟨slot, hslot, rfl⟩ := List.mem_map.mp hx
    exact hk (heq ▸ hslot)
  constructor
  · intro k hk
    have hnot : some k ∉ t.handle := fun hmem => Nat.not_lt.mpr hk (h.mine k hmem).1
    rw [line_say, Channels.carried_append, h.new k hk, Channels.carried_eq_nil (hout k hnot)]
    rfl
  · intro k hk
    obtain ⟨hlt, hmine⟩ := h.mine k hk
    refine ⟨hlt, ?_⟩
    have hone : t.handle.count (some k) = 1 :=
      le_antisymm (h.once k) (List.one_le_count_iff.mpr hk)
    rw [session_say]
    exact Channels.stateOf_map hone moves hmine
  · intro k hk
    rw [session_say, Channels.stateOf_append_of_notMem (hout k hk)]
    exact h.others k hk
  · exact h.once

/-- The variable is overwritten. -/
theorem At.clear (h : t.At W) (idle : ∀ u, W u → u.idle = true) :
    ({ t with handle := [] } : Talker).At W' where
  new := h.new
  mine k hk := by cases hk
  others k _ := h.idle idle k
  once k := Nat.zero_le 1

theorem mem_disconnectLoop_talks {handle : List (Option Nat)} {i : Nat} {x : Option Nat × Talk}
    (hx : x ∈ (disconnectLoop answers handle i).1.filterMap talkOf) :
    x.1 ∈ handle ∧ x.2 = .disconnect := by
  induction handle generalizing i with
  | nil => cases hx
  | cons slot handle ih =>
      rw [disconnectLoop] at hx
      split at hx
      next =>
        rcases List.mem_cons.mp hx with rfl | hx
        · exact ⟨List.mem_cons_self, rfl⟩
        · obtain ⟨hmem, htalk⟩ := ih hx
          exact ⟨List.mem_cons_of_mem slot hmem, htalk⟩
      next =>
        obtain rfl := List.mem_singleton.mp hx
        exact ⟨List.mem_cons_self, rfl⟩

/-- The calls of `ms_disconnect_db`. -/
def disconnectTalks (t : Talker) (answers : Nat → Bool) : List (Option Nat × Talk) :=
  (disconnectLoop answers t.handle 0).1.filterMap talkOf

theorem msDisconnectDb_cases (t : Talker) (answers : Nat → Bool) :
    t.msDisconnectDb answers = t.say (t.disconnectTalks answers) ∨
      t.msDisconnectDb answers = { t.say (t.disconnectTalks answers) with handle := [] } := by
  have heq : t.msDisconnectDb answers =
      if (disconnectLoop answers t.handle 0).2 then
        { t.say (t.disconnectTalks answers) with handle := [] }
      else t.say (t.disconnectTalks answers) := rfl
  rw [heq]
  split
  next => exact .inr rfl
  next => exact .inl rfl

theorem At.disconnectTalks (h : t.At W) (answers : Nat → Bool)
    (keeps : ∀ u, W u → ∃ u', u.hear .disconnect = some u' ∧ W u') :
    (t.say (t.disconnectTalks answers)).At W :=
  h.say (fun _ hx => .inr (mem_disconnectLoop_talks hx).1)
    fun _ hx => (mem_disconnectLoop_talks hx).2 ▸ keeps

theorem At.msDisconnectDb (h : t.At W) (answers : Nat → Bool) (idle : ∀ u, W u → u.idle = true)
    (keeps : ∀ u, W u → ∃ u', u.hear .disconnect = some u' ∧ W u') :
    (t.msDisconnectDb answers).At W := by
  have hsaid := h.disconnectTalks answers keeps
  rcases t.msDisconnectDb_cases answers with heq | heq
  · rw [heq]
    exact hsaid
  · rw [heq]
    exact hsaid.clear idle

theorem count_slots_le (serial k m a : Nat) : (slots serial k m).count (some a) ≤ 1 := by
  have hnone : (List.replicate m (none : Option Nat)).count (some a) = 0 := by
    simp [List.count_replicate]
  rw [slots, List.count_append, hnone, Nat.add_zero]
  exact List.nodup_iff_count_le_one.mp
    (List.Nodup.map (Option.some_injective Nat) List.nodup_range') (some a)

theorem some_mem_slots {serial k m a : Nat} :
    some a ∈ slots serial k m ↔ serial ≤ a ∧ a < serial + k := by
  simp [slots, List.mem_range'_1]

theorem At.msConnectDb (h : t.At W) (idle : ∀ u, W u → u.idle = true) (libNum : Nat)
    (answers : Nat → Bool) : (t.msConnectDb libNum answers).1.At (· = .connected) := by
  obtain ⟨failure, hfailure⟩ : ∃ failure, firstFailure answers libNum 0 = failure := ⟨_, rfl⟩
  have hle : failure ≤ libNum := hfailure ▸ firstFailure_le libNum 0
  let channels : List (Option Nat) := (List.range' t.serial failure).map some
  have hconnect : (t.msConnectDb libNum answers).1 =
      ({ t with
        handle := slots t.serial failure (libNum - failure)
        serial := t.serial + libNum } : Talker).say
          (channels.map fun slot => (slot, .connect)) := by
    have htalks : ((List.range' t.serial failure).map Ledger.Entry.acquire).filterMap talkOf =
        channels.map fun slot => (slot, .connect) := by
      rw [List.filterMap_map, List.map_map]
      exact congrFun List.filterMap_eq_map' _
    simp only [Talker.msConnectDb, connectLoop_eq, hfailure, htalks]
  have hmem : ∀ k, some k ∈ channels ↔ t.serial ≤ k ∧ k < t.serial + failure := by
    intro k
    simp [channels, List.mem_range'_1]
  have hout : ∀ k, some k ∉ channels →
      ∀ x ∈ channels.map (fun slot => (slot, Talk.connect)), x.1 ≠ some k := by
    intro k hk x hx heq
    obtain ⟨slot, hslot, rfl⟩ := List.mem_map.mp hx
    exact hk (heq ▸ hslot)
  rw [hconnect]
  constructor
  · intro k hk
    have hk : t.serial + libNum ≤ k := hk
    have hnot : some k ∉ channels := fun hmem' => by have := (hmem k).mp hmem'; omega
    rw [line_say, Channels.carried_append, Channels.carried_eq_nil (hout k hnot)]
    exact (List.append_nil _).trans (h.new k (by omega))
  · intro k hk
    obtain ⟨hge, hlt⟩ := some_mem_slots.mp hk
    refine ⟨Nat.lt_of_lt_of_le hlt (Nat.add_le_add_left hle _), .connected, ?_, rfl⟩
    have hone : channels.count (some k) = 1 := by
      refine le_antisymm ?_ (List.one_le_count_iff.mpr ((hmem k).mpr ⟨hge, hlt⟩))
      exact List.nodup_iff_count_le_one.mp
        (List.Nodup.map (Option.some_injective Nat) List.nodup_range') (some k)
    have hnew : Channels.carried (some k) t.line = [] := h.new k hge
    rw [session_say, Channels.stateOf, Channels.carried_append, Channels.carried_map, hone]
    have hline : ({ t with
      handle := slots t.serial failure (libNum - failure)
      serial := t.serial + libNum } : Talker).line = t.line := rfl
    rw [hline, hnew]
    rfl
  · intro k hk
    have hnot : some k ∉ channels := fun hmem' => hk (some_mem_slots.mpr ((hmem k).mp hmem'))
    rw [session_say, Channels.stateOf_append_of_notMem (hout k hnot)]
    exact h.idle idle k
  · intro k
    exact count_slots_le _ _ _ k

end Talker

/-! ### The calls of the operations -/

/-- The answers are those of all the plug-ins. -/
def Env.Fits (libNum : Nat) (env : Env) : Prop :=
  env.plugIns.length = libNum ∧ env.plugInsAgain.length = libNum

instance (libNum : Nat) (env : Env) : Decidable (env.Fits libNum) :=
  inferInstanceAs (Decidable (_ ∧ _))

/-- The file of a scan, by the type of the request. -/
def scanFileOp (scanType : ScanType) (path : Text) : ItemOp :=
  if scanType = .part then .validate path else .insertBatch path

/-- The calls are for the first so many plug-ins, and a connection in this state takes them. -/
def Suits (libNum : Nat) (u : Session) (trace : Trace) : Prop :=
  ∀ x ∈ trace, x.1 < libNum ∧ u.takes x.2 = true

section Suits

variable {libNum : Nat} {u : Session} {trace trace' : Trace} {path : Text}

theorem Suits.append (h : Suits libNum u trace) (h' : Suits libNum u trace') :
    Suits libNum u (trace ++ trace') :=
  List.forall_mem_append.mpr ⟨h, h'⟩

theorem suits_withMime {o : Outside} {ps : List PlugIn} {visit : Text → PlugIn → Visit}
    (hvisit : ∀ mimetype p, ∀ call ∈ (visit mimetype p).calls, u.takes call = true) :
    Suits ps.length u (withMime o ps path visit).2 := by
  rw [withMime]
  cases o.mime path with
  | none =>
      intro x hx
      cases hx
  | some mimetype =>
      intro x hx
      simp only [itemLoop_snd] at hx
      obtain ⟨⟨p, i⟩, hp, hx⟩ := List.mem_flatMap.mp hx
      obtain ⟨call, hcall, rfl⟩ := List.mem_map.mp hx
      have hlt := List.snd_lt_add_of_mem_zipIdx (List.mem_of_mem_filter hp)
      exact ⟨by simpa using hlt, hvisit mimetype p call hcall⟩

/-- The loops over all the plug-ins, which ask and delete. -/
theorem suits_existLoop (path : Text) (storageType : StorageType) (libIndex : Nat)
    (ps : List PlugIn) :
    Suits (libIndex + ps.length) u (existLoop path storageType libIndex ps).2 := by
  induction ps generalizing libIndex with
  | nil =>
      intro x hx
      cases hx
  | cons p ps ih =>
      have hfirst : libIndex < libIndex + (p :: ps).length := by simp
      have hrest := ih (libIndex + 1)
      rw [Nat.add_right_comm, Nat.add_assoc] at hrest
      rw [existLoop]
      simp only
      split
      · exact List.forall_mem_singleton.mpr ⟨hfirst, rfl⟩
      · exact List.forall_mem_cons.mpr ⟨⟨hfirst, rfl⟩, hrest⟩

theorem suits_deleteLoop (hidle : u.idle = true) (path : Text) (storageType : StorageType)
    (libIndex : Nat) (res : Int) (ps : List PlugIn) :
    Suits (libIndex + ps.length) u (deleteLoop path storageType libIndex res ps).2 := by
  induction ps generalizing libIndex res with
  | nil =>
      intro x hx
      cases hx
  | cons p ps ih =>
      have hfirst : libIndex < libIndex + (p :: ps).length := by simp
      have hrest := fun res => ih (libIndex + 1) res
      simp only [Nat.add_right_comm libIndex 1] at hrest
      rw [deleteLoop]
      simp only
      split
      · refine List.forall_mem_cons.mpr ⟨⟨hfirst, rfl⟩, ?_⟩
        exact List.forall_mem_cons.mpr ⟨⟨hfirst, hidle⟩, hrest _⟩
      · exact List.forall_mem_cons.mpr ⟨⟨hfirst, rfl⟩, hrest _⟩

/-- Where a request belongs. -/
def serviceSession : ServiceCall → Session
  | .move _ _ => .moving
  | .store _ => .scanning .all
  | .register _ | .delete _ | .refresh _ => .connected

theorem suits_plugInCalls {env : Env} (henv : env.Fits libNum) (call : ServiceCall) :
    Suits libNum (serviceSession call) (plugInCalls env call) := by
  obtain ⟨hplugIns, hagain⟩ := henv
  cases call with
  | register path =>
      have hexist : Suits libNum .connected (msCheckExist env path).2 := by
        have h := suits_existLoop (u := .connected) path (msGetStorageTypeByFull path) 0
          env.plugIns
        rwa [Nat.zero_add, hplugIns] at h
      have hinsert : Suits libNum .connected (msInsertItem env.outside env.plugIns path).2 := by
        rw [← hplugIns]
        exact suits_withMime fun mimetype p => List.forall_mem_singleton.mpr rfl
      have hrecheck : Suits libNum .connected
          (withMime env.outsideAgain env.plugInsAgain path fun _ =>
            recheckVisit path (msGetStorageTypeByFull path)).2 := by
        rw [← hagain]
        exact suits_withMime fun mimetype p => List.forall_mem_singleton.mpr rfl
      rw [plugInCalls, msRegisterFile]
      simp only
      split
      · exact hexist
      · split
        · exact hexist
        · split
          · exact (hexist.append hinsert).append hrecheck
          · exact hexist.append hinsert
  | store path =>
      rw [plugInCalls_store, ← hplugIns]
      exact suits_withMime fun mimetype p => List.forall_mem_singleton.mpr rfl
  | delete path =>
      have h := suits_deleteLoop (u := .connected) rfl path (msGetStorageTypeByFull path) 0
        msErrNone env.plugIns
      rwa [Nat.zero_add, hplugIns] at h
  | move srcPath dstPath =>
      rw [plugInCalls, msMoveItem, ← hplugIns]
      exact suits_withMime fun mimetype p => List.forall_mem_singleton.mpr rfl
  | refresh path =>
      rw [plugInCalls, msRefreshItem, ← hplugIns]
      exact suits_withMime fun mimetype p => List.forall_mem_singleton.mpr rfl

theorem suits_scanFileOp (scanType : ScanType) (path : Text) (o : Outside) (ps : List PlugIn) :
    Suits ps.length (.scanning scanType) ((scanFileOp scanType path).run o ps).2 := by
  rw [scanFileOp]
  split
  next hpart =>
    subst hpart
    refine suits_withMime fun mimetype p => ?_
    rw [validateVisit]
    split <;> exact List.forall_mem_cons.mpr ⟨rfl, List.forall_mem_singleton.mpr rfl⟩
  next =>
    have hinsert : Suits ps.length (.scanning scanType)
        (withMime o ps path fun mimetype =>
          visitOnce (.insertBatch path (msGetStorageTypeByFull path) mimetype)
            msErrDbInsertRecordFail).2 :=
      suits_withMime fun mimetype p => List.forall_mem_singleton.mpr rfl
    rw [ItemOp.run, msInsertItemBatch]
    split
    · exact hinsert
    · exact hinsert

/-- The requests of an event are moves if it is a rename, and none is one otherwise. -/
theorem serviceSession_of_event {i : Inoti} {w : World} {e : Event} {call : ServiceCall}
    (hcall : call ∈ i.serviceCalls w e) :
    serviceSession call = if (i.calls w e).isSome then .moving else .connected := by
  have hregister : ∀ depth dirPath, call ∈ registerCalls w depth dirPath →
      ∃ path, call = .register path := by
    intro depth
    induction depth with
    | zero =>
        intro dirPath h
        cases h
    | succ depth ih =>
        intro dirPath h
        obtain ⟨ent, path, -, -, h⟩ := mem_registerCalls_succ.mp h
        split at h
        · exact ih path h
        · exact ⟨path, h⟩
  rw [Inoti.serviceCalls] at hcall
  rw [Inoti.calls]
  split at hcall
  next hreaches =>
    rw [if_pos hreaches]
    split at hcall
    next => cases hcall
    next name path hreceived =>
      cases hbranch : branch e.mask with
      | dirMovedTo =>
          rw [hbranch] at hcall
          cases hrename : i.renameCall e with
          | none =>
              rw [hrename] at hcall
              cases hcall
          | some call' =>
              rw [hrename] at hcall
              obtain ⟨src, dst, rfl⟩ := mem_moveCalls hcall
              rfl
      | dirCreate =>
          rw [hbranch] at hcall
          have hnone : i.renameCall e = none := by rw [Inoti.renameCall, hreceived, hbranch]
          obtain ⟨path', rfl⟩ := hregister _ _ hcall
          rw [hnone]
          rfl
      | fileMovedFrom | fileDelete | fileMovedTo =>
          rw [hbranch] at hcall
          have hnone : i.renameCall e = none := by rw [Inoti.renameCall, hreceived, hbranch]
          obtain rfl := List.mem_singleton.mp hcall
          rw [hnone]
          rfl
      | fileCloseWrite =>
          rw [hbranch] at hcall
          have hnone : i.renameCall e = none := by rw [Inoti.renameCall, hreceived, hbranch]
          rw [hnone]
          simp only at hcall
          split at hcall
          · obtain rfl := List.mem_singleton.mp hcall
            rfl
          · split at hcall
            · cases hcall
            · obtain rfl := List.mem_singleton.mp hcall
              rfl
      | dirMovedFrom | dirDelete | fileCreate | other =>
          rw [hbranch] at hcall
          cases hcall
  next => cases hcall

end Suits

/-! ### The slots of the calls -/

namespace Talker

/-- There is a connection to every plug-in in the variable. -/
def Full (libNum : Nat) (t : Talker) : Prop := t.handle.length = libNum ∧ none ∉ t.handle

/-- Every call goes over a connection. -/
def Clean (t : Talker) : Prop := ∀ x ∈ t.line, x.1 ≠ none

variable {libNum : Nat} {t t' : Talker} {talks : List (Option Nat × Talk)} {trace : Trace}
  {message : Talk} {answers : Nat → Bool} {W : Session → Prop} {u : Session}

theorem mem_toAll {x : Option Nat × Talk} (hx : x ∈ t.toAll message) :
    x.1 ∈ t.handle ∧ x.2 = message := by
  obtain ⟨slot, hslot, rfl⟩ := List.mem_map.mp hx
  exact ⟨hslot, rfl⟩

theorem mem_untilFailure {x : Option Nat × Talk} (hx : x ∈ t.untilFailure answers message) :
    x.1 ∈ t.handle ∧ x.2 = message := by
  obtain ⟨slot, hslot, rfl⟩ := List.mem_map.mp hx
  exact ⟨List.mem_of_mem_take hslot, rfl⟩

theorem mem_through {x : Option Nat × Talk} (hx : x ∈ t.through trace) :
    (x.1 = none ∨ x.1 ∈ t.handle) ∧ ∃ y ∈ trace, x.1 = (t.handle[y.1]?).join ∧ x.2 = .item y.2 := by
  obtain ⟨y, hy, rfl⟩ := List.mem_map.mp hx
  refine ⟨?_, y, hy, rfl, rfl⟩
  cases hslot : t.handle[y.1]? with
  | none => exact .inl rfl
  | some slot => exact .inr (List.mem_of_getElem? hslot)

theorem Full.mem_through (h : t.Full libNum) (hsuits : Suits libNum u trace)
    {x : Option Nat × Talk} (hx : x ∈ t.through trace) : x.1 ∈ t.handle := by
  obtain ⟨-, y, hy, hslot, -⟩ := Talker.mem_through hx
  have hlt : y.1 < t.handle.length := h.1 ▸ (hsuits y hy).1
  rw [hslot, List.getElem?_eq_getElem hlt]
  exact List.getElem_mem hlt

theorem Clean.say (h : t.Clean) (slots : ∀ x ∈ talks, x.1 ≠ none) : (t.say talks).Clean := by
  rw [Clean, line_say]
  exact List.forall_mem_append.mpr ⟨h, slots⟩

theorem Full.ne_none (h : t.Full libNum) {slot : Option Nat} (hslot : slot ∈ t.handle) :
    slot ≠ none := by
  rintro rfl
  exact h.2 hslot

theorem handle_talk (h : t.talk = some t') : t'.handle = t.handle := by
  rw [Talker.talk] at h
  cases htodo : t.todo with
  | nil => rw [htodo] at h; cases h
  | cons x todo =>
      rw [htodo] at h
      obtain rfl := Option.some.inj h
      rfl

theorem hear_item {call : ItemCall} (hlive : u.phase = .live) (htakes : u.takes call = true) :
    u.hear (.item call) = some u := by
  rw [Session.hear, hlive]
  exact if_pos htakes

/-- The calls of an operation. -/
theorem At.through (h : t.At (· = u)) (hlive : u.phase = .live) (hsuits : Suits libNum u trace) :
    (t.say (t.through trace)).At (· = u) := by
  refine h.say (fun x hx => (mem_through hx).1) fun x hx v hv => ?_
  obtain ⟨-, y, hy, -, htalk⟩ := mem_through hx
  obtain rfl : v = u := hv
  exact ⟨v, by rw [htalk]; exact hear_item hlive (hsuits y hy).2, rfl⟩

/-- A call that leaves the connections where they are. -/
theorem At.keep (h : t.At (· = u)) (slots : ∀ x ∈ talks, x.1 ∈ t.handle ∧ x.2 = message)
    (hkeeps : u.hear message = some u) : (t.say talks).At (· = u) := by
  refine h.say (fun x hx => .inr (slots x hx).1) fun x hx v hv => ?_
  obtain rfl : v = u := hv
  exact ⟨v, by rw [(slots x hx).2]; exact hkeeps, rfl⟩

theorem At.move {u' : Session} (h : t.At (· = u)) (hmoves : u.hear message = some u') :
    (t.say (t.toAll message)).At (· = u') := by
  refine h.toAll fun v hv => ?_
  obtain rfl : v = u := hv
  exact ⟨u', hmoves, rfl⟩

theorem scanning_of_ne {scanType : ScanType} (h : scanType ≠ .part) :
    Session.scanning scanType = { phase := .live, insert := true } := by
  rw [Session.scanning, decide_eq_false h]

theorem At.startScan (h : t.At (· = .connected)) (scanType : ScanType) :
    (t.startScan scanType).At (· = .scanning scanType) := by
  have hinsert : t.msRegisterStart.At (· = { phase := .live, insert := true }) := h.move rfl
  rw [Talker.startScan]
  split
  next hpart =>
    subst hpart
    exact hinsert.move rfl
  next hpart =>
    rw [scanning_of_ne hpart]
    exact hinsert

theorem At.endScan {scanType : ScanType} (h : t.At (· = .scanning scanType)) :
    (t.endScan scanType).At (· = .connected) := by
  rw [Talker.endScan]
  split
  next hpart =>
    subst hpart
    have hvalidity : t.msRegisterEnd.At (· = { phase := .live, validity := true }) := h.move rfl
    exact hvalidity.move rfl
  next hpart =>
    rw [scanning_of_ne hpart] at h
    exact h.move rfl

/-- The calls around a scan go over the slots of the variable. -/
theorem scan_talks (t : Talker) (scanType : ScanType) :
    (∃ talks, t.startScan scanType = t.say talks ∧ ∀ x ∈ talks, x.1 ∈ t.handle) ∧
      ∃ talks, t.endScan scanType = t.say talks ∧ ∀ x ∈ talks, x.1 ∈ t.handle := by
  have htwo : ∀ a b : Talk, ∃ talks, (t.say (t.toAll a)).say ((t.say (t.toAll a)).toAll b) =
      t.say talks ∧ ∀ x ∈ talks, x.1 ∈ t.handle := by
    intro a b
    refine ⟨t.toAll a ++ t.toAll b, ?_, ?_⟩
    · simp only [Talker.say, List.append_assoc]
      rfl
    · exact List.forall_mem_append.mpr ⟨fun x hx => (mem_toAll hx).1, fun x hx => (mem_toAll hx).1⟩
  constructor
  · rw [Talker.startScan]
    split
    · exact htwo _ _
    · exact ⟨_, rfl, fun x hx => (mem_toAll hx).1⟩
  · rw [Talker.endScan]
    split
    · exact htwo _ _
    · exact ⟨_, rfl, fun x hx => (mem_toAll hx).1⟩

end Talker

end MediaServer.DbSvc
