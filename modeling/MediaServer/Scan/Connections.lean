import MediaServer.Foundation.Ledger
import MediaServer.Foundation.Run

/-!
# The connections of the scan thread

`ms_scan_thread` connects to every plug-in for each request, and disconnects at its end.
`ms_connect_db` and `ms_disconnect_db` stop at the first plug-in that fails: the one
leaves a handle array that is filled up to there, the other one that is disconnected up
to there. The thread goes on with either in its variable. The next request overwrites it,
and a power-off disconnects what it finds there, from the first slot on.

A connection is named by the number of slots that were handed to `CONNECT` before it.
A slot of the array that no `CONNECT` has filled is `none`. What the plug-ins answer is a
function of `lib_index`.
-/

namespace MediaServer.Scan

open Ledger

/-- How the request before has ended. -/
inductive Ended where
  | clean
  /-- `CONNECT` of this plug-in has failed. -/
  | connectFailed (libIndex : Nat)
  /-- `DISCONNECT` of this plug-in has failed. -/
  | disconnectFailed (libIndex : Nat)
deriving DecidableEq, Repr

structure Connections where
  /-- The variable of the thread. -/
  handle : Option (List (Option Nat)) := none
  /-- The name of the next connection. -/
  serial : Nat := 0
  entries : List (Entry Nat) := []
  ended : Ended := .clean
  returned : Bool := false
deriving DecidableEq, Repr

inductive ConnectionLabel where
  /-- A scan request. The plug-ins get the slots of `used` until the scan ends;
  `powerOff` is the flag as the thread reads it then. -/
  | request (connects : Nat → Bool) (used : List Nat) (powerOff : Bool) (disconnects : Nat → Bool)
  /-- A request of type `POWEROFF`. -/
  | powerOff (disconnects : Nat → Bool)

/-- The loop of `ms_connect_db` with `n` plug-ins left: the slots from `libIndex` on, and
whether it gets through. -/
def connectLoop (connects : Nat → Bool) (serial : Nat) : Nat → Nat →
    List (Option Nat) × List (Entry Nat) × Bool
  | 0, _ => ([], [], true)
  | n + 1, libIndex =>
      if connects libIndex then
        let (handle, entries, ok) := connectLoop connects (serial + 1) n (libIndex + 1)
        (some serial :: handle, .acquire serial :: entries, ok)
      else (List.replicate (n + 1) none, [], false)

/-- The loop of `ms_disconnect_db` over the slots from `libIndex` on. -/
def disconnectLoop (disconnects : Nat → Bool) : List (Option Nat) → Nat → List (Entry Nat) × Bool
  | [], _ => ([], true)
  | slot :: handle, libIndex =>
      if disconnects libIndex then
        let (entries, ok) := disconnectLoop disconnects handle (libIndex + 1)
        (.release slot true :: entries, ok)
      else ([.release slot false], false)

/-- The first plug-in from `libIndex` on that fails, counted from there; `n` when none of
the `n` does. -/
def firstFailure (answers : Nat → Bool) : Nat → Nat → Nat
  | 0, _ => 0
  | n + 1, libIndex => if answers libIndex then firstFailure answers n (libIndex + 1) + 1 else 0

namespace Connections

variable (libNum : Nat) (s : Connections)

def record (entries : List (Entry Nat)) : Connections :=
  { s with entries := s.entries ++ entries }

/-- `ms_connect_db`. -/
def msConnectDb (connects : Nat → Bool) : Connections × Bool :=
  let (handle, entries, ok) := connectLoop connects s.serial libNum 0
  ({ s.record (.settle :: entries) with handle := some handle, serial := s.serial + libNum }, ok)

/-- `if (handle) ms_disconnect_db(&handle)`. -/
def msDisconnectDb (disconnects : Nat → Bool) : Connections :=
  match s.handle with
  | none => { s with ended := .clean }
  | some handle =>
      let (entries, ok) := disconnectLoop disconnects handle 0
      if ok then { s.record entries with handle := none, ended := .clean }
      else { s.record entries with ended := .disconnectFailed (firstFailure disconnects libNum 0) }

/-- The calls with the handle between the two. -/
def use (used : List Nat) : Connections :=
  s.record <| (used.filterMap fun i => (s.handle.getD [])[i]?).map .pass

/-- The label `POWER_OFF`. -/
def powerOff (disconnects : Nat → Bool) : Connections :=
  { (s.msDisconnectDb libNum disconnects).record [.settle] with returned := true }

end Connections

def connectionStep (libNum : Nat) (s : Connections) : ConnectionLabel → Option Connections
  | .request connects used powerOff disconnects =>
      if s.returned then none
      else
        let (s, ok) := s.msConnectDb libNum connects
        if ok then
          let s := s.use used
          some (if powerOff then s.powerOff libNum disconnects
            else s.msDisconnectDb libNum disconnects)
        else some { s with ended := .connectFailed (firstFailure connects libNum 0) }
  | .powerOff disconnects =>
      if s.returned then none else some (s.powerOff libNum disconnects)

/-- Plug-ins get only handles that `CONNECT` has filled, disconnect only connections that
are open, and no connection is forgotten. -/
def ConnectionsBalanced (s : Connections) : Prop := Account.Balanced {} s.entries

instance : DecidablePred ConnectionsBalanced := fun s =>
  inferInstanceAs (Decidable (Account.Balanced {} s.entries))

/-- A scan request follows one that ended cleanly, or in which the first `CONNECT` or the
last `DISCONNECT` failed. When the thread returns, no `DISCONNECT` fails but perhaps the
last one. A power-off behind a failed `CONNECT` has to stop, by a failure, at the last
connection; and a failed `DISCONNECT` before a power-off was the first. -/
def Harmless (libNum : Nat) (s : Connections) : ConnectionLabel → Prop
  | .request connects _ powerOff disconnects =>
      (s.ended = .clean ∨ s.ended = .connectFailed 0 ∨
        ∃ k, s.ended = .disconnectFailed k ∧ k + 1 = libNum) ∧
      (firstFailure connects libNum 0 = libNum → powerOff = true →
        libNum ≤ firstFailure disconnects libNum 0 + 1)
  | .powerOff disconnects =>
      match s.ended with
      | .clean => True
      | .connectFailed k => firstFailure disconnects libNum 0 + 1 = k
      | .disconnectFailed k => k = 0 ∧ libNum ≤ firstFailure disconnects libNum 0 + 1

section Loops

variable {answers : Nat → Bool}

theorem firstFailure_le (n i : Nat) : firstFailure answers n i ≤ n := by
  induction n generalizing i with
  | zero => exact Nat.le_refl 0
  | succ n ih =>
      rw [firstFailure]
      split
      · exact Nat.succ_le_succ (ih (i + 1))
      · exact Nat.zero_le _

/-- An array of which the first `k` slots are filled. -/
def slots (serial k m : Nat) : List (Option Nat) :=
  (List.range' serial k).map some ++ List.replicate m none

theorem slots_succ (serial k m : Nat) :
    slots serial (k + 1) m = some serial :: slots (serial + 1) k m := rfl

theorem connectLoop_eq (serial n i : Nat) :
    connectLoop answers serial n i =
      (slots serial (firstFailure answers n i) (n - firstFailure answers n i),
        (List.range' serial (firstFailure answers n i)).map .acquire,
        decide (firstFailure answers n i = n)) := by
  induction n generalizing serial i with
  | zero => rfl
  | succ n ih =>
      rw [connectLoop, firstFailure]
      split
      · rw [ih, slots_succ, List.range'_succ, List.map_cons, Nat.add_sub_add_right]
        simp
      · simp [slots]

/-- The disconnection of the filled slots stops at the first failure among them. -/
theorem disconnectLoop_slots (serial k m i : Nat) :
    disconnectLoop answers (slots serial k m) i =
      if firstFailure answers (k + m) i < k then
        (Account.released (List.range' serial (firstFailure answers (k + m) i)) ++
          [.release (some (serial + firstFailure answers (k + m) i)) false], false)
      else
        (Account.released (List.range' serial k) ++
            (disconnectLoop answers (List.replicate m none) (i + k)).1,
          (disconnectLoop answers (List.replicate m none) (i + k)).2) := by
  induction k generalizing serial i with
  | zero => rfl
  | succ k ih =>
      rw [slots_succ, disconnectLoop, Nat.add_right_comm, firstFailure]
      cases answers i with
      | false => rfl
      | true =>
          simp only [if_true, ih, Nat.add_lt_add_iff_right]
          split
          · simp [Account.released, List.range'_succ, Nat.add_assoc, Nat.add_comm 1]
          · simp [Account.released, List.range'_succ, Nat.add_assoc, Nat.add_comm 1]

theorem disconnectLoop_full (serial n i : Nat) :
    disconnectLoop answers (slots serial n 0) i =
      if firstFailure answers n i < n then
        (Account.released (List.range' serial (firstFailure answers n i)) ++
          [.release (some (serial + firstFailure answers n i)) false], false)
      else (Account.released (List.range' serial n), true) := by
  rw [disconnectLoop_slots]
  simp [disconnectLoop]

end Loops

section Disconnect

variable {answers : Nat → Bool} {account : Account Nat} {serial k m : Nat}

theorem balanced_released_range' (n : Nat)
    (hlive : ∀ a, serial ≤ a → a < serial + n → a ∈ account.live) :
    account.Balanced (Account.released (List.range' serial n)) := by
  refine Account.balanced_released List.nodup_range' fun a ha => ?_
  obtain ⟨hle, hlt⟩ := List.mem_range'_1.mp ha
  exact hlive a hle hlt

/-- The slots that are passed hold live connections. -/
theorem balanced_disconnectLoop (hlive : ∀ a, serial ≤ a → a < serial + k → a ∈ account.live) :
    account.Balanced (disconnectLoop answers (slots serial k m) 0).1 ↔
      firstFailure answers (k + m) 0 < k ∨ m = 0 := by
  rw [disconnectLoop_slots]
  split
  next hlt =>
    refine iff_of_true ?_ (.inl hlt)
    rw [Account.balanced_append, Account.balanced_singleton]
    refine ⟨balanced_released_range' _ fun a hle ha => hlive a hle (by omega), _, rfl, ?_⟩
    rw [Account.mem_live_released, List.mem_range'_1]
    exact ⟨hlive _ (by omega) (by omega), by omega⟩
  next hle =>
    rw [Account.balanced_append, or_iff_right hle]
    refine (and_iff_right (balanced_released_range' k hlive)).trans ?_
    cases m with
    | zero => exact iff_of_true trivial rfl
    | succ m =>
        refine iff_of_false ?_ (Nat.succ_ne_zero m)
        rw [List.replicate_succ, disconnectLoop]
        split
        · rintro ⟨⟨a, ha, -⟩, -⟩
          cases ha
        · rintro ⟨⟨a, ha, -⟩, -⟩
          cases ha

/-- The account after a disconnection that is in order. -/
theorem mem_disconnectLoop {failure : Nat} (hfailure : firstFailure answers (k + m) 0 = failure)
    (h : failure < k ∨ m = 0) (a : Nat) :
    (a ∈ (account.postAll (disconnectLoop answers (slots serial k m) 0).1).live ↔
      a ∈ account.live ∧ ¬ (serial ≤ a ∧ a < serial + failure)) ∧
    (a ∈ (account.postAll (disconnectLoop answers (slots serial k m) 0).1).untried ↔
      a ∈ account.untried ∧ ¬ (serial ≤ a ∧ a < serial + min (failure + 1) k)) := by
  have hle : failure ≤ k + m := hfailure ▸ firstFailure_le (k + m) 0
  rw [disconnectLoop_slots, hfailure]
  by_cases hlt : failure < k
  · rw [if_pos hlt, Nat.min_eq_left hlt, Account.postAll_append]
    constructor
    · rw [← List.mem_range'_1, ← Account.mem_live_released]
      rfl
    · have hpost : ∀ account : Account Nat, a ∈ (account.postAll
          [.release (some (serial + failure)) false]).untried ↔
            a ∈ account.untried ∧ a ≠ serial + failure := by
        intro account
        simp [Account.postAll, Account.post]
      rw [hpost, Account.mem_untried_released, List.mem_range'_1, and_assoc]
      refine and_congr_right fun _ => ?_
      constructor
      · rintro ⟨hout, hne⟩
        omega
      · intro hout
        exact ⟨by omega, by omega⟩
  · obtain rfl : m = 0 := h.resolve_left hlt
    obtain rfl : failure = k := by omega
    rw [if_neg hlt, Nat.min_eq_right (Nat.le_succ failure), ← List.mem_range'_1]
    simp only [List.replicate_zero, disconnectLoop, List.append_nil]
    exact ⟨Account.mem_live_released, Account.mem_untried_released⟩

/-- The first failure leaves the connections behind it open and forgotten. -/
theorem untried_disconnectLoop (hlt : firstFailure answers (k + m) 0 < k)
    (huntried : ∀ a, a ∈ account.untried ↔ serial ≤ a ∧ a < serial + k) :
    (account.postAll (disconnectLoop answers (slots serial k m) 0).1).untried = [] ↔
      firstFailure answers (k + m) 0 + 1 = k := by
  rw [List.eq_nil_iff_forall_not_mem]
  simp only [(mem_disconnectLoop rfl (.inl hlt) _).2, huntried]
  constructor
  · intro hnone
    have := hnone (serial + firstFailure answers (k + m) 0 + 1)
    omega
  · intro hlast a
    omega

end Disconnect

/-- The account that the thread has with the plug-ins. -/
def Connections.account (s : Connections) : Account Nat := Account.postAll {} s.entries

/-- What the thread finds in its variable at the head of the loop, and which connections
are open and forgotten. -/
inductive Standing (libNum : Nat) (s : Connections) : Prop where
  | clean (ended : s.ended = .clean) (handle : s.handle = none)
      (untried : ∀ a, a ∉ s.account.untried)
  | connectFailed (k serial : Nat) (ended : s.ended = .connectFailed k) (lt : k < libNum)
      (handle : s.handle = some (slots serial k (libNum - k)))
      (live : ∀ a, serial ≤ a → a < serial + k → a ∈ s.account.live)
      (untried : ∀ a, a ∈ s.account.untried ↔ serial ≤ a ∧ a < serial + k)
  | disconnectFailed (k serial : Nat) (ended : s.ended = .disconnectFailed k) (lt : k < libNum)
      (handle : s.handle = some (slots serial libNum 0))
      (gone : ∀ a, serial ≤ a → a < serial + k → a ∉ s.account.live)
      (live : ∀ a, serial + k ≤ a → a < serial + libNum → a ∈ s.account.live)
      (untried : ∀ a, a ∈ s.account.untried ↔ serial + k < a ∧ a < serial + libNum)

structure ConnectionsInv (libNum : Nat) (s : Connections) : Prop where
  balanced : ConnectionsBalanced s
  standing : s.returned = false → Standing libNum s

section States

variable {libNum : Nat} {s : Connections} {answers : Nat → Bool}

theorem account_record (entries : List (Entry Nat)) :
    (s.record entries).account = s.account.postAll entries :=
  Account.postAll_append _ _

theorem balanced_record (entries : List (Entry Nat)) :
    ConnectionsBalanced (s.record entries) ↔
      ConnectionsBalanced s ∧ s.account.Balanced entries :=
  Account.balanced_append _ _

theorem msConnectDb_eq {failure : Nat} (hfailure : firstFailure answers libNum 0 = failure) :
    s.msConnectDb libNum answers =
      ({ s.record (.settle :: (List.range' s.serial failure).map .acquire) with
          handle := some (slots s.serial failure (libNum - failure))
          serial := s.serial + libNum }, decide (failure = libNum)) := by
  rw [Connections.msConnectDb, connectLoop_eq, hfailure]

/-- A new connection is in order when none of the old ones is forgotten. -/
theorem balanced_connect (h : ConnectionsBalanced s) (n : Nat) :
    ConnectionsBalanced (s.record (.settle :: (List.range' s.serial n).map .acquire)) ↔
      s.account.untried = [] := by
  rw [balanced_record, and_iff_right h]
  exact and_iff_left (Account.balanced_acquire _)

theorem account_connect (n : Nat) :
    (s.record (.settle :: (List.range' s.serial n).map .acquire)).account =
      { live := s.account.live ++ List.range' s.serial n
        untried := s.account.untried ++ List.range' s.serial n } := by
  rw [account_record]
  exact Account.postAll_acquire _

theorem account_use (used : List Nat) : (s.use used).account = s.account := by
  rw [Connections.use, account_record, Account.postAll_pass]

/-- The slots of a successful `ms_connect_db` are all filled. -/
theorem balanced_use {serial : Nat} (used : List Nat)
    (hhandle : s.handle = some (slots serial libNum 0)) :
    ConnectionsBalanced (s.use used) ↔ ConnectionsBalanced s := by
  rw [Connections.use, balanced_record]
  refine and_iff_left (Account.balanced_pass _ fun place hplace => ?_)
  obtain ⟨i, -, hi⟩ := List.mem_filterMap.mp hplace
  have hmem := List.mem_of_getElem? hi
  rw [hhandle, Option.getD_some, slots, List.replicate_zero, List.append_nil] at hmem
  obtain ⟨a, -, rfl⟩ := List.mem_map.mp hmem
  rfl

theorem msDisconnectDb_entries {handle : List (Option Nat)} (hhandle : s.handle = some handle) :
    (s.msDisconnectDb libNum answers).entries =
      (s.record (disconnectLoop answers handle 0).1).entries := by
  rw [Connections.msDisconnectDb, hhandle]
  simp only
  split <;> rfl

theorem account_congr {t : Connections} (h : t.entries = s.entries) : t.account = s.account :=
  congrArg (Account.postAll {}) h

theorem balanced_powerOff :
    ConnectionsBalanced (s.powerOff libNum answers) ↔
      ConnectionsBalanced (s.msDisconnectDb libNum answers) ∧
        (s.msDisconnectDb libNum answers).account.untried = [] := by
  refine (balanced_record [.settle]).trans ?_
  rw [Account.balanced_singleton]
  rfl

/-- An array that is filled throughout. Of its connections at most the first one has been
tried before. -/
structure Connected (libNum : Nat) (s : Connections) (serial : Nat) : Prop where
  handle : s.handle = some (slots serial libNum 0)
  live : ∀ a, serial ≤ a → a < serial + libNum → a ∈ s.account.live
  untried : ∀ a ∈ s.account.untried, serial ≤ a ∧ a < serial + libNum
  later : ∀ a, serial < a → a < serial + libNum → a ∈ s.account.untried

section Disconnect

variable {serial failure : Nat} (h : Connected libNum s serial)
  (hfailure : firstFailure answers libNum 0 = failure)
include h

theorem Connected.balanced :
    ConnectionsBalanced (s.msDisconnectDb libNum answers) ↔ ConnectionsBalanced s := by
  rw [ConnectionsBalanced, msDisconnectDb_entries h.handle]
  exact (balanced_record _).trans
    (and_iff_left ((balanced_disconnectLoop h.live).mpr (.inr rfl)))

include hfailure

theorem Connected.mem_account (a : Nat) :
    (a ∈ (s.msDisconnectDb libNum answers).account.live ↔
      a ∈ s.account.live ∧ ¬ (serial ≤ a ∧ a < serial + failure)) ∧
    (a ∈ (s.msDisconnectDb libNum answers).account.untried ↔
      a ∈ s.account.untried ∧ ¬ (serial ≤ a ∧ a < serial + min (failure + 1) libNum)) := by
  rw [account_congr (msDisconnectDb_entries h.handle), account_record]
  exact mem_disconnectLoop hfailure (.inr rfl) a

/-- Only the connections behind a failure are forgotten. -/
theorem Connected.mem_untried (a : Nat) :
    a ∈ (s.msDisconnectDb libNum answers).account.untried ↔
      serial + failure < a ∧ a < serial + libNum := by
  rw [(h.mem_account hfailure a).2]
  constructor
  · rintro ⟨hmem, hout⟩
    have := h.untried a hmem
    omega
  · rintro ⟨hlt, hlt'⟩
    exact ⟨h.later a (by omega) hlt', by omega⟩

theorem Connected.untried_eq_nil :
    (s.msDisconnectDb libNum answers).account.untried = [] ↔ libNum ≤ failure + 1 := by
  rw [List.eq_nil_iff_forall_not_mem]
  simp only [h.mem_untried hfailure]
  constructor
  · intro hnone
    have := hnone (serial + failure + 1)
    omega
  · intro hle a
    omega

theorem Connected.standing : Standing libNum (s.msDisconnectDb libNum answers) := by
  have huntried := h.mem_untried hfailure
  have hlive := fun a => (h.mem_account hfailure a).1
  have hle : failure ≤ libNum := hfailure ▸ firstFailure_le libNum 0
  rw [Connections.msDisconnectDb, h.handle] at huntried hlive ⊢
  simp only [disconnectLoop_full, hfailure] at huntried hlive ⊢
  split at huntried
  next hlt =>
    simp only [hlt, if_true, Bool.false_eq_true, if_false] at hlive ⊢
    refine .disconnectFailed failure serial rfl hlt h.handle (fun a hge ha hmem => ?_)
      (fun a hge ha => (hlive a).mpr ⟨h.live a (by omega) ha, by omega⟩) huntried
    exact ((hlive a).mp hmem).2 ⟨hge, ha⟩
  next hnot =>
    simp only [hnot, if_true, if_false] at hlive ⊢
    refine .clean rfl rfl fun a hmem => ?_
    have := (huntried a).mp hmem
    omega

end Disconnect

/-- A power-off disconnects what the request before has left in the variable. -/
theorem Standing.powerOff (h : Standing libNum s) (hbalanced : ConnectionsBalanced s) :
    ConnectionsBalanced (s.powerOff libNum answers) ↔ Harmless libNum s (.powerOff answers) := by
  rw [balanced_powerOff, Harmless]
  cases h with
  | clean hended hhandle huntried =>
      rw [hended, Connections.msDisconnectDb, hhandle]
      exact iff_of_true ⟨hbalanced, List.eq_nil_iff_forall_not_mem.mpr huntried⟩ trivial
  | connectFailed k serial hended hlt hhandle hlive huntried =>
      obtain ⟨m, rfl⟩ : ∃ m, libNum = k + m := ⟨libNum - k, by omega⟩
      rw [Nat.add_sub_cancel_left] at hhandle
      have hbooks : ConnectionsBalanced (s.msDisconnectDb (k + m) answers) ↔
          firstFailure answers (k + m) 0 < k := by
        rw [ConnectionsBalanced, msDisconnectDb_entries hhandle]
        refine (balanced_record _).trans ((and_iff_right hbalanced).trans ?_)
        rw [balanced_disconnectLoop hlive, or_iff_left (by omega)]
      rw [hended, hbooks, account_congr (msDisconnectDb_entries hhandle), account_record]
      constructor
      · rintro ⟨hfailure, hnil⟩
        exact (untried_disconnectLoop hfailure huntried).mp hnil
      · intro hlast
        have hfailure : firstFailure answers (k + m) 0 < k := by omega
        exact ⟨hfailure, (untried_disconnectLoop hfailure huntried).mpr hlast⟩
  | disconnectFailed k serial hended hlt hhandle hgone hlive huntried =>
      rw [hended]
      cases k with
      | zero =>
          have connected : Connected libNum s serial :=
            { handle := hhandle
              live := hlive
              untried := fun a ha => ⟨by have := (huntried a).mp ha; omega, ((huntried a).mp ha).2⟩
              later := fun a hlt ha => (huntried a).mpr ⟨hlt, ha⟩ }
          rw [connected.balanced, connected.untried_eq_nil rfl]
          exact and_congr_left' (iff_of_true hbalanced rfl)
      | succ k =>
          -- The first connection is closed already.
          refine iff_of_false ?_ (fun hzero => nomatch hzero.1)
          rintro ⟨hdisconnect, -⟩
          rw [ConnectionsBalanced, msDisconnectDb_entries hhandle] at hdisconnect
          have hloop := ((balanced_record _).mp hdisconnect).2
          obtain ⟨n, rfl⟩ : ∃ n, libNum = n + 1 := ⟨libNum - 1, by omega⟩
          have hallows : ∃ ok, s.account.Allows (.release (some serial) ok) := by
            rw [slots_succ, disconnectLoop] at hloop
            split at hloop
            · exact ⟨true, hloop.1⟩
            · exact ⟨false, hloop.1⟩
          obtain ⟨_, a, ha, hmem⟩ := hallows
          obtain rfl := Option.some.inj ha
          exact hgone serial (Nat.le_refl _) (by omega) hmem

/-- The connections that are open and forgotten, by the end of the request before. -/
theorem Standing.untried_eq_nil (h : Standing libNum s) :
    s.account.untried = [] ↔ s.ended = .clean ∨ s.ended = .connectFailed 0 ∨
      ∃ k, s.ended = .disconnectFailed k ∧ k + 1 = libNum := by
  rw [List.eq_nil_iff_forall_not_mem]
  cases h with
  | clean hended _ huntried => exact iff_of_true huntried (.inl hended)
  | connectFailed k serial hended hlt _ _ huntried =>
      rw [hended]
      simp only [huntried, reduceCtorEq, Ended.connectFailed.injEq, false_or, false_and,
        exists_false, or_false]
      constructor
      · intro hnone
        have := hnone serial
        omega
      · intro hzero a
        omega
  | disconnectFailed k serial hended hlt _ _ _ huntried =>
      rw [hended]
      simp only [huntried, reduceCtorEq, Ended.disconnectFailed.injEq, false_or,
        exists_eq_left']
      constructor
      · intro hnone
        have := hnone (serial + k + 1)
        omega
      · intro hlast a
        omega

/-- The thread goes on with a handle for every plug-in. -/
theorem connected_use (used : List Nat) (hnil : s.account.untried = [])
    (hfailure : firstFailure answers libNum 0 = libNum) :
    Connected libNum ((s.msConnectDb libNum answers).1.use used) s.serial := by
  have haccount : ((s.msConnectDb libNum answers).1.use used).account =
      { live := s.account.live ++ List.range' s.serial libNum
        untried := List.range' s.serial libNum } := by
    rw [account_use, msConnectDb_eq hfailure]
    refine (account_connect libNum).trans ?_
    rw [hnil, List.nil_append]
  constructor
  · rw [msConnectDb_eq hfailure, Nat.sub_self]
    rfl
  · intro a hle ha
    rw [haccount]
    exact List.mem_append_right _ (List.mem_range'_1.mpr ⟨hle, ha⟩)
  · intro a ha
    rw [haccount] at ha
    exact List.mem_range'_1.mp ha
  · intro a hlt ha
    rw [haccount]
    exact List.mem_range'_1.mpr ⟨by omega, ha⟩

/-- A request that `ms_connect_db` refuses leaves the connections open that it has. -/
theorem standing_connectFailed {failure : Nat} (hnil : s.account.untried = [])
    (hfailure : firstFailure answers libNum 0 = failure) (hlt : failure < libNum) :
    Standing libNum { (s.msConnectDb libNum answers).1 with ended := .connectFailed failure } := by
  have haccount := account_connect (s := s) failure
  rw [hnil, List.nil_append] at haccount
  rw [msConnectDb_eq hfailure]
  refine .connectFailed failure s.serial rfl hlt rfl (fun a hle ha => ?_) fun a => ?_
  · show a ∈ (s.record _).account.live
    rw [haccount]
    exact List.mem_append_right _ (List.mem_range'_1.mpr ⟨hle, ha⟩)
  · show a ∈ (s.record _).account.untried ↔ _
    rw [haccount]
    exact List.mem_range'_1

/-- What the thread does for one request. -/
inductive Handled (libNum : Nat) (s : Connections) : ConnectionLabel → Connections → Prop where
  | connectFailed {connects : Nat → Bool} {used : List Nat} {powerOff : Bool}
      {disconnects : Nat → Bool} : firstFailure connects libNum 0 < libNum →
      Handled libNum s (.request connects used powerOff disconnects)
        { (s.msConnectDb libNum connects).1 with
          ended := .connectFailed (firstFailure connects libNum 0) }
  | scanned {connects : Nat → Bool} {used : List Nat} {disconnects : Nat → Bool} :
      firstFailure connects libNum 0 = libNum →
      Handled libNum s (.request connects used false disconnects)
        (((s.msConnectDb libNum connects).1.use used).msDisconnectDb libNum disconnects)
  | stopped {connects : Nat → Bool} {used : List Nat} {disconnects : Nat → Bool} :
      firstFailure connects libNum 0 = libNum →
      Handled libNum s (.request connects used true disconnects)
        (((s.msConnectDb libNum connects).1.use used).powerOff libNum disconnects)
  | powerOff {disconnects : Nat → Bool} :
      Handled libNum s (.powerOff disconnects) (s.powerOff libNum disconnects)

theorem connectionStep_cases {a : ConnectionLabel} {t : Connections}
    (h : connectionStep libNum s a = some t) : s.returned = false ∧ Handled libNum s a t := by
  cases a with
  | request connects used powerOff disconnects =>
      rw [connectionStep] at h
      split at h
      next => cases h
      next hreturned =>
        refine ⟨Bool.eq_false_iff.mpr hreturned, ?_⟩
        have hok : (s.msConnectDb libNum connects).2 =
            decide (firstFailure connects libNum 0 = libNum) :=
          congrArg Prod.snd (msConnectDb_eq rfl)
        simp only [hok, decide_eq_true_eq] at h
        split at h
        next hfailure =>
          obtain rfl := Option.some.inj h
          cases powerOff with
          | false => exact .scanned hfailure
          | true => exact .stopped hfailure
        next hfailure =>
          obtain rfl := Option.some.inj h
          exact .connectFailed (Nat.lt_of_le_of_ne (firstFailure_le libNum 0) hfailure)
  | powerOff disconnects =>
      rw [connectionStep] at h
      split at h
      next => cases h
      next hreturned =>
        obtain rfl := Option.some.inj h
        exact ⟨Bool.eq_false_iff.mpr hreturned, .powerOff⟩

theorem ConnectionsInv.start : ConnectionsInv libNum {} :=
  ⟨trivial, fun _ => .clean rfl rfl fun _ => List.not_mem_nil⟩

theorem balanced_msConnectDb (h : ConnectionsBalanced s) :
    ConnectionsBalanced (s.msConnectDb libNum answers).1 ↔ s.account.untried = [] := by
  rw [msConnectDb_eq rfl]
  exact balanced_connect h _

/-- The calls of a scan are in order, and so are those of the disconnection behind it. -/
theorem balanced_scanned (h : ConnectionsBalanced s) (used : List Nat) {disconnects : Nat → Bool}
    (hfailure : firstFailure answers libNum 0 = libNum) :
    ConnectionsBalanced (((s.msConnectDb libNum answers).1.use used).msDisconnectDb libNum
      disconnects) ↔ s.account.untried = [] := by
  have hhandle : (s.msConnectDb libNum answers).1.handle = some (slots s.serial libNum 0) := by
    rw [msConnectDb_eq hfailure, Nat.sub_self]
  have hbooks := (balanced_use used hhandle).trans (balanced_msConnectDb h)
  constructor
  · intro hbalanced
    refine hbooks.mp ?_
    have hused : ((s.msConnectDb libNum answers).1.use used).handle =
        some (slots s.serial libNum 0) := hhandle
    rw [ConnectionsBalanced, msDisconnectDb_entries hused] at hbalanced
    exact ((balanced_record _).mp hbalanced).1
  · intro hnil
    exact (connected_use used hnil hfailure).balanced.mpr (hbooks.mpr hnil)

/-- A step keeps the books balanced exactly when the request before has left nothing
behind that does harm. -/
theorem ConnectionsInv.balanced_step {a : ConnectionLabel} {t : Connections}
    (h : ConnectionsInv libNum s) (ht : connectionStep libNum s a = some t) :
    ConnectionsBalanced t ↔ Harmless libNum s a := by
  obtain ⟨hreturned, hhandled⟩ := connectionStep_cases ht
  have hstanding := h.standing hreturned
  cases hhandled with
  | connectFailed hlt =>
      refine (balanced_msConnectDb h.balanced).trans (hstanding.untried_eq_nil.trans ?_)
      exact (and_iff_left fun hall => absurd hall (Nat.ne_of_lt hlt)).symm
  | @scanned connects used _ hfailure =>
      refine (balanced_scanned h.balanced used hfailure).trans (hstanding.untried_eq_nil.trans ?_)
      exact (and_iff_left fun _ hoff => nomatch hoff).symm
  | @stopped connects used _ hfailure =>
      rw [balanced_powerOff, balanced_scanned h.balanced used hfailure,
        hstanding.untried_eq_nil]
      refine and_congr_right fun hended => ?_
      have connected := connected_use used (hstanding.untried_eq_nil.mpr hended) hfailure
      rw [connected.untried_eq_nil rfl]
      exact ⟨fun hle _ _ => hle, fun hle => hle hfailure rfl⟩
  | powerOff => exact hstanding.powerOff h.balanced

theorem ConnectionsInv.step {a : ConnectionLabel} {t : Connections} (h : ConnectionsInv libNum s)
    (harmless : Harmless libNum s a) (ht : connectionStep libNum s a = some t) :
    ConnectionsInv libNum t := by
  refine ⟨(h.balanced_step ht).mpr harmless, fun hgoes => ?_⟩
  obtain ⟨hreturned, hhandled⟩ := connectionStep_cases ht
  have hstanding := h.standing hreturned
  cases hhandled with
  | connectFailed hlt =>
      exact standing_connectFailed (hstanding.untried_eq_nil.mpr harmless.1) rfl hlt
  | @scanned connects used _ hfailure =>
      exact (connected_use used (hstanding.untried_eq_nil.mpr harmless.1) hfailure).standing rfl
  | stopped | powerOff => cases hgoes

end States

/-- The books are balanced in a run exactly when no request finds more in the variable than
it can deal with. -/
theorem connections_balanced_iff (libNum : Nat) (labels : List ConnectionLabel) :
    Run.Always (connectionStep libNum) ConnectionsBalanced {} labels ↔
      Run.EachStep (connectionStep libNum) (Harmless libNum) {} labels :=
  Run.always_iff_eachStep (fun _ _ _ inv harmless ht => inv.step harmless ht)
    (fun _ inv => inv.balanced) (fun _ _ _ inv harm ht => harm ∘ (inv.balanced_step ht).mp)
    ConnectionsInv.start

example : Run.Always (connectionStep 2) ConnectionsBalanced {}
    [.request (fun _ => true) [0, 1] false (fun _ => true), .powerOff fun _ => true] := by
  decide

/-- The only plug-in refuses the connection, and the power-off disconnects it. -/
theorem disconnects_unfilled_slot :
    ¬ ∀ libNum labels, Run.Always (connectionStep libNum) ConnectionsBalanced {} labels := by
  intro h
  have hrun := h 1 [.request (fun _ => false) [] false (fun _ => true), .powerOff fun _ => true]
  exact absurd hrun (by decide)

end MediaServer.Scan
