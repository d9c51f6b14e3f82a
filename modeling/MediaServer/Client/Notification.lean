import MediaServer.Foundation.History
import MediaServer.Foundation.Run
import MediaServer.Register.Reply
import Mathlib.Tactic.Ring

/-!
# The end of a file operation

A program that has changed files tells the server with `ms_noti_update_complete`, which
makes the directory `_FILEOPERATION_END`. The server watches its parent. For an event of
that name it announces the database on D-Bus and removes the directory; the programs that
have called `media_db_update_subscribe` run their callbacks.

The removal is an event of the same name. The server announces a second time for it, and
that is what saves a call that comes between the announcement and the removal: it finds
the directory still there and fails. Nothing saves the calls that come after a server has
died in between: the next server gets no event for a directory that exists.

Starts and scans announce with the same signal.
-/

namespace MediaServer.Client

open Register

def msMediaErrOccurred : Int := -0x01
def msMediaErrDbusAddFilter : Int := -0x0b
def msMediaErrDbusGet : Int := -0x0c

def fileOperationEnd : Text := "_FILEOPERATION_END".toList
def powerOffDirName : Text := "_POWER_OFF".toList

/-- An argument of a D-Bus message. -/
inductive DBusArg where
  | uint16 (value : Nat)
  | string (value : Text)
deriving DecidableEq, Repr

structure DBusSignal where
  path : Text
  interface : Text
  name : Text
  args : List DBusArg
deriving DecidableEq, Repr

def msDbusPath : Text := "/com/mediaserver/dbus/notify".toList
def msDbusInterface : Text := "com.mediaserver.dbus.Signal".toList
def msDbusName : Text := "ms_db_updated".toList

/-- `MS_DBUS_DB_UPDATED`. -/
def msDbusDbUpdated : Nat := 0

/-- `ms_dbus_send_noti`: the signal that it sends, if it gets the bus. -/
def msDbusSendNoti (bus : Bool) (notiType : Nat) : Option DBusSignal :=
  if bus then some ⟨msDbusPath, msDbusInterface, msDbusName, [.uint16 (notiType % 2 ^ 16)]⟩
  else none

def msMediaDbusInterface : Text := "com.mediaserver.dbus.Signal".toList
def msMediaDbusName : Text := "ms_db_updated".toList

/-- `__message_filter`: whether it calls the callback, and whether it takes the message. -/
def messageFilter (message : DBusSignal) : Bool × Bool :=
  if message.interface = msMediaDbusInterface ∧ message.name = msMediaDbusName then
    match message.args with
    | .uint16 _ :: _ => (true, true)
    | _ => (false, true)
  else (false, false)

/-- `media_db_update_subscribe`; the filter is installed when it returns no error. It does not
look at what becomes of the match rule. -/
def mediaDbUpdateSubscribe (bus added : Bool) : Int :=
  if ¬ bus then msMediaErrDbusGet
  else if ¬ added then msMediaErrDbusAddFilter
  else msMediaErrNone

/-- The inotify thread, between two events. -/
inductive Handler where
  | idle
  /-- `ms_set_db_status(MS_DB_UPDATED)` is next. -/
  | announcing
  /-- `rmdir` is next. -/
  | removing
  /-- At the label `POWER_OFF` or behind it. -/
  | left
deriving DecidableEq, Repr

/-- The announcements that the thread still owes for the event it has read. -/
def Handler.pending : Handler → Nat
  | .announcing => 1
  | .idle | .removing | .left => 0

/-- How far `main` is. -/
inductive Stage where
  | down
  /-- Behind `_db_clear`, and before `ms_inoti_add_watch(MS_DB_UPDATE_NOTI_PATH)`. -/
  | cleared
  | watching
deriving DecidableEq, Repr

/-- Who calls `ms_set_db_status(MS_DB_UPDATED)`. -/
inductive Announcer where
  | main
  | inotify
  | scan
deriving DecidableEq, Repr

/-- What the programs can notice. The announcements are numbered. -/
inductive Occurrence where
  /-- `media_db_update_subscribe` has returned no error; the bus has the match rule or not. -/
  | subscribed (id : Nat) (matched : Bool)
  /-- `ms_noti_update_complete` has returned; the directory was there or not. -/
  | requested (ret : Int) (there : Bool)
  /-- Something has happened to another entry of this name in a watched directory. -/
  | happened (name : Text)
  /-- Another program has removed the directory. -/
  | removed
  | announced (number : Nat) (announcer : Announcer)
  | called (id number : Nat)
deriving DecidableEq, Repr

/-- The announcements of the inotify thread that it causes. A call that succeeds causes two:
the directory is made, and then removed. -/
def Occurrence.owed : Occurrence → Nat
  | .requested ret _ => if ret = msMediaErrNone then 2 else 0
  | .happened name => if name = fileOperationEnd then 1 else 0
  | .subscribed .. | .removed | .announced .. | .called .. => 0

/-- An announcement of the inotify thread. -/
def Occurrence.answers : Occurrence → Bool
  | .announced _ .inotify => true
  | .announced _ .main | .announced _ .scan => false
  | .subscribed .. | .requested .. | .happened _ | .removed | .called .. => false

structure Noti where
  /-- `MS_MEDIA_UPDATE_NOTI_PATH` exists. -/
  dir : Bool := false
  stage : Stage := .watching
  /-- The global flag. -/
  powerOff : Bool := false
  /-- The names of the queued events. -/
  events : List Text := []
  handler : Handler := .idle
  /-- With their match rules. -/
  subscribers : List Nat := []
  /-- Signals on their way, with the number of their announcement. -/
  mail : List ((Nat × Nat) × DBusSignal) := []
  announcements : Nat := 0
  history : List Occurrence := []
deriving DecidableEq, Repr

inductive NotiLabel where
  /-- `ms_noti_update_complete`; `mkdir` can fail although there is no such directory. -/
  | updateComplete (made : Bool)
  /-- `media_db_update_subscribe`, with the answers of D-Bus. -/
  | subscribe (id : Nat) (bus matched added : Bool)
  /-- Something else happens, in any watched directory. -/
  | event (name : Text)
  /-- Another program removes the directory. -/
  | rmdir
  /-- `_power_off_cb` sets the flag. -/
  | powerOff
  | read
  /-- The inotify thread announces, over the bus if it gets it. -/
  | announce (bus : Bool)
  /-- Its `rmdir`, which can fail although the directory is there. -/
  | remove (removed : Bool)
  /-- The scan thread announces the end of a scan. -/
  | scan (bus : Bool)
  /-- The signal at this place arrives. -/
  | deliver (index : Nat)
  | crash
  /-- The start up to `_db_clear`, which announces. -/
  | boot (bus : Bool)
  /-- `main` watches the parent of the directory. -/
  | watch
deriving DecidableEq, Repr

namespace Noti

/-- The kernel queues an event if the directory is watched; the queue has room. -/
def queue (s : Noti) (name : Text) : Noti :=
  if s.stage = .watching then { s with events := s.events ++ [name] } else s

/-- `ms_noti_update_complete`. -/
def msNotiUpdateComplete (s : Noti) (made : Bool) : Noti × Int :=
  if s.dir ∨ ¬ made then (s, msMediaErrOccurred)
  else ({ s with dir := true }.queue fileOperationEnd, msMediaErrNone)

def record (s : Noti) (o : Occurrence) : Noti := { s with history := s.history ++ [o] }

/-- `ms_set_db_status(MS_DB_UPDATED)`. -/
def announce (s : Noti) (bus : Bool) (announcer : Announcer) : Noti :=
  let mail := (msDbusSendNoti bus msDbusDbUpdated).elim [] fun signal =>
    s.subscribers.map fun id => ((id, s.announcements), signal)
  { s with
    mail := s.mail ++ mail
    announcements := s.announcements + 1 }.record (.announced s.announcements announcer)

end Noti

def notiStep (s : Noti) : NotiLabel → Option Noti
  | .updateComplete made =>
      let (t, ret) := s.msNotiUpdateComplete made
      some (t.record (.requested ret s.dir))
  | .subscribe id bus matched added =>
      if mediaDbUpdateSubscribe bus added = msMediaErrNone then
        let subscribers := if matched then id :: s.subscribers else s.subscribers
        some ({ s with subscribers }.record (.subscribed id matched))
      else some s
  | .event name => some ((s.queue name).record (.happened name))
  | .rmdir =>
      if s.dir then some (({ s with dir := false }.queue fileOperationEnd).record .removed)
      else none
  | .powerOff => some { s with powerOff := true }
  | .read =>
      match s.handler, s.events with
      | .idle, name :: events =>
          some
            { s with
              events
              handler := if s.powerOff ∨ name = powerOffDirName then .left
                else if name = fileOperationEnd then .announcing else .idle }
      | _, _ => none
  | .announce bus =>
      if s.handler = .announcing then
        some ({ s with handler := .removing }.announce bus .inotify)
      else none
  | .remove removed =>
      if s.handler = .removing then
        some
          (if s.dir ∧ removed then
            { s with handler := .idle, dir := false }.queue fileOperationEnd
          else { s with handler := .idle })
      else none
  | .scan bus => if s.stage = .watching then some (s.announce bus .scan) else none
  | .deliver index =>
      match s.mail[index]? with
      | some ((id, number), signal) =>
          let s := { s with mail := s.mail.eraseIdx index }
          some (if (messageFilter signal).1 then s.record (.called id number) else s)
      | none => none
  | .crash => some { s with stage := .down, powerOff := false, events := [], handler := .idle }
  | .boot bus =>
      if s.stage = .down then some ({ s with stage := .cleared }.announce bus .main) else none
  | .watch => if s.stage = .cleared then some { s with stage := .watching } else none

/-- The signal that the server sends makes the subscriber's filter call the callback. -/
theorem messageFilter_of_send {notiType : Nat} {signal : DBusSignal}
    (h : msDbusSendNoti true notiType = some signal) : messageFilter signal = (true, true) := by
  obtain rfl := Option.some.inj h
  rfl

namespace Noti

/-- An announcement will be made that has not been made yet. -/
def Due (s : Noti) : Prop :=
  fileOperationEnd ∈ s.events ∨ s.handler = .announcing ∨ (s.handler = .removing ∧ s.dir = true)

/-- An announcement that is among the last things to have happened has reached the
subscriber, or is on its way to it. -/
def Reached (s : Noti) (id : Nat) (since : List Occurrence) : Prop :=
  ∃ n, .announced n .inotify ∈ since ∧
    (.called id n ∈ since ∨ (id, n) ∈ s.mail.map Prod.fst)

/-- Whoever subscribed before a call that has made or found the directory learns of an
announcement made after it. -/
def Follows (s : Noti) (before : List Occurrence) (o : Occurrence) (since : List Occurrence) :
    Prop :=
  ∀ ret there id, o = .requested ret there → ret = msMediaErrNone ∨ there = true →
    .subscribed id true ∈ before → s.Reached id since ∨ s.Due

/-- Nothing is queued or under way. -/
def Quiet (s : Noti) : Prop :=
  fileOperationEnd ∉ s.events ∧ s.handler = .idle ∧ s.mail = []

structure Inv (s : Noti) : Prop where
  watched : s.stage = .watching
  on : s.powerOff = false
  stays : s.handler ≠ .left
  names : powerOffDirName ∉ s.events
  dirDue : s.dir = true → s.Due
  count : s.history.countP Occurrence.answers + s.events.count fileOperationEnd +
    s.handler.pending + s.dir.toNat = (s.history.map Occurrence.owed).sum
  subscribed : ∀ id, .subscribed id true ∈ s.history → id ∈ s.subscribers
  signals : ∀ m ∈ s.mail, (messageFilter m.2).1 = true
  follows : History.Throughout s.Follows s.history

theorem sum_owed_concat (history : List Occurrence) (o : Occurrence) :
    ((history ++ [o]).map Occurrence.owed).sum = (history.map Occurrence.owed).sum + o.owed := by
  simp

theorem countP_answers_concat (history : List Occurrence) (o : Occurrence) :
    (history ++ [o]).countP Occurrence.answers =
      history.countP Occurrence.answers + o.answers.toNat := by
  rw [List.countP_append, List.countP_singleton]
  cases o.answers <;> rfl

theorem fileOperationEnd_ne_powerOff : fileOperationEnd ≠ powerOffDirName := by decide

section Step

variable {s t : Noti}

theorem Reached.mono {id : Nat} {since since' : List Occurrence} (h : s.Reached id since)
    (hsince : since ⊆ since')
    (hmail : ∀ n, (id, n) ∈ s.mail.map Prod.fst →
      .called id n ∈ since' ∨ (id, n) ∈ t.mail.map Prod.fst) : t.Reached id since' := by
  obtain ⟨n, hannounced, hcalled⟩ := h
  exact ⟨n, hsince hannounced, hcalled.elim (fun hc => .inl (hsince hc)) (hmail n)⟩

/-- Nothing has happened that a program can notice. -/
theorem follows_of_same (h : s.Inv) (hdue : s.Due → t.Due) (hmail : s.mail = t.mail)
    (hhistory : t.history = s.history) : History.Throughout t.Follows t.history := by
  rw [hhistory]
  refine h.follows.mono fun before o since hf ret there id ho hcall hid => ?_
  refine (hf ret there id ho hcall hid).imp (fun hr => ?_) hdue
  exact hr.mono (List.Subset.refl _) fun n hn => .inr (hmail ▸ hn)

/-- Nobody had to wait for what has happened. -/
theorem follows_concat (h : s.Inv) {o : Occurrence} (ho : ∀ ret there, o ≠ .requested ret there)
    (hold : ∀ before a since, s.history = before ++ a :: since → s.Follows before a since →
      t.Follows before a (since ++ [o])) :
    History.Throughout t.Follows (s.history ++ [o]) := by
  refine History.throughout_concat.mpr
    ⟨fun ret there id heq _ _ => absurd heq (ho ret there), ?_⟩
  exact fun before a since heq => hold before a since heq (h.follows before a since heq)

/-- What has happened has set nothing back. -/
theorem follows_concat_of_due (h : s.Inv) {o : Occurrence}
    (ho : ∀ ret there, o ≠ .requested ret there) (hdue : s.Due → t.Due)
    (hmail : ∀ x ∈ s.mail.map Prod.fst, x ∈ t.mail.map Prod.fst) :
    History.Throughout t.Follows (s.history ++ [o]) := by
  refine follows_concat h ho fun before a since _ hf ret there id ha hcall hid => ?_
  refine (hf ret there id ha hcall hid).imp (fun hr => ?_) hdue
  exact hr.mono (List.subset_append_left _ _) fun n hn => .inr (hmail _ hn)

/-- Other entries of the history add nothing to what is subscribed. -/
theorem subscribed_concat (h : s.Inv) {o : Occurrence} (ho : ∀ id, o ≠ .subscribed id true)
    {id : Nat} (hid : .subscribed id true ∈ s.history ++ [o]) : id ∈ s.subscribers := by
  rcases List.mem_append.mp hid with hid | hid
  · exact h.subscribed id hid
  · exact absurd (List.mem_singleton.mp hid).symm (ho id)

theorem Inv.read (h : s.Inv) {name : Text} {events : List Text} (hidle : s.handler = .idle)
    (hevents : s.events = name :: events) :
    Inv { s with
      events
      handler := if s.powerOff ∨ name = powerOffDirName then .left
        else if name = fileOperationEnd then .announcing else .idle } := by
  have hnames : powerOffDirName ∉ name :: events := hevents ▸ h.names
  obtain ⟨hname, hrest⟩ := not_or.mp (mt List.mem_cons.mpr hnames)
  have hon : ¬ (s.powerOff = true ∨ name = powerOffDirName) := by
    rintro (hpower | heq)
    · rw [h.on] at hpower
      cases hpower
    · exact hname heq.symm
  rw [if_neg hon]
  have hdue : s.Due → Due
      { s with events, handler := if name = fileOperationEnd then .announcing else .idle } := by
    rintro (hmem | hann | hrem)
    · rw [hevents] at hmem
      by_cases hend : name = fileOperationEnd
      · exact .inr (.inl (if_pos hend))
      · exact .inl ((List.mem_cons.mp hmem).resolve_left (Ne.symm hend))
    · rw [hidle] at hann
      cases hann
    · rw [hidle] at hrem
      cases hrem.1
  refine ⟨h.watched, h.on, ?_, hrest, fun hdir => hdue (h.dirDue hdir), ?_, h.subscribed,
    h.signals, follows_of_same h hdue rfl rfl⟩
  · simp only
    split <;> rintro ⟨⟩
  · have hcount := h.count
    rw [hevents, hidle] at hcount
    by_cases hend : name = fileOperationEnd
    · simp only [hend, List.count_cons_self, if_true] at hcount ⊢
      simpa [Handler.pending, Nat.add_assoc, Nat.add_comm, Nat.add_left_comm] using hcount
    · simp only [List.count_cons_of_ne hend, hend, if_false] at hcount ⊢
      exact hcount

/-- An announcement makes nobody forget what is on its way. -/
theorem mem_mail_announce (s : Noti) (bus : Bool) (announcer : Announcer) {x : Nat × Nat}
    (hx : x ∈ s.mail.map Prod.fst) : x ∈ (s.announce bus announcer).mail.map Prod.fst := by
  simp only [announce, record, List.map_append]
  exact List.mem_append_left _ hx

theorem signals_announce (h : ∀ m ∈ s.mail, (messageFilter m.2).1 = true) (bus : Bool)
    (announcer : Announcer) :
    ∀ m ∈ (s.announce bus announcer).mail, (messageFilter m.2).1 = true := by
  intro m hm
  rcases List.mem_append.mp hm with hm | hm
  · exact h m hm
  · cases bus with
    | false => exact absurd hm List.not_mem_nil
    | true =>
        obtain ⟨id, -, rfl⟩ := List.mem_map.mp hm
        exact congrArg Prod.fst (messageFilter_of_send rfl)

theorem Inv.announce (h : s.Inv) (hann : s.handler = .announcing) :
    Inv ({ s with handler := .removing }.announce true .inotify) := by
  refine ⟨h.watched, h.on, nofun, h.names, fun hdir => .inr (.inr ⟨rfl, hdir⟩), ?_, ?_, ?_, ?_⟩
  · have hcount := h.count
    simp only [hann, Handler.pending] at hcount
    simp only [Noti.announce, record, Handler.pending, sum_owed_concat, countP_answers_concat,
      Occurrence.owed, Occurrence.answers, Bool.toNat_true]
    omega
  · exact fun id hid => subscribed_concat h (by rintro _ ⟨⟩) hid
  · exact signals_announce (s := { s with handler := .removing }) h.signals true .inotify
  · refine follows_concat h (by rintro _ _ ⟨⟩) fun before a since heq _ _ _ id _ _ hid => .inl ?_
    have hsub : id ∈ s.subscribers :=
      h.subscribed id (heq ▸ List.mem_append_left _ hid)
    refine ⟨s.announcements, by simp, .inr ?_⟩
    simp only [Noti.announce, record, List.map_append, List.mem_append]
    exact .inr (List.mem_map.mpr ⟨_, List.mem_map.mpr ⟨id, hsub, rfl⟩, rfl⟩)

/-- An announcement of the scan thread comes on top. -/
theorem Inv.scan (h : s.Inv) (bus : Bool) : Inv (s.announce bus .scan) := by
  refine ⟨h.watched, h.on, h.stays, h.names, h.dirDue, ?_, ?_, ?_, ?_⟩
  · simp only [Noti.announce, record, sum_owed_concat, countP_answers_concat]
    exact h.count
  · exact fun id hid => subscribed_concat h (by rintro _ ⟨⟩) hid
  · exact signals_announce h.signals bus .scan
  · exact follows_concat_of_due h (by rintro _ _ ⟨⟩) id
      fun x hx => mem_mail_announce s bus .scan hx

theorem Inv.remove (h : s.Inv) (hrem : s.handler = .removing) {removed : Bool}
    (hremoved : s.dir = true → removed = true) :
    Inv (if s.dir ∧ removed then
      { s with handler := .idle, dir := false }.queue fileOperationEnd
    else { s with handler := .idle }) := by
  have hcount := h.count
  cases hdir : s.dir with
  | true =>
      rw [hrem, hdir] at hcount
      rw [if_pos ⟨rfl, hremoved hdir⟩, queue, if_pos h.watched]
      refine ⟨h.watched, h.on, nofun, ?_, by rintro ⟨⟩, ?_, h.subscribed, h.signals,
        follows_of_same h (fun _ => .inl (by simp)) rfl rfl⟩
      · simp [h.names, Ne.symm fileOperationEnd_ne_powerOff]
      · simpa [Handler.pending, List.count_append, Nat.add_assoc] using hcount
  | false =>
      rw [hrem, hdir] at hcount
      rw [if_neg (by simp)]
      refine ⟨h.watched, h.on, nofun, h.names, by simp,
        by simpa [hdir, Handler.pending] using hcount, h.subscribed, h.signals,
        follows_of_same h ?_ rfl rfl⟩
      rintro (hmem | hann | ⟨-, hdir'⟩)
      · exact .inl hmem
      · rw [hrem] at hann
        cases hann
      · rw [hdir] at hdir'
        cases hdir'

theorem Inv.deliver (h : s.Inv) {index id number : Nat} {signal : DBusSignal}
    (hmail : s.mail[index]? = some ((id, number), signal)) :
    Inv ({ s with mail := s.mail.eraseIdx index }.record (.called id number)) := by
  refine ⟨h.watched, h.on, h.stays, h.names, h.dirDue, ?_, ?_, ?_, ?_⟩
  · simp only [record, sum_owed_concat, countP_answers_concat]
    exact h.count
  · exact fun id' hid => subscribed_concat h (by rintro _ ⟨⟩) hid
  · exact fun m hm => h.signals m (List.mem_of_mem_eraseIdx hm)
  · refine follows_concat h (by rintro _ _ ⟨⟩)
      fun before a since _ hf ret there id' ha hcall hid => ?_
    refine (hf ret there id' ha hcall hid).imp_left fun hr =>
      hr.mono (List.subset_append_left _ _) ?_
    intro n hn
    by_cases hsame : (id', n) = (id, number)
    · obtain ⟨rfl, rfl⟩ := Prod.mk.inj hsame
      exact .inl (by simp)
    · refine .inr ?_
      obtain ⟨m, hm, hmn⟩ := List.mem_map.mp hn
      obtain ⟨i, hi⟩ := List.mem_iff_getElem?.mp hm
      have hne : i ≠ index := by
        rintro rfl
        rw [hmail] at hi
        obtain rfl := Option.some.inj hi
        exact hsame hmn.symm
      exact List.mem_map.mpr ⟨m, List.mem_eraseIdx_iff_getElem?.mpr ⟨i, hne, hi⟩, hmn⟩

/-- A new event leaves what is due. -/
theorem Due.queue (h : s.Due) (name : Text) : (s.queue name).Due := by
  rw [Noti.queue]
  split
  · exact h.imp_left (List.mem_append_left _)
  · exact h

theorem Inv.event (h : s.Inv) {name : Text} (hname : name ≠ powerOffDirName) :
    Inv ((s.queue name).record (.happened name)) := by
  have hdue : s.Due → (s.queue name).Due := fun hd => hd.queue name
  rw [Noti.queue, if_pos h.watched] at hdue ⊢
  refine ⟨h.watched, h.on, h.stays, ?_, fun hdir => hdue (h.dirDue hdir), ?_, ?_, h.signals, ?_⟩
  · simp [record, h.names, Ne.symm hname]
  · have hcount := h.count
    simp only [record, sum_owed_concat, countP_answers_concat, List.count_append,
      Occurrence.owed, Occurrence.answers, Bool.toNat_false]
    by_cases hend : name = fileOperationEnd
    · rw [if_pos hend, hend, List.count_singleton_self]
      omega
    · rw [if_neg hend, List.count_eq_zero.mpr fun hmem => hend (List.mem_singleton.mp hmem).symm]
      exact hcount
  · exact fun id hid => subscribed_concat h (by rintro _ ⟨⟩) hid
  · exact follows_concat_of_due h (by rintro _ _ ⟨⟩) hdue fun _ hx => hx

/-- The event of the removal stands in for the removal by the thread. -/
theorem Inv.rmdir (h : s.Inv) (hdir : s.dir = true) :
    Inv (({ s with dir := false }.queue fileOperationEnd).record .removed) := by
  rw [Noti.queue, if_pos h.watched]
  refine ⟨h.watched, h.on, h.stays, ?_, by rintro ⟨⟩, ?_, ?_, h.signals, ?_⟩
  · simp [record, h.names, Ne.symm fileOperationEnd_ne_powerOff]
  · have hcount := h.count
    rw [hdir, Bool.toNat_true] at hcount
    simp only [record, sum_owed_concat, countP_answers_concat, List.count_append,
      Occurrence.owed, Occurrence.answers, Bool.toNat_false, List.count_singleton_self]
    omega
  · exact fun id hid => subscribed_concat h (by rintro _ ⟨⟩) hid
  · exact follows_concat_of_due h (by rintro _ _ ⟨⟩) (fun _ => .inl (by simp [record]))
      fun _ hx => hx

/-- What a call has to leave behind, so that it is not forgotten. -/
theorem follows_requested {ret : Int} {there : Bool} (hdue : t.Due) :
    History.Throughout t.Follows (s.history ++ [.requested ret there]) :=
  History.throughout_concat.mpr
    ⟨fun _ _ _ _ _ _ => .inr hdue, fun _ _ _ _ _ _ _ _ _ _ => .inr hdue⟩

/-- A call that finds the directory fails, but an announcement is still due. -/
theorem Inv.updateComplete (h : s.Inv) (made : Bool) :
    Inv ((s.msNotiUpdateComplete made).1.record
      (.requested (s.msNotiUpdateComplete made).2 s.dir)) := by
  have hcount := h.count
  have howed : (Occurrence.requested msMediaErrOccurred s.dir).owed = 0 := rfl
  rw [msNotiUpdateComplete]
  by_cases hdir : s.dir = true
  · rw [if_pos (.inl hdir)]
    refine ⟨h.watched, h.on, h.stays, h.names, h.dirDue, ?_, ?_, h.signals, ?_⟩
    · simp only [record, sum_owed_concat, countP_answers_concat, howed, Occurrence.answers]
      exact hcount
    · exact fun id hid => subscribed_concat h (by rintro _ ⟨⟩) hid
    · exact follows_requested (h.dirDue hdir)
  · cases made with
    | false =>
        rw [if_pos (.inr (by simp))]
        refine ⟨h.watched, h.on, h.stays, h.names, h.dirDue, ?_, ?_, h.signals, ?_⟩
        · simp only [record, sum_owed_concat, countP_answers_concat, howed, Occurrence.answers]
          exact hcount
        · exact fun id hid => subscribed_concat h (by rintro _ ⟨⟩) hid
        · refine History.throughout_concat.mpr ⟨fun ret there id heq hcall => ?_, h.follows.mono ?_⟩
          · obtain ⟨rfl, rfl⟩ := Occurrence.requested.inj heq
            rcases hcall with hcall | hcall
            · cases hcall
            · exact absurd hcall hdir
          · intro before a since hf ret there id ha hcall hid
            refine (hf ret there id ha hcall hid).imp_left fun hr => ?_
            exact hr.mono (List.subset_append_left _ _) fun n hn => .inr hn
    | true =>
        rw [if_neg (by simp [hdir]), Noti.queue, if_pos h.watched]
        have hdue : Due
            ({ s with dir := true, events := s.events ++ [fileOperationEnd] }.record
              (.requested msMediaErrNone s.dir)) := .inl (by simp [record])
        refine ⟨h.watched, h.on, h.stays, ?_, fun _ => hdue, ?_, ?_, h.signals,
          follows_requested hdue⟩
        · simp [record, h.names, Ne.symm fileOperationEnd_ne_powerOff]
        · have hmade : (Occurrence.requested msMediaErrNone s.dir).owed = 2 := rfl
          rw [Bool.eq_false_iff.mpr hdir, Bool.toNat_false] at hcount
          simp only [record, sum_owed_concat, countP_answers_concat, hmade, Occurrence.answers,
            List.count_append, List.count_singleton_self, Bool.toNat_true, Bool.toNat_false]
          omega
        · exact fun id hid => subscribed_concat h (by rintro _ ⟨⟩) hid

theorem Inv.subscribe (h : s.Inv) (id : Nat) (matched : Bool) :
    Inv ({ s with
      subscribers := if matched then id :: s.subscribers else s.subscribers }.record
        (.subscribed id matched)) := by
  refine ⟨h.watched, h.on, h.stays, h.names, h.dirDue, ?_, ?_, h.signals, ?_⟩
  · simp only [record, sum_owed_concat, countP_answers_concat]
    exact h.count
  · intro id' hid
    simp only [record]
    rcases List.mem_append.mp hid with hid | hid
    · split
      · exact List.mem_cons_of_mem id (h.subscribed id' hid)
      · exact h.subscribed id' hid
    · obtain ⟨rfl, rfl⟩ := Occurrence.subscribed.inj (List.mem_singleton.mp hid)
      exact List.mem_cons_self
  · exact follows_concat_of_due h (by rintro _ _ ⟨⟩) (fun hdue => hdue) fun _ hx => hx

end Step

end Noti

/-- The server keeps running, and gets the bus and removes the directory when it tries to. -/
def Served (s : Noti) : NotiLabel → Prop
  | .announce bus => bus = true
  | .remove removed => s.dir = true → removed = true
  | .event name => name ≠ powerOffDirName
  | .powerOff | .crash => False
  | _ => True

instance : ∀ s l, Decidable (Served s l)
  | _, .announce bus => inferInstanceAs (Decidable (bus = true))
  | s, .remove removed => inferInstanceAs (Decidable (s.dir = true → removed = true))
  | _, .event name => inferInstanceAs (Decidable (name ≠ powerOffDirName))
  | _, .powerOff | _, .crash => isFalse id
  | _, .updateComplete _ | _, .subscribe .. | _, .rmdir | _, .read | _, .scan _ | _, .deliver _
  | _, .boot _ | _, .watch => isTrue trivial

theorem notiStep_inv {s t : Noti} {l : NotiLabel} (h : s.Inv) (good : Served s l)
    (hstep : notiStep s l = some t) : t.Inv := by
  cases l with
  | updateComplete made => exact Option.some.inj hstep ▸ h.updateComplete made
  | subscribe id bus matched added =>
      simp only [notiStep] at hstep
      split at hstep
      next => exact Option.some.inj hstep ▸ h.subscribe id matched
      next => exact Option.some.inj hstep ▸ h
  | event name => exact Option.some.inj hstep ▸ h.event good
  | rmdir =>
      obtain ⟨hdir, hstep⟩ := Option.ite_none_right_eq_some.mp hstep
      exact Option.some.inj hstep ▸ h.rmdir hdir
  | powerOff => exact good.elim
  | read =>
      simp only [notiStep] at hstep
      split at hstep
      next hidle hevents => exact Option.some.inj hstep ▸ h.read hidle hevents
      next => cases hstep
  | announce bus =>
      obtain rfl : bus = true := good
      obtain ⟨hann, hstep⟩ := Option.ite_none_right_eq_some.mp hstep
      exact Option.some.inj hstep ▸ h.announce hann
  | remove removed =>
      obtain ⟨hrem, hstep⟩ := Option.ite_none_right_eq_some.mp hstep
      exact Option.some.inj hstep ▸ h.remove hrem good
  | scan bus =>
      obtain ⟨-, hstep⟩ := Option.ite_none_right_eq_some.mp hstep
      exact Option.some.inj hstep ▸ h.scan bus
  | deliver index =>
      simp only [notiStep] at hstep
      split at hstep
      next id number signal hmail =>
        obtain rfl := Option.some.inj hstep
        rw [if_pos (h.signals _ (List.mem_of_getElem? hmail))]
        exact h.deliver hmail
      next => cases hstep
  | crash => exact good.elim
  | boot bus =>
      obtain ⟨hdown, -⟩ := Option.ite_none_right_eq_some.mp hstep
      exact absurd (h.watched.symm.trans hdown) nofun
  | watch =>
      obtain ⟨hcleared, -⟩ := Option.ite_none_right_eq_some.mp hstep
      exact absurd (h.watched.symm.trans hcleared) nofun

theorem notiInv_start : Noti.Inv {} where
  watched := rfl
  on := rfl
  stays := nofun
  names := List.not_mem_nil
  dirDue h := absurd h Bool.false_ne_true
  count := rfl
  subscribed _ h := absurd h List.not_mem_nil
  signals _ h := absurd h List.not_mem_nil
  follows := History.throughout_nil

/-- The directory is there, and the server does not know. -/
structure Noti.Stuck (s : Noti) : Prop where
  dir : s.dir = true
  events : fileOperationEnd ∉ s.events
  handler : s.handler = .idle ∨ s.handler = .left

/-- Nothing has happened to an entry of this name. -/
def Untouched : NotiLabel → Prop
  | .event name => name ≠ fileOperationEnd
  | .rmdir => False
  | _ => True

instance : DecidablePred Untouched
  | .event name => inferInstanceAs (Decidable (name ≠ fileOperationEnd))
  | .rmdir => isFalse id
  | .updateComplete _ | .subscribe .. | .powerOff | .read | .announce _ | .remove _ | .scan _
  | .deliver _ | .crash | .boot _ | .watch => isTrue trivial

/-- All calls of `ms_noti_update_complete` have failed, and the inotify thread has announced
nothing. -/
def Unanswered (since : List Occurrence) : Prop :=
  (∀ ret there, .requested ret there ∈ since → ret = msMediaErrOccurred) ∧
    ∀ n, .announced n .inotify ∉ since

theorem unanswered_nil : Unanswered [] := by simp [Unanswered]

/-- Starts and scans announce, but not the inotify thread. -/
theorem Noti.Stuck.step {s t : Noti} {l : NotiLabel} (h : s.Stuck) (hl : Untouched l)
    (hstep : notiStep s l = some t) :
    t.Stuck ∧ ∃ since, t.history = s.history ++ since ∧ Unanswered since := by
  obtain ⟨hdir, hevents, hhandler⟩ := h
  have hnothing : ∃ since, s.history = s.history ++ since ∧ Unanswered since :=
    ⟨[], (List.append_nil _).symm, unanswered_nil⟩
  cases l with
  | updateComplete made =>
      simp only [notiStep, msNotiUpdateComplete, hdir, true_or, if_true] at hstep
      obtain rfl := Option.some.inj hstep
      exact ⟨⟨hdir, hevents, hhandler⟩, [.requested msMediaErrOccurred true], rfl,
        by simp [Unanswered]⟩
  | subscribe id bus matched added =>
      simp only [notiStep] at hstep
      split at hstep <;> obtain rfl := Option.some.inj hstep
      · exact ⟨⟨hdir, hevents, hhandler⟩, [.subscribed id matched], rfl, by simp [Unanswered]⟩
      · exact ⟨⟨hdir, hevents, hhandler⟩, hnothing⟩
  | event name =>
      obtain rfl := Option.some.inj hstep
      have hmem : fileOperationEnd ∉ s.events ++ [name] := by simp [hevents, Ne.symm hl]
      have happened : Unanswered [.happened name] := by simp [Unanswered]
      rw [queue]
      split
      · exact ⟨⟨hdir, hmem, hhandler⟩, [.happened name], rfl, happened⟩
      · exact ⟨⟨hdir, hevents, hhandler⟩, [.happened name], rfl, happened⟩
  | rmdir => exact hl.elim
  | powerOff =>
      obtain rfl := Option.some.inj hstep
      exact ⟨⟨hdir, hevents, hhandler⟩, hnothing⟩
  | read =>
      simp only [notiStep] at hstep
      split at hstep
      next name events _ hcons =>
        obtain rfl := Option.some.inj hstep
        rw [hcons] at hevents
        obtain ⟨hname, hrest⟩ := not_or.mp (mt List.mem_cons.mpr hevents)
        refine ⟨⟨hdir, hrest, ?_⟩, hnothing⟩
        simp only
        rw [if_neg (Ne.symm hname)]
        split
        · exact .inr rfl
        · exact .inl rfl
      next => cases hstep
  | announce bus =>
      obtain ⟨hann, -⟩ := Option.ite_none_right_eq_some.mp hstep
      rw [hann] at hhandler
      rcases hhandler with hhandler | hhandler <;> cases hhandler
  | remove removed =>
      obtain ⟨hrem, -⟩ := Option.ite_none_right_eq_some.mp hstep
      rw [hrem] at hhandler
      rcases hhandler with hhandler | hhandler <;> cases hhandler
  | scan bus =>
      obtain ⟨-, hstep⟩ := Option.ite_none_right_eq_some.mp hstep
      obtain rfl := Option.some.inj hstep
      exact ⟨⟨hdir, hevents, hhandler⟩, [.announced s.announcements .scan], rfl,
        by simp [Unanswered]⟩
  | deliver index =>
      simp only [notiStep] at hstep
      split at hstep
      next id number signal _ =>
        obtain rfl := Option.some.inj hstep
        split
        · exact ⟨⟨hdir, hevents, hhandler⟩, [.called id number], rfl, by simp [Unanswered]⟩
        · exact ⟨⟨hdir, hevents, hhandler⟩, hnothing⟩
      next => cases hstep
  | crash =>
      obtain rfl := Option.some.inj hstep
      exact ⟨⟨hdir, List.not_mem_nil, .inl rfl⟩, hnothing⟩
  | boot bus =>
      obtain ⟨-, hstep⟩ := Option.ite_none_right_eq_some.mp hstep
      obtain rfl := Option.some.inj hstep
      exact ⟨⟨hdir, hevents, hhandler⟩, [.announced s.announcements .main], rfl,
        by simp [Unanswered]⟩
  | watch =>
      obtain ⟨-, hstep⟩ := Option.ite_none_right_eq_some.mp hstep
      obtain rfl := Option.some.inj hstep
      exact ⟨⟨hdir, hevents, hhandler⟩, hnothing⟩

theorem Unanswered.append {first since : List Occurrence} (h : Unanswered first)
    (h' : Unanswered since) : Unanswered (first ++ since) :=
  ⟨fun ret there hmem => (List.mem_append.mp hmem).elim (h.1 ret there) (h'.1 ret there),
    fun n hmem => (List.mem_append.mp hmem).elim (h.2 n) (h'.2 n)⟩

theorem Noti.Stuck.exec {s t : Noti} (h : s.Stuck) {labels : List NotiLabel}
    (hlabels : ∀ l ∈ labels, Untouched l) (hexec : Run.exec notiStep s labels = some t) :
    ∃ since, t.history = s.history ++ since ∧ Unanswered since := by
  induction labels generalizing s with
  | nil =>
      obtain rfl := Option.some.inj hexec
      exact ⟨[], (List.append_nil _).symm, unanswered_nil⟩
  | cons l labels ih =>
      obtain ⟨middle, hstep, hrest⟩ := Option.bind_eq_some_iff.mp hexec
      obtain ⟨hl, hlabels⟩ := List.forall_mem_cons.mp hlabels
      obtain ⟨hstuck, first, hfirst, hnone⟩ := h.step hl hstep
      obtain ⟨since, hsince, hnone'⟩ := ih hstuck hlabels hrest
      exact ⟨first ++ since, by rw [hsince, hfirst, List.append_assoc], hnone.append hnone'⟩

end MediaServer.Client
