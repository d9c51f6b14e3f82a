import MediaServer.Foundation.Run
import MediaServer.Inotify.Frame

/-!
# Events that control the thread

The thread is woken for a power-off by the directory `/opt/media/_POWER_OFF`, and
told the end of a file operation by `_FILEOPERATION_END` in the directory
`MS_DB_UPDATE_NOTI_PATH`. It compares the names alone, before it looks at the
descriptor, so any watched directory can send these events.
-/

namespace MediaServer.Inotify

/-- The event takes the thread to the label `POWER_OFF`. -/
def leaves (w : World) (s : Inoti) (e : Event) : Bool := !s.stopped && (s.event w e).stopped

/-- The event makes the thread call `ms_set_db_status(MS_DB_UPDATED)` and remove
`_FILEOPERATION_END`. -/
def announces (w : World) (s : Inoti) (e : Event) : Bool :=
  ¬ s.stopped ∧ ¬ (w.powerOff ∨ e.name = "_POWER_OFF".toList) ∧
    e.name = "_FILEOPERATION_END".toList

/-- One event. A server that has crashed handles none. -/
def controlStep (s : Inoti) : World × Event → Option Inoti
  | (w, e) => if s.faulted then none else some (s.event w e)

/-- The thread leaves for a power-off only, and announces for the directory with the
descriptor `notiWd` only. -/
def Genuine (notiWd : Int) (s : Inoti) (x : World × Event) : Prop :=
  (leaves x.1 s x.2 → x.1.powerOff) ∧ (announces x.1 s x.2 → x.2.wd = notiWd)

instance (notiWd : Int) (s : Inoti) : DecidablePred (Genuine notiWd s) := fun x =>
  inferInstanceAs (Decidable ((leaves x.1 s x.2 → x.1.powerOff) ∧
    (announces x.1 s x.2 → x.2.wd = notiWd)))

/-- While the power is on, the first name does not come up, and the second one comes
from its directory. -/
def NamesReserved (notiWd : Int) (s : Inoti) (x : World × Event) : Prop :=
  ¬ s.stopped → ¬ x.1.powerOff →
    x.2.name ≠ "_POWER_OFF".toList ∧ (x.2.name = "_FILEOPERATION_END".toList → x.2.wd = notiWd)

section Step

variable {w : World} {s : Inoti} {e : Event}

theorem event_of_control (hrunning : ¬ s.stopped)
    (hcontrol : w.powerOff ∨ e.name = "_POWER_OFF".toList) : s.event w e = s.leave := by
  rw [Inoti.event, if_neg hrunning, if_pos hcontrol]

theorem event_stopped (hcontrol : ¬ (w.powerOff ∨ e.name = "_POWER_OFF".toList)) :
    (s.event w e).stopped = s.stopped := by
  rw [Inoti.event, if_neg hcontrol]
  split
  · rfl
  · split
    · rfl
    · split
      · rfl
      · exact handle_stopped

/-- The thread leaves when the power is off, and for the name alone. -/
theorem leaves_iff :
    leaves w s e ↔ ¬ s.stopped ∧ (w.powerOff ∨ e.name = "_POWER_OFF".toList) := by
  simp only [leaves, Bool.and_eq_true, Bool.not_eq_true', ← Bool.not_eq_true]
  refine and_congr_right fun hrunning => ?_
  by_cases hcontrol : w.powerOff ∨ e.name = "_POWER_OFF".toList
  · exact iff_of_true (by rw [event_of_control hrunning hcontrol]; rfl) hcontrol
  · exact iff_of_false (by rwa [event_stopped hcontrol]) hcontrol

theorem genuine_iff (notiWd : Int) (s : Inoti) (x : World × Event) :
    Genuine notiWd s x ↔ NamesReserved notiWd s x := by
  obtain ⟨w, e⟩ := x
  rw [Genuine, NamesReserved, leaves_iff, announces]
  generalize "_POWER_OFF".toList = powerOffName
  by_cases hstopped : s.stopped
  · simp [hstopped]
  · by_cases hoff : w.powerOff
    · simp [hoff]
    · by_cases hname : e.name = powerOffName
      · simp [hstopped, hoff, hname]
      · simp [hstopped, hoff, hname]

end Step

/-- In a run of events the control events are genuine exactly when their names are
reserved. -/
theorem control_genuine_iff (notiWd : Int) (inoti : Inoti) (events : List (World × Event)) :
    Run.EachStep controlStep (Genuine notiWd) inoti events ↔
      Run.EachStep controlStep (NamesReserved notiWd) inoti events :=
  Run.eachStep_congr (genuine_iff notiWd)

/-- The event of a new file on the card, whose watch has the descriptor 3. -/
def cardEvent (name : Text) (h : name.length < 32) : World × Event :=
  ({ fs := { entries := fun _ => [], opens := fun _ => false }, inotifyAddWatch := fun _ => 0 },
    { wd := 3, mask := inCreate, cookie := 0, len := 32, name, terminated := .inl h })

/-- A file on the card stops the thread, and another one announces the database, with
the power on. -/
theorem control_forged :
    let inoti : Inoti := { watches := [⟨msDbUpdateNotiPath, 1⟩, ⟨msRootPathInternal, 2⟩,
      ⟨msRootPathExternal, 3⟩] }
    ¬ Run.EachStep controlStep (Genuine 1) inoti [cardEvent "_POWER_OFF".toList (by decide)] ∧
      ¬ Run.EachStep controlStep (Genuine 1) inoti
        [cardEvent "_FILEOPERATION_END".toList (by decide)] := by
  decide

end MediaServer.Inotify
