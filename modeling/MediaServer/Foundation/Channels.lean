import MediaServer.Foundation.Refinement
import Mathlib.Data.List.Count

/-!
# What is said over several channels

A trace is a list of messages, each over a channel. A protocol is a partial step function
that every channel has to follow by itself; the messages of different channels may be mixed
in any way. A message that goes over all channels of a list moves each of them on by one
step, and messages that keep a property of the states keep it wherever they go.
-/

namespace Channels

universe u v w

variable {κ : Type u} {α : Type v} {σ : Type w} [DecidableEq κ]

/-- The messages over one channel. -/
def carried (k : κ) (trace : List (κ × α)) : List α :=
  (trace.filter fun x => x.1 = k).map Prod.snd

@[simp] theorem carried_nil (k : κ) : carried k ([] : List (κ × α)) = [] := rfl

@[simp] theorem carried_append (k : κ) (trace trace' : List (κ × α)) :
    carried k (trace ++ trace') = carried k trace ++ carried k trace' := by
  simp [carried]

theorem mem_carried {k : κ} {trace : List (κ × α)} {a : α} :
    a ∈ carried k trace ↔ (k, a) ∈ trace := by
  simp [carried]

theorem carried_eq_nil {k : κ} {trace : List (κ × α)} (h : ∀ x ∈ trace, x.1 ≠ k) :
    carried k trace = [] := by
  rw [carried, List.map_eq_nil_iff, List.filter_eq_nil_iff]
  simpa using h

/-- A message to a list of channels reaches each of them as often as it is in the list. -/
theorem carried_map [BEq κ] [LawfulBEq κ] (k : κ) (channels : List κ) (a : α) :
    carried k (channels.map fun c => (c, a)) = List.replicate (channels.count k) a := by
  induction channels with
  | nil => rfl
  | cons c channels ih =>
      rw [List.map_cons, List.count_cons, ← List.singleton_append, carried_append, ih]
      by_cases hc : c = k
      · simp [carried, hc, List.replicate_succ]
      · simp [carried, hc]

section Protocol

variable {step : σ → α → Option σ} {start s : σ} {k : κ} {trace talks : List (κ × α)}

/-- The state of a channel in the protocol, `none` when it has left the protocol. -/
def stateOf (step : σ → α → Option σ) (start : σ) (trace : List (κ × α)) (k : κ) : Option σ :=
  Run.exec step start (carried k trace)

theorem stateOf_append :
    stateOf step start (trace ++ talks) k =
      (stateOf step start trace k).bind fun s => Run.exec step s (carried k talks) := by
  rw [stateOf, carried_append, Run.exec_append]
  rfl

theorem stateOf_append_of_notMem (h : ∀ x ∈ talks, x.1 ≠ k) :
    stateOf step start (trace ++ talks) k = stateOf step start trace k := by
  rw [stateOf, carried_append, carried_eq_nil h, List.append_nil]
  rfl

/-- A channel that follows the protocol has followed it all along. -/
theorem exists_stateOf_of_append {t : σ}
    (h : stateOf step start (trace ++ talks) k = some t) :
    ∃ s, stateOf step start trace k = some s ∧ Run.exec step s (carried k talks) = some t := by
  rw [stateOf_append] at h
  exact Option.bind_eq_some_iff.mp h

/-- Messages that are in order wherever a property holds, and keep it. -/
theorem exec_of_keeps {W : σ → Prop} {as : List α}
    (keeps : ∀ a ∈ as, ∀ s, W s → ∃ t, step s a = some t ∧ W t) (h : W s) :
    ∃ t, Run.exec step s as = some t ∧ W t := by
  induction as generalizing s with
  | nil => exact ⟨s, rfl, h⟩
  | cons a as ih =>
      obtain ⟨middle, hstep, hmiddle⟩ := keeps a List.mem_cons_self s h
      obtain ⟨t, ht, hW⟩ := ih (fun b hb => keeps b (List.mem_cons_of_mem a hb)) hmiddle
      exact ⟨t, by rw [Run.exec_cons, hstep]; exact ht, hW⟩

theorem stateOf_of_keeps {W : σ → Prop}
    (keeps : ∀ x ∈ talks, ∀ s, W s → ∃ t, step s x.2 = some t ∧ W t)
    (h : ∃ s, stateOf step start trace k = some s ∧ W s) :
    ∃ t, stateOf step start (trace ++ talks) k = some t ∧ W t := by
  obtain ⟨s, hs, hW⟩ := h
  have hkeeps : ∀ a ∈ carried k talks, ∀ s, W s → ∃ t, step s a = some t ∧ W t :=
    fun a ha => keeps (k, a) (mem_carried.mp ha)
  obtain ⟨t, ht, hW'⟩ := exec_of_keeps hkeeps hW
  exact ⟨t, by rw [stateOf_append, hs]; exact ht, hW'⟩

/-- A message to a list of channels in which this one occurs once. -/
theorem stateOf_map [BEq κ] [LawfulBEq κ] {channels : List κ} {a : α} {W W' : σ → Prop}
    (hone : channels.count k = 1)
    (moves : ∀ s, W s → ∃ t, step s a = some t ∧ W' t)
    (h : ∃ s, stateOf step start trace k = some s ∧ W s) :
    ∃ t, stateOf step start (trace ++ channels.map fun c => (c, a)) k = some t ∧ W' t := by
  obtain ⟨s, hs, hW⟩ := h
  obtain ⟨t, ht, hW'⟩ := moves s hW
  refine ⟨t, ?_, hW'⟩
  rw [stateOf_append, hs, carried_map, hone]
  simpa using ht

end Protocol

end Channels
