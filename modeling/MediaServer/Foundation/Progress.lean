import MediaServer.Foundation.Run
import Mathlib.Algebra.BigOperators.Group.List.Basic
import Mathlib.Tactic.Ring

/-!
# Runs that come to an end

Some labels are moves of the system itself, the others come from outside. When a measure
falls with every move of its own, and rises with a move from outside by no more than the
cost of that move, then a run holds only so many moves of its own as the measure and the
costs pay for. A system that is either done or can move is therefore done sooner or later,
and needs nobody else for it.
-/

namespace Run

universe u v

variable {σ : Type u} {α : Type v} {step : σ → α → Option σ}

/-- The measure pays for the system's own moves. -/
def Descends (step : σ → α → Option σ) (I : σ → Prop) (own : α → Bool) (cost : α → Nat)
    (measure : σ → Nat) : Prop :=
  ∀ s a t, I s → step s a = some t → measure t + (own a).toNat ≤ measure s + cost a

/-- The system is done, or can move by itself. -/
def Lively (step : σ → α → Option σ) (own : α → Bool) (done : σ → Prop) (s : σ) : Prop :=
  done s ∨ ∃ a t, own a = true ∧ step s a = some t

section Measure

variable {I : σ → Prop} {own : α → Bool} {cost : α → Nat} {measure : σ → Nat}

/-- The number of own moves in a run is bounded by the measure and the costs. -/
theorem countP_add_le (preserved : ∀ s a t, I s → step s a = some t → I t)
    (descends : Descends step I own cost measure) {s t : σ} {as : List α} (start : I s)
    (hexec : exec step s as = some t) :
    as.countP own + measure t ≤ measure s + (as.map cost).sum := by
  induction as generalizing s with
  | nil =>
      obtain rfl := Option.some.inj hexec
      simp
  | cons a as ih =>
      obtain ⟨middle, hstep, hrest⟩ := Option.bind_eq_some_iff.mp hexec
      have hmove := descends s a middle start hstep
      have htail := ih (preserved s a middle start hstep) hrest
      rw [List.countP_cons, List.map_cons, List.sum_cons]
      cases hown : own a with
      | true =>
          rw [hown, Bool.toNat_true] at hmove
          simp only [if_true]
          omega
      | false =>
          rw [hown, Bool.toNat_false] at hmove
          simp only [Bool.false_eq_true, if_false]
          omega

/-- A lively system finishes by itself. -/
theorem exists_exec_done {done : σ → Prop}
    (preserved : ∀ s a t, I s → step s a = some t → I t)
    (descends : Descends step I own cost measure) (free : ∀ a, own a = true → cost a = 0)
    (lively : ∀ s, I s → Lively step own done s) {s : σ} (start : I s) :
    ∃ as t, (∀ a ∈ as, own a = true) ∧ exec step s as = some t ∧ done t := by
  induction hn : measure s using Nat.strongRecOn generalizing s with
  | ind n ih =>
      cases lively s start with
      | inl hdone => exact ⟨[], s, List.forall_mem_nil _, rfl, hdone⟩
      | inr hmove =>
          obtain ⟨a, middle, hown, hstep⟩ := hmove
          have hless : measure middle < n := by
            have hmove := descends s a middle start hstep
            rw [hown, free a hown, Bool.toNat_true] at hmove
            omega
          obtain ⟨as, t, hall, hexec, hdone⟩ :=
            ih (measure middle) hless (preserved s a middle start hstep) rfl
          refine ⟨a :: as, t, List.forall_mem_cons.mpr ⟨hown, hall⟩, ?_, hdone⟩
          rw [exec_cons, hstep]
          exact hexec

end Measure

end Run
