import MediaServer.Foundation.Run

/-!
# Refinement of runs

A system of small steps refines one of large steps when each small step is a large one, or
several, or none, as seen through an abstraction. Every run of the small steps is then a run
of the large ones, and what is always true there is true of the abstraction here.
-/

namespace Run

universe u v

variable {σ τ : Type u} {α β : Type v} {step : σ → α → Option σ} {coarse : τ → β → Option τ}

theorem exec_append {s : σ} {as bs : List α} :
    exec step s (as ++ bs) = (exec step s as).bind fun t => exec step t bs := by
  induction as generalizing s with
  | nil => rfl
  | cons a as ih => simp [ih, Option.bind_assoc]

/-- Each step, from a state with the invariant, is matched by a run. -/
def Refines (step : σ → α → Option σ) (coarse : τ → β → Option τ) (I : σ → Prop) (abs : σ → τ) :
    Prop :=
  ∀ s a t, I s → step s a = some t → ∃ bs, exec coarse (abs s) bs = some (abs t)

/-- A step that changes nothing as seen through the abstraction. -/
theorem refines_stutter {abs : σ → τ} {s t : σ} (h : abs t = abs s) :
    ∃ bs, exec coarse (abs s) bs = some (abs t) :=
  ⟨[], congrArg some h.symm⟩

theorem refines_one {abs : σ → τ} {s t : σ} {b : β} (h : coarse (abs s) b = some (abs t)) :
    ∃ bs, exec coarse (abs s) bs = some (abs t) :=
  ⟨[b], by rw [exec_cons, h]; rfl⟩

theorem Refines.exec {I : σ → Prop} {abs : σ → τ} (h : Refines step coarse I abs)
    (preserved : ∀ s a t, I s → step s a = some t → I t) {s t : σ} {as : List α} (start : I s)
    (hexec : exec step s as = some t) : ∃ bs, Run.exec coarse (abs s) bs = some (abs t) := by
  induction as generalizing s with
  | nil =>
      obtain rfl := Option.some.inj hexec
      exact ⟨[], rfl⟩
  | cons a as ih =>
      obtain ⟨middle, hstep, hrest⟩ := Option.bind_eq_some_iff.mp hexec
      obtain ⟨first, hfirst⟩ := h s a middle start hstep
      obtain ⟨rest, hlast⟩ := ih (preserved s a middle start hstep) hrest
      refine ⟨first ++ rest, ?_⟩
      rw [exec_append, hfirst]
      exact hlast

/-- Each large step between related states is matched by a run of small ones; so is then a
run of large steps. -/
theorem exec_of_matched {R : τ → σ → Prop} {G : β → Prop}
    (matched : ∀ u b v s, R u s → G b → coarse u b = some v →
      ∃ as t, Run.exec step s as = some t ∧ R v t) {u v : τ} {s : σ} {bs : List β} (related : R u s)
    (guarded : ∀ b ∈ bs, G b) (hexec : Run.exec coarse u bs = some v) :
    ∃ as t, Run.exec step s as = some t ∧ R v t := by
  induction bs generalizing u s with
  | nil =>
      obtain rfl := Option.some.inj hexec
      exact ⟨[], s, rfl, related⟩
  | cons b bs ih =>
      obtain ⟨middle, hstep, hrest⟩ := Option.bind_eq_some_iff.mp hexec
      obtain ⟨hguard, hguards⟩ := List.forall_mem_cons.mp guarded
      obtain ⟨first, t, hfirst, hmiddle⟩ := matched u b middle s related hguard hstep
      obtain ⟨rest, t', hlast, hend⟩ := ih hmiddle hguards hrest
      refine ⟨first ++ rest, t', ?_, hend⟩
      rw [exec_append, hfirst]
      exact hlast

end Run
