import Mathlib.Data.List.Basic

/-!
# What has happened before and since

A history is the list of what has happened, the latest last. A property of a history may
speak, for each thing in it, about what came before and what came after. Such a property
is kept up one entry at a time: the new entry has nothing behind it yet, and stands behind
everything else.
-/

namespace History

universe u

variable {α : Type u}

/-- `P` holds of every entry, with what precedes and what follows it. -/
def Throughout (P : List α → α → List α → Prop) (history : List α) : Prop :=
  ∀ before a since, history = before ++ a :: since → P before a since

variable {P Q : List α → α → List α → Prop} {history : List α}

theorem throughout_nil : Throughout P [] := by
  intro before a since h
  cases before <;> cases h

theorem throughout_concat {a : α} :
    Throughout P (history ++ [a]) ↔
      P history a [] ∧ Throughout (fun before b since => P before b (since ++ [a])) history := by
  constructor
  · intro h
    refine ⟨h history a [] rfl, fun before b since heq => h before b (since ++ [a]) ?_⟩
    rw [heq, List.append_assoc, List.cons_append]
  · rintro ⟨hnew, hold⟩ before b since heq
    rcases List.eq_nil_or_concat since with rfl | ⟨rest, c, rfl⟩
    · obtain ⟨rfl, hb⟩ := List.append_inj' heq rfl
      obtain ⟨rfl, -⟩ := List.cons.inj hb
      exact hnew
    · rw [List.concat_eq_append] at heq ⊢
      rw [← List.cons_append, ← List.append_assoc] at heq
      obtain ⟨rfl, hc⟩ := List.append_inj' heq rfl
      obtain ⟨rfl, -⟩ := List.cons.inj hc
      exact hold before b rest rfl

theorem Throughout.mono (h : Throughout P history)
    (imp : ∀ before a since, P before a since → Q before a since) : Throughout Q history :=
  fun before a since heq => imp before a since (h before a since heq)

end History
