import Mathlib.Data.List.Basic

/-!
# Loops that poll

A long computation is written as the list of its actions: outputs, and polls at
which it may be told to stop. The polls are numbered in the order in which they
are made, and an oracle answers each of them. Cutting the list at the first poll
that is answered with a stop gives what the computation puts out.

A loop of a program refines such a list when it makes the same polls and folds
its state over the same outputs; the lists themselves are built by `++` and
`flatMap`, for which the rules below hold.
-/

namespace Polling

universe u v w

inductive Action (κ : Type u) (α : Type v) where
  | poll (k : κ)
  | emit (a : α)

/-- The outputs, the number of the next poll, and whether a poll stopped it. -/
structure Outcome (α : Type v) where
  emitted : List α
  next : Nat
  stopped : Bool

variable {κ : Type u} {α : Type v} (stops : Nat → κ → Bool)

/-- Perform the actions, the first poll being the `n`-th. -/
def run : Nat → List (Action κ α) → Outcome α
  | n, [] => ⟨[], n, false⟩
  | n, .poll k :: rest => if stops n k then ⟨[], n + 1, true⟩ else run (n + 1) rest
  | n, .emit a :: rest =>
      let r := run n rest
      ⟨a :: r.emitted, r.next, r.stopped⟩

/-- The outputs of a list of actions that no poll stops. -/
def outputs : List (Action κ α) → List α
  | [] => []
  | .poll _ :: rest => outputs rest
  | .emit a :: rest => a :: outputs rest

/-- The action list puts out `a` before any poll stops it. -/
def Reaches (n : Nat) (actions : List (Action κ α)) (a : α) : Prop :=
  ∃ front back, actions = front ++ .emit a :: back ∧ (run stops n front).stopped = false

@[simp] theorem run_nil (n : Nat) : run stops n ([] : List (Action κ α)) = ⟨[], n, false⟩ := rfl

@[simp] theorem run_emit (n : Nat) (a : α) (rest : List (Action κ α)) :
    run stops n (.emit a :: rest) =
      ⟨a :: (run stops n rest).emitted, (run stops n rest).next, (run stops n rest).stopped⟩ := rfl

@[simp] theorem outputs_append (xs ys : List (Action κ α)) :
    outputs (xs ++ ys) = outputs xs ++ outputs ys := by
  induction xs with
  | nil => rfl
  | cons x xs ih =>
      cases x with
      | poll k => exact ih
      | emit a => exact congrArg (a :: ·) ih

variable {stops}

theorem run_poll_of_stops {n : Nat} {k : κ} {rest : List (Action κ α)} (h : stops n k = true) :
    run stops n (.poll k :: rest) = ⟨[], n + 1, true⟩ := if_pos h

theorem run_poll_of_not_stops {n : Nat} {k : κ} {rest : List (Action κ α)}
    (h : stops n k = false) : run stops n (.poll k :: rest) = run stops (n + 1) rest :=
  if_neg (by rw [h]; nofun)

theorem emitted_of_not_stopped {n : Nat} {xs : List (Action κ α)}
    (h : (run stops n xs).stopped = false) : (run stops n xs).emitted = outputs xs := by
  induction xs generalizing n with
  | nil => rfl
  | cons x xs ih =>
      cases x with
      | poll k =>
          cases hk : stops n k with
          | true =>
              rw [run_poll_of_stops hk] at h
              cases h
          | false =>
              rw [run_poll_of_not_stops hk] at h ⊢
              exact ih h
      | emit a => exact congrArg (a :: ·) (ih h)

/-- A computation that is stopped puts out the beginning. -/
theorem emitted_initial (n : Nat) (xs : List (Action κ α)) :
    (run stops n xs).emitted <+: outputs xs := by
  induction xs generalizing n with
  | nil => exact List.prefix_refl []
  | cons x xs ih =>
      cases x with
      | poll k =>
          cases hk : stops n k with
          | true =>
              rw [run_poll_of_stops hk]
              exact List.nil_prefix
          | false =>
              rw [run_poll_of_not_stops hk]
              exact ih (n + 1)
      | emit a => exact List.prefix_cons_iff.mpr (.inr ⟨_, rfl, ih n⟩)

/-- An undisturbed computation puts out everything. -/
theorem emitted_of_never (n : Nat) (xs : List (Action κ α)) :
    (run (fun _ _ => false) n xs).emitted = outputs xs := by
  refine emitted_of_not_stopped ?_
  induction xs generalizing n with
  | nil => rfl
  | cons x xs ih =>
      cases x with
      | poll k => exact ih (n + 1)
      | emit a => exact ih n

theorem run_append_of_stopped {n : Nat} {xs : List (Action κ α)} (ys : List (Action κ α))
    (h : (run stops n xs).stopped = true) : run stops n (xs ++ ys) = run stops n xs := by
  induction xs generalizing n with
  | nil => cases h
  | cons x xs ih =>
      cases x with
      | poll k =>
          cases hk : stops n k with
          | true => rw [List.cons_append, run_poll_of_stops hk, run_poll_of_stops hk]
          | false =>
              rw [run_poll_of_not_stops hk] at h
              rw [List.cons_append, run_poll_of_not_stops hk, run_poll_of_not_stops hk, ih h]
      | emit a =>
          rw [List.cons_append, run_emit, run_emit, ih h]

theorem run_append_of_not_stopped {n : Nat} {xs : List (Action κ α)} (ys : List (Action κ α))
    (h : (run stops n xs).stopped = false) :
    run stops n (xs ++ ys) =
      ⟨(run stops n xs).emitted ++ (run stops (run stops n xs).next ys).emitted,
        (run stops (run stops n xs).next ys).next,
        (run stops (run stops n xs).next ys).stopped⟩ := by
  induction xs generalizing n with
  | nil => rfl
  | cons x xs ih =>
      cases x with
      | poll k =>
          cases hk : stops n k with
          | true =>
              rw [run_poll_of_stops hk] at h
              cases h
          | false =>
              rw [run_poll_of_not_stops hk] at h
              rw [List.cons_append, run_poll_of_not_stops hk, run_poll_of_not_stops hk, ih h]
      | emit a =>
          rw [List.cons_append, run_emit, run_emit, ih h]
          rfl

/-- What is put out is what is reached. -/
theorem mem_emitted_iff {n : Nat} {actions : List (Action κ α)} {a : α} :
    a ∈ (run stops n actions).emitted ↔ Reaches stops n actions a := by
  constructor
  · intro h
    induction actions generalizing n with
    | nil => cases h
    | cons x xs ih =>
        cases x with
        | poll k =>
            cases hk : stops n k with
            | true =>
                rw [run_poll_of_stops hk] at h
                cases h
            | false =>
                rw [run_poll_of_not_stops hk] at h
                obtain ⟨front, back, rfl, hfront⟩ := ih h
                exact ⟨.poll k :: front, back, rfl, by rwa [run_poll_of_not_stops hk]⟩
        | emit b =>
            rw [run_emit] at h
            rcases List.mem_cons.mp h with rfl | h
            · exact ⟨[], xs, rfl, rfl⟩
            · obtain ⟨front, back, rfl, hfront⟩ := ih h
              exact ⟨.emit b :: front, back, rfl, hfront⟩
  · rintro ⟨front, back, rfl, hfront⟩
    rw [run_append_of_not_stopped _ hfront]
    exact List.mem_append_right _ List.mem_cons_self

end Polling
