import Mathlib.Logic.Function.Basic

/-!
# Stores into a buffer

A program that fills a buffer is described by its stores in their order. The stores alone
say whether it stays within the buffer; applied to what the buffer held before, they say
what the buffer holds in the end.
-/

namespace Stores

variable {α : Type}

structure Store (α : Type) where
  index : Nat
  value : α
deriving DecidableEq, Repr

/-- The stores of a copy to an index. -/
def copy : Nat → List α → List (Store α)
  | _, [] => []
  | start, x :: xs => ⟨start, x⟩ :: copy (start + 1) xs

/-- No store at or beyond the size. -/
def Within (size : Nat) (stores : List (Store α)) : Prop := ∀ s ∈ stores, s.index < size

instance (size : Nat) (stores : List (Store α)) : Decidable (Within size stores) :=
  inferInstanceAs (Decidable (∀ s ∈ stores, s.index < size))

def run (stores : List (Store α)) (buffer : Nat → α) : Nat → α :=
  stores.foldl (fun buffer s => Function.update buffer s.index s.value) buffer

/-- The buffer holds these values from an index on. -/
def Reads (buffer : Nat → α) : Nat → List α → Prop
  | _, [] => True
  | start, x :: xs => buffer start = x ∧ Reads buffer (start + 1) xs

section Within

variable {size start : Nat} {xs : List α} {stores others : List (Store α)}

@[simp] theorem within_nil : Within size ([] : List (Store α)) := nofun

@[simp] theorem within_cons {s : Store α} :
    Within size (s :: stores) ↔ s.index < size ∧ Within size stores :=
  List.forall_mem_cons

@[simp] theorem within_append :
    Within size (stores ++ others) ↔ Within size stores ∧ Within size others :=
  List.forall_mem_append

theorem index_of_mem_copy {s : Store α} (h : s ∈ copy start xs) :
    start ≤ s.index ∧ s.index < start + xs.length := by
  induction xs generalizing start with
  | nil => cases h
  | cons x xs ih =>
      rw [List.length_cons]
      cases List.mem_cons.mp h with
      | inl heq =>
          subst heq
          show start ≤ start ∧ start < _
          omega
      | inr hrest =>
          have hindex := ih hrest
          omega

theorem within_copy (h : start + xs.length ≤ size) : Within size (copy start xs) := by
  intro s hs
  have hindex := index_of_mem_copy hs
  omega

end Within

section Run

variable {i start : Nat} {xs ys : List α} {stores others : List (Store α)}
variable {buffer buffer' : Nat → α}

@[simp] theorem run_nil : run [] buffer = buffer := rfl

@[simp] theorem run_cons (s : Store α) :
    run (s :: stores) buffer = run stores (Function.update buffer s.index s.value) := rfl

theorem run_append : run (stores ++ others) buffer = run others (run stores buffer) :=
  List.foldl_append

theorem run_concat (s : Store α) :
    run (stores ++ [s]) buffer = Function.update (run stores buffer) s.index s.value :=
  run_append

/-- What no store hits stays. -/
theorem run_of_untouched (h : ∀ s ∈ stores, s.index ≠ i) : run stores buffer i = buffer i := by
  induction stores generalizing buffer with
  | nil => rfl
  | cons s stores ih =>
      obtain ⟨hs, hrest⟩ := List.forall_mem_cons.mp h
      rw [run_cons, ih hrest, Function.update_of_ne hs.symm]

theorem Reads.frame (h : Reads buffer start xs)
    (same : ∀ i, start ≤ i → i < start + xs.length → buffer' i = buffer i) :
    Reads buffer' start xs := by
  induction xs generalizing start with
  | nil => trivial
  | cons x xs ih =>
      obtain ⟨hx, hrest⟩ := h
      rw [List.length_cons] at same
      refine ⟨(same start (by omega) (by omega)).trans hx, ih hrest fun i hlow hhigh => ?_⟩
      exact same i (by omega) (by omega)

theorem reads_append :
    Reads buffer start (xs ++ ys) ↔
      Reads buffer start xs ∧ Reads buffer (start + xs.length) ys := by
  induction xs generalizing start with
  | nil => exact (iff_of_eq (true_and _)).symm
  | cons x xs ih =>
      show _ ∧ Reads buffer (start + 1) (xs ++ ys) ↔ (_ ∧ _) ∧ _
      have hstart : start + (xs.length + 1) = start + 1 + xs.length := by omega
      rw [ih, List.length_cons, hstart, and_assoc]

theorem Reads.get {k : Nat} (h : Reads buffer start xs) (hk : k < xs.length) :
    buffer (start + k) = xs[k] := by
  induction xs generalizing start k with
  | nil => cases hk
  | cons x xs ih =>
      cases k with
      | zero => exact h.1
      | succ k =>
          have hrest := ih h.2 (Nat.lt_of_succ_lt_succ hk)
          rw [List.getElem_cons_succ, ← hrest]
          congr 1
          omega

/-- What is copied is there. -/
theorem reads_copy : Reads (run (copy start xs) buffer) start xs := by
  induction xs generalizing start buffer with
  | nil => trivial
  | cons x xs ih =>
      refine ⟨?_, ih⟩
      rw [copy, run_cons, run_of_untouched, Function.update_self]
      intro s hs
      have hindex := index_of_mem_copy hs
      omega

/-- A store in front of the values or behind them does not matter. -/
theorem Reads.update (h : Reads buffer start xs) {value : α}
    (hi : i < start ∨ start + xs.length ≤ i) : Reads (Function.update buffer i value) start xs := by
  refine h.frame fun j hlow hhigh => Function.update_of_ne ?_ _ _
  omega

end Run

end Stores
