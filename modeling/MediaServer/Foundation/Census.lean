import Mathlib.Data.Set.Basic
import Mathlib.Logic.Function.Basic
import Mathlib.Logic.Relation

/-!
# Entering after a census

Parties come and go, and at most one of them may be inside. There is no lock: a party is
visible from the moment it is present. It writes down everybody else who is present at
some moment, and enters only when none of these is left to be looked at. Whoever meets
another one on the way gives up.

Of two parties that are both writing their lists, the later one has the earlier one on
its list, since that one was present already. The invariant says no more than that.
-/

namespace Census

universe u

/-- Where a party stands. -/
inductive Phase (ι : Type u) where
  | absent
  | present
  /-- These have still to be looked at. -/
  | scanning (pending : Set ι)
  | entered
  | refused

namespace Phase

variable {ι : Type u}

/-- A party that has left is not looked at any more. -/
def forget (j : ι) : Phase ι → Phase ι
  | .scanning pending => .scanning (pending \ {j})
  | phase => phase

variable {j : ι} {phase : Phase ι} {pending : Set ι}

@[simp] theorem forget_eq_entered : phase.forget j = .entered ↔ phase = .entered := by
  cases phase <;> simp [forget]

theorem forget_eq_scanning :
    phase.forget j = .scanning pending ↔ ∃ before, phase = .scanning before ∧
      before \ {j} = pending := by
  cases phase <;> simp [forget]

end Phase

variable {ι : Type u} [DecidableEq ι]

/-- One move of the parties `s`. -/
inductive Step (s : ι → Phase ι) : (ι → Phase ι) → Prop where
  | appear (i : ι) : s i = .absent → Step s (Function.update s i .present)
  | withdraw (i : ι) : s i = .present → Step s (Function.update s i .absent)
  | scan (i : ι) (pending : Set ι) : s i = .present →
      (∀ j, j ≠ i → s j ≠ .absent → j ∈ pending) →
      Step s (Function.update s i (.scanning pending))
  /-- Only an absent party is passed over. -/
  | cross (i j : ι) (pending : Set ι) : s i = .scanning pending → s j = .absent →
      Step s (Function.update s i (.scanning (pending \ {j})))
  | enter (i : ι) : s i = .scanning ∅ → Step s (Function.update s i .entered)
  | refuse (i : ι) : s i ≠ .absent → Step s (Function.update s i .refused)
  | leave (j : ι) : Step s fun i => if i = j then .absent else (s i).forget j

/-- Of two parties that have begun to scan, one has still to look at the other one. -/
structure Ordered (s : ι → Phase ι) : Prop where
  entered : ∀ i j, s i = .entered → s j = .entered → i = j
  pendingEntered : ∀ i j pending, s i = .entered → s j = .scanning pending → i ∈ pending
  pendingScanning : ∀ i j pending others, i ≠ j → s i = .scanning pending →
    s j = .scanning others → j ∈ pending ∨ i ∈ others

variable {s t : ι → Phase ι}

section Update

variable {i : ι} {phase : Phase ι}

/-- A party that is neither inside nor scanning does not matter. -/
theorem Ordered.update_quiet (h : Ordered s) (hentered : phase ≠ .entered)
    (hscanning : ∀ pending, phase ≠ .scanning pending) :
    Ordered (Function.update s i phase) := by
  have entered : ∀ j, Function.update s i phase j = .entered → s j = .entered := by
    intro j hj
    rw [Function.update_apply] at hj
    split at hj
    next => exact absurd hj hentered
    next => exact hj
  have scanning : ∀ j pending, Function.update s i phase j = .scanning pending →
      s j = .scanning pending := by
    intro j pending hj
    rw [Function.update_apply] at hj
    split at hj
    next => exact absurd hj (hscanning pending)
    next => exact hj
  constructor
  · exact fun j k hj hk => h.entered j k (entered j hj) (entered k hk)
  · exact fun j k pending hj hk =>
      h.pendingEntered j k pending (entered j hj) (scanning k pending hk)
  · exact fun j k pending others hjk hj hk =>
      h.pendingScanning j k pending others hjk (scanning j pending hj) (scanning k others hk)

/-- A list that has everybody on it who matters. -/
theorem Ordered.update_scanning (h : Ordered s) {pending : Set ι}
    (hentered : ∀ j, j ≠ i → s j = .entered → j ∈ pending)
    (hscanning : ∀ j others, j ≠ i → s j = .scanning others → j ∈ pending ∨ i ∈ others) :
    Ordered (Function.update s i (.scanning pending)) := by
  have entered : ∀ j, Function.update s i (.scanning pending) j = .entered →
      j ≠ i ∧ s j = .entered := by
    intro j hj
    rw [Function.update_apply] at hj
    split at hj
    next => cases hj
    next hne => exact ⟨hne, hj⟩
  constructor
  · exact fun j k hj hk => h.entered j k (entered j hj).2 (entered k hk).2
  · intro j k others hj hk
    obtain ⟨hne, hj⟩ := entered j hj
    rw [Function.update_apply] at hk
    split at hk
    next =>
      obtain rfl := Phase.scanning.inj hk
      exact hentered j hne hj
    next => exact h.pendingEntered j k others hj hk
  · intro j k front back hjk hj hk
    rw [Function.update_apply] at hj hk
    split at hj
    next hji =>
      obtain rfl := Phase.scanning.inj hj
      subst hji
      rw [if_neg (Ne.symm hjk)] at hk
      exact hscanning k back (Ne.symm hjk) hk
    next hji =>
      split at hk
      next hki =>
        obtain rfl := Phase.scanning.inj hk
        subst hki
        exact (hscanning j front hji hj).symm
      next => exact h.pendingScanning j k front back hjk hj hk

/-- Nobody is left on the list. -/
theorem Ordered.update_entered (h : Ordered s) (hi : s i = .scanning ∅) :
    Ordered (Function.update s i .entered) := by
  have nobody : ∀ j, s j ≠ .entered := fun j hj =>
    Set.notMem_empty j (h.pendingEntered j i ∅ hj hi)
  have entered : ∀ j, Function.update s i .entered j = .entered → j = i := by
    intro j hj
    rw [Function.update_apply] at hj
    split at hj
    next hji => exact hji
    next => exact absurd hj (nobody j)
  have scanning : ∀ j pending, Function.update s i .entered j = .scanning pending →
      j ≠ i ∧ s j = .scanning pending := by
    intro j pending hj
    rw [Function.update_apply] at hj
    split at hj
    next => cases hj
    next hne => exact ⟨hne, hj⟩
  constructor
  · exact fun j k hj hk => (entered j hj).trans (entered k hk).symm
  · intro j k pending hj hk
    obtain rfl := entered j hj
    obtain ⟨hne, hk⟩ := scanning k pending hk
    exact (h.pendingScanning j k ∅ pending (Ne.symm hne) hi hk).resolve_left
      (Set.notMem_empty k)
  · exact fun j k pending others hjk hj hk =>
      h.pendingScanning j k pending others hjk (scanning j pending hj).2
        (scanning k others hk).2

end Update

/-- The party goes, and every list gets shorter by it. -/
theorem Ordered.leave (h : Ordered s) (j : ι) :
    Ordered fun i => if i = j then .absent else (s i).forget j := by
  have entered : ∀ i, (if i = j then .absent else (s i).forget j) = .entered →
      i ≠ j ∧ s i = .entered := by
    intro i hi
    split at hi
    next => cases hi
    next hne => exact ⟨hne, Phase.forget_eq_entered.mp hi⟩
  have scanning : ∀ i pending, (if i = j then .absent else (s i).forget j) = .scanning pending →
      i ≠ j ∧ ∃ before, s i = .scanning before ∧ before \ {j} = pending := by
    intro i pending hi
    split at hi
    next => cases hi
    next hne => exact ⟨hne, Phase.forget_eq_scanning.mp hi⟩
  constructor
  · exact fun i k hi hk => h.entered i k (entered i hi).2 (entered k hk).2
  · intro i k pending hi hk
    obtain ⟨hne, hi⟩ := entered i hi
    obtain ⟨-, before, hbefore, rfl⟩ := scanning k pending hk
    exact ⟨h.pendingEntered i k before hi hbefore, hne⟩
  · intro i k pending others hik hi hk
    obtain ⟨hij, front, hfront, rfl⟩ := scanning i pending hi
    obtain ⟨hkj, back, hback, rfl⟩ := scanning k others hk
    exact (h.pendingScanning i k front back hik hfront hback).imp (fun hmem => ⟨hmem, hkj⟩)
      fun hmem => ⟨hmem, hij⟩

/-- Every move keeps the order of the lists. -/
theorem Step.ordered (hstep : Step s t) (h : Ordered s) : Ordered t := by
  cases hstep with
  | appear i hi => exact h.update_quiet (by rintro ⟨⟩) (by rintro _ ⟨⟩)
  | withdraw i hi => exact h.update_quiet (by rintro ⟨⟩) (by rintro _ ⟨⟩)
  | scan i pending hi hall =>
      refine h.update_scanning (fun j hne hj => hall j hne (by rw [hj]; rintro ⟨⟩)) ?_
      exact fun j others hne hj => .inl (hall j hne (by rw [hj]; rintro ⟨⟩))
  | cross i j pending hi hj =>
      refine h.update_scanning (fun k hne hk => ⟨h.pendingEntered k i pending hk hi, ?_⟩) ?_
      · rintro rfl
        rw [hj] at hk
        cases hk
      · intro k others hne hk
        refine (h.pendingScanning i k pending others (Ne.symm hne) hi hk).imp_left fun hmem => ?_
        refine ⟨hmem, ?_⟩
        rintro rfl
        rw [hj] at hk
        cases hk
  | enter i hi => exact h.update_entered hi
  | refuse i hi => exact h.update_quiet (by rintro ⟨⟩) (by rintro _ ⟨⟩)
  | leave j => exact h.leave j

/-- At most one party is inside after any moves from a state without parties inside or
scanning. -/
theorem ordered_of_reflTransGen (h : Ordered s) (hrun : Relation.ReflTransGen Step s t) :
    Ordered t := by
  induction hrun with
  | refl => exact h
  | tail _ hstep ih => exact hstep.ordered ih

end Census
