import Mathlib.Order.Basic

/-!
# Runs of labelled step functions

A system is a partial step function: a label chooses which party moves and what
the environment answers, and `none` means that the label is not enabled. A run
is a list of labels. The predicates below speak about every point of a run, so
stopping a run early is no separate notion.

`Always` collects the states of a run and `EachStep` its steps. The rules relate
the two through an inductive invariant, in both directions: steps that meet a
condition keep a property, and a property that holds throughout forces every
step to meet the condition.
-/

namespace Run

universe u v

variable {σ : Type u} {α : Type v} {step : σ → α → Option σ}

/-- The state after a run, `none` when a label was not enabled. -/
def exec (step : σ → α → Option σ) : σ → List α → Option σ
  | s, [] => some s
  | s, a :: as => (step s a).bind (fun t => exec step t as)

/-- `P` holds of every state that the run visits, the first one included. -/
def Always (step : σ → α → Option σ) (P : σ → Prop) : σ → List α → Prop
  | s, [] => P s
  | s, a :: as => P s ∧ ∀ t, step s a = some t → Always step P t as

/-- `G` holds of every step that the run takes, seen from the state before it. -/
def EachStep (step : σ → α → Option σ) (G : σ → α → Prop) : σ → List α → Prop
  | _, [] => True
  | s, a :: as => ∀ t, step s a = some t → G s a ∧ EachStep step G t as

instance Always.decidable {P : σ → Prop} [DecidablePred P] :
    (s : σ) → (as : List α) → Decidable (Always step P s as)
  | s, [] => inferInstanceAs (Decidable (P s))
  | s, a :: as =>
      match h : step s a with
      | none => decidable_of_iff (P s) (by simp [Always, h])
      | some t =>
          haveI := Always.decidable (P := P) t as
          decidable_of_iff (P s ∧ Always step P t as) (by simp [Always, h])

instance EachStep.decidable {G : σ → α → Prop} [∀ s a, Decidable (G s a)] :
    (s : σ) → (as : List α) → Decidable (EachStep step G s as)
  | _, [] => isTrue trivial
  | s, a :: as =>
      match h : step s a with
      | none => isTrue (by simp [EachStep, h])
      | some t =>
          haveI := EachStep.decidable (G := G) t as
          decidable_of_iff (G s a ∧ EachStep step G t as) (by simp [EachStep, h])

@[simp] theorem exec_nil (s : σ) : exec step s [] = some s := rfl

@[simp] theorem exec_cons (s : σ) (a : α) (as : List α) :
    exec step s (a :: as) = (step s a).bind (fun t => exec step t as) := rfl

theorem Always.here {P : σ → Prop} {s : σ} {as : List α} (h : Always step P s as) : P s := by
  cases as with
  | nil => exact h
  | cons a as => exact h.1

/-- The property holds at the end of every prefix of the run, which is the same
as holding at every point of it. -/
theorem always_iff_forall_prefix {P : σ → Prop} {s : σ} {as : List α} :
    Always step P s as ↔
      ∀ front back t, as = front ++ back → exec step s front = some t → P t := by
  induction as generalizing s with
  | nil =>
      constructor
      · intro h front back t happ hexec
        obtain ⟨rfl, -⟩ := List.append_eq_nil_iff.mp happ.symm
        obtain rfl := Option.some.inj hexec
        exact h
      · intro h
        exact h [] [] s rfl rfl
  | cons a as ih =>
      constructor
      · intro h front back t happ hexec
        cases front with
        | nil =>
            obtain rfl := Option.some.inj hexec
            exact h.1
        | cons b front =>
            obtain ⟨rfl, rest⟩ := List.cons.inj happ
            obtain ⟨middle, hstep, hrest⟩ := Option.bind_eq_some_iff.mp hexec
            exact ih.mp (h.2 middle hstep) front back t rest hrest
      · intro h
        refine ⟨h [] (a :: as) s rfl rfl, fun t hstep => ih.mpr ?_⟩
        intro front back t' happ hexec
        exact h (a :: front) back t' (by rw [happ, List.cons_append])
          (by rw [exec_cons, hstep]; exact hexec)

theorem Always.of_exec {P : σ → Prop} {s t : σ} {as : List α} (h : Always step P s as)
    (hexec : exec step s as = some t) : P t :=
  always_iff_forall_prefix.mp h as [] t (by simp) hexec

theorem Always.mono {P Q : σ → Prop} (imp : ∀ s, P s → Q s) {s : σ} {as : List α}
    (h : Always step P s as) : Always step Q s as := by
  induction as generalizing s with
  | nil => exact imp s h
  | cons a as ih => exact ⟨imp s h.1, fun t ht => ih (h.2 t ht)⟩

theorem EachStep.and {G H : σ → α → Prop} {s : σ} {as : List α}
    (hg : EachStep step G s as) (hh : EachStep step H s as) :
    EachStep step (fun s a => G s a ∧ H s a) s as := by
  induction as generalizing s with
  | nil => trivial
  | cons a as ih =>
      exact fun t ht => ⟨⟨(hg t ht).1, (hh t ht).1⟩, ih (hg t ht).2 (hh t ht).2⟩

/-- A condition on the actions alone. -/
theorem eachStep_of_forall {G : α → Prop} {as : List α} (h : ∀ a ∈ as, G a) (s : σ) :
    EachStep step (fun _ a => G a) s as := by
  induction as generalizing s with
  | nil => trivial
  | cons a as ih =>
      intro t ht
      exact ⟨h a List.mem_cons_self, ih (fun b hb => h b (List.mem_cons_of_mem a hb)) t⟩

/-- The rule for an invariant that every step preserves, whatever its label. -/
theorem always_of_step {I : σ → Prop} (preserved : ∀ s a t, I s → step s a = some t → I t)
    {s : σ} {as : List α} (start : I s) : Always step I s as := by
  induction as generalizing s with
  | nil => exact start
  | cons a as ih => exact ⟨start, fun t ht => ih (preserved s a t start ht)⟩

/-- The same rule for an observation made at the steps themselves. -/
theorem eachStep_of_step {I : σ → Prop} {Q : σ → α → Prop}
    (preserved : ∀ s a t, I s → step s a = some t → I t) (observed : ∀ s a, I s → Q s a)
    {s : σ} {as : List α} (start : I s) : EachStep step Q s as := by
  induction as generalizing s with
  | nil => trivial
  | cons a as ih => exact fun t ht => ⟨observed s a start, ih (preserved s a t start ht)⟩

/-- Two conditions that agree under an invariant of the system are met by the same
runs. -/
theorem eachStep_congr_of_step {I : σ → Prop} {G H : σ → α → Prop}
    (preserved : ∀ s a t, I s → step s a = some t → I t)
    (iff : ∀ s a, I s → (G s a ↔ H s a)) {s : σ} {as : List α} (start : I s) :
    EachStep step G s as ↔ EachStep step H s as := by
  induction as generalizing s with
  | nil => exact Iff.rfl
  | cons a as ih =>
      exact forall₂_congr fun t ht =>
        and_congr (iff s a start) (ih (preserved s a t start ht))

theorem eachStep_congr {G H : σ → α → Prop} (iff : ∀ s a, G s a ↔ H s a) {s : σ}
    {as : List α} : EachStep step G s as ↔ EachStep step H s as :=
  eachStep_congr_of_step (I := fun _ => True) (fun _ _ _ _ _ => trivial) (fun s a _ => iff s a)
    trivial

section Invariant

variable {I P : σ → Prop} {G Q : σ → α → Prop}

/-- The invariant rule: steps that meet `G` preserve `I`, hence a run of such
steps stays inside `I`. -/
theorem always_of_eachStep (preserved : ∀ s a t, I s → G s a → step s a = some t → I t)
    {s : σ} {as : List α} (start : I s) (good : EachStep step G s as) : Always step I s as := by
  induction as generalizing s with
  | nil => exact start
  | cons a as ih =>
      refine ⟨start, fun t ht => ?_⟩
      obtain ⟨hg, hrest⟩ := good t ht
      exact ih (preserved s a t start hg ht) hrest

/-- The rule for an observation at the steps, under the condition. -/
theorem eachStep_of_eachStep (preserved : ∀ s a t, I s → G s a → step s a = some t → I t)
    (observed : ∀ s a t, I s → G s a → step s a = some t → Q s a)
    {s : σ} {as : List α} (start : I s) (good : EachStep step G s as) :
    EachStep step Q s as := by
  induction as generalizing s with
  | nil => trivial
  | cons a as ih =>
      intro t ht
      obtain ⟨hg, hrest⟩ := good t ht
      exact ⟨observed s a t start hg ht, ih (preserved s a t start hg ht) hrest⟩

/-- When a step that misses `G` always leaves `P`, a run that stays inside `P`
takes only steps that meet `G`. -/
theorem eachStep_of_always (preserved : ∀ s a t, I s → G s a → step s a = some t → I t)
    (broken : ∀ s a t, I s → ¬ G s a → step s a = some t → ¬ P t)
    {s : σ} {as : List α} (start : I s) (always : Always step P s as) :
    EachStep step G s as := by
  induction as generalizing s with
  | nil => trivial
  | cons a as ih =>
      intro t ht
      have hg : G s a := by
        by_contra hbad
        exact broken s a t start hbad ht (always.2 t ht).here
      exact ⟨hg, ih (preserved s a t start hg ht) (always.2 t ht)⟩

/-- When a step that misses `G` leads into `D`, which no step that the environment `E` makes
leaves, a run that ends outside `D` has taken only steps that meet `G`. -/
theorem eachStep_of_exec {D : σ → Prop} {E : σ → α → Prop}
    (preserved : ∀ s a t, I s → E s a → step s a = some t → I t)
    (stays : ∀ s a t, I s → E s a → D s → step s a = some t → D t)
    (broken : ∀ s a t, I s → E s a → ¬ G s a → step s a = some t → D t)
    {s t : σ} {as : List α} (start : I s) (env : EachStep step E s as)
    (hexec : exec step s as = some t) (hend : ¬ D t) : EachStep step G s as ∧ ¬ D s := by
  induction as generalizing s with
  | nil =>
      obtain rfl := Option.some.inj hexec
      exact ⟨trivial, hend⟩
  | cons a as ih =>
      obtain ⟨middle, hstep, hrest⟩ := Option.bind_eq_some_iff.mp hexec
      obtain ⟨he, henv⟩ := env middle hstep
      obtain ⟨hsteps, hout⟩ := ih (preserved s a middle start he hstep) henv hrest
      constructor
      · intro t' ht'
        obtain rfl := Option.some.inj (hstep.symm.trans ht')
        refine ⟨?_, hsteps⟩
        by_contra hbad
        exact hout (broken s a middle start he hbad hstep)
      · exact fun hd => hout (stays s a middle start he hd hstep)

/-- The exact condition: a run keeps `P` everywhere if and only if each of its
steps meets `G`. -/
theorem always_iff_eachStep (preserved : ∀ s a t, I s → G s a → step s a = some t → I t)
    (sound : ∀ s, I s → P s)
    (broken : ∀ s a t, I s → ¬ G s a → step s a = some t → ¬ P t)
    {s : σ} {as : List α} (start : I s) :
    Always step P s as ↔ EachStep step G s as :=
  ⟨eachStep_of_always preserved broken start,
    fun good => (always_of_eachStep preserved start good).mono sound⟩

end Invariant

end Run
