import Mathlib.Data.List.Basic

/-!
# Accounts of acquired resources

A program acquires resources, passes them on and releases them, and a release may fail.
The entries of a ledger are what it does, in order. The account behind them knows the
live resources, and those of which no release has been tried. At some points the program
has to have settled its account: a release of every resource has been tried by then.

The rules below give the account after a block of equal entries, and say when such a
block keeps the books balanced.
-/

namespace Ledger

universe u

/-- A place that no acquisition has filled is passed on, or released, as `none`. -/
inductive Entry (α : Type u) where
  | acquire (a : α)
  | pass (place : Option α)
  | release (place : Option α) (ok : Bool)
  | settle
deriving DecidableEq, Repr

structure Account (α : Type u) where
  /-- Acquired, and not released. -/
  live : List α := []
  /-- Acquired, and no release of it has been tried. -/
  untried : List α := []
deriving DecidableEq, Repr

namespace Account

variable {α : Type u} [DecidableEq α] {account : Account α}

def post (account : Account α) : Entry α → Account α
  | .acquire a => { live := account.live ++ [a], untried := account.untried ++ [a] }
  | .release (some a) ok =>
      { live := if ok then account.live.filter (· ≠ a) else account.live
        untried := account.untried.filter (· ≠ a) }
  | .pass _ | .release none _ | .settle => account

/-- The entry is in order: what is passed on has been acquired, what is released is still
live, and no account is settled with an untried resource. -/
def Allows (account : Account α) : Entry α → Prop
  | .acquire _ => True
  | .pass place => place.isSome
  | .release place _ => ∃ a ∈ place, a ∈ account.live
  | .settle => account.untried = []

def postAll (account : Account α) (entries : List (Entry α)) : Account α :=
  entries.foldl post account

/-- Every entry is in order when it is made. -/
def Balanced : Account α → List (Entry α) → Prop
  | _, [] => True
  | account, e :: entries => account.Allows e ∧ (account.post e).Balanced entries

instance (account : Account α) : DecidablePred account.Allows
  | .acquire _ => isTrue trivial
  | .pass place => inferInstanceAs (Decidable (place.isSome = true))
  | .release place _ => inferInstanceAs (Decidable (∃ a ∈ place, a ∈ account.live))
  | .settle => inferInstanceAs (Decidable (account.untried = []))

instance Balanced.decidable :
    (account : Account α) → (entries : List (Entry α)) → Decidable (account.Balanced entries)
  | _, [] => isTrue trivial
  | account, e :: entries =>
      haveI := Balanced.decidable (account.post e) entries
      inferInstanceAs (Decidable (account.Allows e ∧ (account.post e).Balanced entries))

@[simp] theorem postAll_nil : account.postAll [] = account := rfl

theorem postAll_cons (e : Entry α) (entries : List (Entry α)) :
    account.postAll (e :: entries) = (account.post e).postAll entries := rfl

theorem postAll_append (front back : List (Entry α)) :
    account.postAll (front ++ back) = (account.postAll front).postAll back :=
  List.foldl_append

theorem balanced_append (front back : List (Entry α)) :
    account.Balanced (front ++ back) ↔
      account.Balanced front ∧ (account.postAll front).Balanced back := by
  induction front generalizing account with
  | nil => exact (and_iff_right trivial).symm
  | cons e front ih =>
      rw [List.cons_append, Balanced, ih, Balanced, and_assoc]
      rfl

theorem balanced_singleton (e : Entry α) : account.Balanced [e] ↔ account.Allows e :=
  and_iff_left trivial

section Blocks

variable (as : List α) (places : List (Option α))

@[simp] theorem postAll_acquire :
    account.postAll (as.map .acquire) =
      { live := account.live ++ as, untried := account.untried ++ as } := by
  induction as generalizing account with
  | nil => simp
  | cons a as ih =>
      rw [List.map_cons, postAll_cons, ih]
      simp [post]

theorem balanced_acquire : account.Balanced (as.map .acquire) := by
  induction as generalizing account with
  | nil => trivial
  | cons a as ih => exact ⟨trivial, ih⟩

@[simp] theorem postAll_pass : account.postAll (places.map .pass) = account := by
  induction places with
  | nil => rfl
  | cons place places ih => exact ih

theorem balanced_pass (h : ∀ place ∈ places, place.isSome) :
    account.Balanced (places.map .pass) := by
  induction places with
  | nil => trivial
  | cons place places ih =>
      exact ⟨h place List.mem_cons_self, ih fun p hp => h p (List.mem_cons_of_mem _ hp)⟩

/-- A block of releases that all succeed. -/
def released : List (Entry α) := as.map fun a => .release (some a) true

omit [DecidableEq α] in
theorem released_cons (a : α) (as : List α) :
    released (a :: as) = .release (some a) true :: released as := rfl

variable {as} {b : α}

theorem mem_live_released :
    b ∈ (account.postAll (released as)).live ↔ b ∈ account.live ∧ b ∉ as := by
  induction as generalizing account with
  | nil => simp [released]
  | cons a as ih =>
      rw [released_cons, postAll_cons, ih]
      simp [post, and_assoc]

theorem mem_untried_released :
    b ∈ (account.postAll (released as)).untried ↔ b ∈ account.untried ∧ b ∉ as := by
  induction as generalizing account with
  | nil => simp [released]
  | cons a as ih =>
      rw [released_cons, postAll_cons, ih]
      simp [post, and_assoc]

/-- Live resources can be released, each once. -/
theorem balanced_released (hnodup : as.Nodup) (hlive : ∀ a ∈ as, a ∈ account.live) :
    account.Balanced (released as) := by
  induction as generalizing account with
  | nil => trivial
  | cons a as ih =>
      obtain ⟨hnot, hnodup⟩ := List.nodup_cons.mp hnodup
      refine ⟨⟨a, rfl, hlive a List.mem_cons_self⟩, ih hnodup fun c hc => ?_⟩
      have hne : c ≠ a := by
        rintro rfl
        exact hnot hc
      simpa [post, hne] using hlive c (List.mem_cons_of_mem _ hc)

end Blocks

end Account

end Ledger
