import Mathlib.Data.Set.Basic
import Mathlib.Logic.Relation

/-!
# Discovering what keeps growing

Items lie inside one another, and new ones come in all the time. Somebody follows them: an
item that is followed is looked into, and reports what comes in from then on. Some items
are due: a report about them is under way, or a listing that will mention them.

Nothing is overlooked when whatever lies in an item that is followed is followed itself or
due. With nothing due any more, everything below a followed root is then followed.
-/

namespace Discovery

universe u

/-- How far the discovery has come. -/
structure View (ι : Type u) where
  present : Set ι
  followed : Set ι
  due : Set ι

namespace View

variable {ι : Type u}

/-- The item has been found, or will be. -/
def Known (v : View ι) (x : ι) : Prop := x ∈ v.followed ∨ x ∈ v.due

/-- What lies in an item that is followed is known. -/
def Covers (child : ι → ι → Prop) (v : View ι) : Prop :=
  ∀ p x, p ∈ v.followed → x ∈ v.present → child p x → v.Known x

variable {child : ι → ι → Prop} {v v' : View ι}

/-- What was known stays known, what comes in is known, and so is what lies in an item
that is followed from now on. -/
theorem Covers.step (h : v.Covers child)
    (kept : ∀ p x, p ∈ v.followed → x ∈ v.present → child p x → v.Known x → v'.Known x)
    (arrived : ∀ p x, p ∈ v.followed → x ∈ v'.present → x ∉ v.present → child p x → v'.Known x)
    (opened : ∀ p x, p ∈ v'.followed → p ∉ v.followed → x ∈ v'.present → child p x →
      v'.Known x) : v'.Covers child := by
  intro p x hp hx hchild
  by_cases hold : p ∈ v.followed
  · by_cases hpresent : x ∈ v.present
    · exact kept p x hold hpresent hchild (h p x hold hpresent hchild)
    · exact arrived p x hold hx hpresent hchild
  · exact opened p x hp hold hx hchild

/-- The way down from the root through items that are present and not due. -/
def Settled (child : ι → ι → Prop) (v : View ι) : ι → ι → Prop :=
  Relation.ReflTransGen fun p x => x ∈ v.present ∧ child p x ∧ x ∉ v.due

/-- Whatever is not due, nor lies below something due, is followed. -/
theorem Covers.followed (h : v.Covers child) {root x : ι} (hroot : root ∈ v.followed)
    (hx : v.Settled child root x) : x ∈ v.followed := by
  induction hx with
  | refl => exact hroot
  | tail _ hlast ih =>
      obtain ⟨hpresent, hchild, hdue⟩ := hlast
      exact (h _ _ ih hpresent hchild).resolve_right hdue

end View

end Discovery
