import Mathlib.Data.Set.Insert
import Mathlib.Logic.Function.Basic
import Mathlib.Tactic

/-!
# Exclusive ownership

Places that each hold one resource at most, and a set of resources that are in use. An allocator is
right when every resource held is in use and no two places hold the same one: it gives out resources
that are not in use, and marks a resource as free only when no place holds it any more.
-/

namespace Foundations

open Function

variable {κ β : Type*}

/-- No resource is held at two places, and those held are in use. -/
structure Exclusive (inUse : Set β) (own : κ → Option β) : Prop where
  mem : ∀ {k b}, own k = some b → b ∈ inUse
  inj : ∀ {k k' b}, own k = some b → own k' = some b → k = k'

namespace Exclusive

variable {inUse : Set β} {own own' : κ → Option β} {k : κ} {b : β}

/-- Places may let go of what they hold. -/
theorem restrict (h : Exclusive inUse own) (hsub : ∀ k b, own' k = some b → own k = some b) :
    Exclusive inUse own' :=
  ⟨fun hk ↦ h.mem (hsub _ _ hk), fun hk hk' ↦ h.inj (hsub _ _ hk) (hsub _ _ hk')⟩

variable [DecidableEq κ]

/-- A resource that was not in use is given to a place. -/
theorem assign (h : Exclusive inUse own) (hb : b ∉ inUse) :
    Exclusive (insert b inUse) (update own k (some b)) := by
  have hother {k' : κ} {c : β} (hk : update own k (some b) k' = some c) :
      k' = k ∧ c = b ∨ c ≠ b ∧ own k' = some c := by
    obtain rfl | hne := eq_or_ne k' k
    · rw [update_self] at hk
      exact Or.inl ⟨rfl, (Option.some.inj hk).symm⟩
    · rw [update_of_ne hne] at hk
      exact Or.inr ⟨fun heq ↦ hb (heq ▸ h.mem hk), hk⟩
  refine ⟨fun hk ↦ ?_, fun hk hk' ↦ ?_⟩
  · obtain ⟨-, rfl⟩ | ⟨-, hk⟩ := hother hk
    · exact Set.mem_insert ..
    · exact Set.mem_insert_of_mem _ (h.mem hk)
  · obtain ⟨rfl, hc⟩ | ⟨hc, hk⟩ := hother hk
    · obtain ⟨rfl, -⟩ | ⟨hc', -⟩ := hother hk'
      · rfl
      · exact absurd hc hc'
    · obtain ⟨-, hc'⟩ | ⟨-, hk'⟩ := hother hk'
      · exact absurd hc' hc
      · exact h.inj hk hk'

end Exclusive

end Foundations
