import Mathlib.Data.Option.Basic

/-!
# Computations that may give up

A computation that gives up when its resources do not suffice is described by two facts: what it
returns satisfies a postcondition, and it returns something if a condition on the resources holds.
The condition is the same for all steps of a computation, so that it can speak about the end.
-/

namespace Foundations

variable {α β : Type} {p q : Prop} {r : Option α} {f : α → Option β} {Q : α → Prop} {R : β → Prop}

/-- What `r` returns satisfies `Q`, and it returns something if `p` holds. -/
structure Yields (p : Prop) (r : Option α) (Q : α → Prop) : Prop where
  sound : ∀ a, r = some a → Q a
  returns : p → ∃ a, r = some a

namespace Yields

theorem some {a : α} (h : Q a) : Yields p (some a) Q :=
  ⟨fun _ heq ↦ Option.some.inj heq ▸ h, fun _ ↦ ⟨a, rfl⟩⟩

theorem bind (h : Yields p r Q) (hf : ∀ a, Q a → Yields p (f a) R) : Yields p (r.bind f) R := by
  constructor
  · intro b hb
    obtain ⟨a, ha, hb⟩ := Option.bind_eq_some_iff.mp hb
    exact (hf a (h.sound a ha)).sound b hb
  · intro hp
    obtain ⟨a, ha⟩ := h.returns hp
    rw [ha, Option.bind_some]
    exact (hf a (h.sound a ha)).returns hp

theorem map {g : α → β} (h : Yields p r Q) (hg : ∀ a, Q a → R (g a)) : Yields p (r.map g) R := by
  constructor
  · intro b hb
    obtain ⟨a, ha, rfl⟩ := Option.map_eq_some_iff.mp hb
    exact hg a (h.sound a ha)
  · intro hp
    obtain ⟨a, ha⟩ := h.returns hp
    exact ⟨g a, by rw [ha, Option.map_some]⟩

theorem guard {a : Prop} [Decidable a] (ha : p → ¬a) (h : Yields p r Q) :
    Yields p (if a then none else r) Q := by
  by_cases hif : a
  · rw [if_pos hif]
    exact ⟨fun _ heq ↦ absurd heq.symm (Option.some_ne_none _), fun hp ↦ absurd hif (ha hp)⟩
  · rwa [if_neg hif]

theorem imp (h : Yields p r Q) (hq : q → p) : Yields q r Q := ⟨h.sound, fun h' ↦ h.returns (hq h')⟩

end Yields

end Foundations
