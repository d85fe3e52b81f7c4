import Mathlib.Logic.Function.Basic
import Mathlib.Tactic

/-!
# Tables with places that are used again

A table has places, each of which is free or holds a key with a value. An entry may go to any free
place, and to take it out only frees its place, so the order of the entries says nothing about their
age. If keys are added only when they are absent, the table is a partial function all the same.
-/

namespace Foundations

open Function

variable {ι κ ν : Type*} {f : ι → Option (κ × ν)} {m : κ → Option ν} {i j : ι} {k : κ} {v w : ν}

/-- No key is at two places, and the values are those of `m`. -/
structure Represents (f : ι → Option (κ × ν)) (m : κ → Option ν) : Prop where
  distinct : ∀ {i j k v w}, f i = some (k, v) → f j = some (k, w) → i = j
  lookup : ∀ k v, m k = some v ↔ ∃ i, f i = some (k, v)

namespace Represents

theorem empty (h : ∀ i, f i = none) : Represents f fun _ ↦ none := by
  refine ⟨fun hi _ ↦ ?_, fun k v ↦ ⟨fun hk ↦ ?_, fun ⟨i, hi⟩ ↦ ?_⟩⟩
  · rw [h] at hi
    cases hi
  · cases hk
  · rw [h] at hi
    cases hi

theorem eq_some (h : Represents f m) (hi : f i = some (k, v)) : m k = some v :=
  (h.lookup k v).mpr ⟨i, hi⟩

theorem eq_none_iff (h : Represents f m) : m k = none ↔ ∀ i v, f i ≠ some (k, v) := by
  rw [Option.eq_none_iff_forall_ne_some]
  constructor
  · intro hk i v hi
    exact hk v (h.eq_some hi)
  · intro hk v hv
    obtain ⟨i, hi⟩ := (h.lookup k v).mp hv
    exact hk i v hi

variable [DecidableEq ι] [DecidableEq κ]

/-- A key that is absent goes to a free place. -/
theorem put (h : Represents f m) (hi : f i = none) (hk : m k = none) :
    Represents (update f i (some (k, v))) (update m k (some v)) := by
  have hne {j : ι} {w : ν} : f j ≠ some (k, w) := h.eq_none_iff.mp hk j w
  refine ⟨fun {a b l x y} ha hb ↦ ?_, fun l x ↦ ?_⟩
  · obtain rfl | hai := eq_or_ne a i
    · rw [update_self] at ha
      obtain ⟨rfl, rfl⟩ := Prod.mk.inj (Option.some.inj ha)
      by_contra hab
      rw [update_of_ne (Ne.symm hab)] at hb
      exact hne hb
    · rw [update_of_ne hai] at ha
      obtain rfl | hbi := eq_or_ne b i
      · rw [update_self] at hb
        obtain ⟨rfl, rfl⟩ := Prod.mk.inj (Option.some.inj hb)
        exact absurd ha hne
      · rw [update_of_ne hbi] at hb
        exact h.distinct ha hb
  · obtain rfl | hlk := eq_or_ne l k
    · rw [update_self, Option.some.injEq]
      constructor
      · rintro rfl
        exact ⟨i, update_self ..⟩
      · rintro ⟨j, hj⟩
        obtain rfl | hji := eq_or_ne j i
        · rw [update_self] at hj
          exact (Prod.mk.inj (Option.some.inj hj)).2
        · rw [update_of_ne hji] at hj
          exact absurd hj hne
    · rw [update_of_ne hlk, h.lookup]
      refine exists_congr fun j ↦ ?_
      obtain rfl | hji := eq_or_ne j i
      · rw [update_self, hi]
        refine iff_of_false (by simp) fun heq ↦ ?_
        exact hlk (Prod.mk.inj (Option.some.inj heq)).1.symm
      · rw [update_of_ne hji]

/-- The place of a key is freed. -/
theorem clear (h : Represents f m) (hi : f i = some (k, v)) :
    Represents (update f i none) (update m k none) := by
  have hother {j : ι} {l : κ} {x : ν} (hj : update f i none j = some (l, x)) :
      j ≠ i ∧ f j = some (l, x) := by
    obtain rfl | hji := eq_or_ne j i
    · rw [update_self] at hj
      cases hj
    · rw [update_of_ne hji] at hj
      exact ⟨hji, hj⟩
  refine ⟨fun ha hb ↦ h.distinct (hother ha).2 (hother hb).2, fun l x ↦ ?_⟩
  obtain rfl | hlk := eq_or_ne l k
  · rw [update_self]
    refine iff_of_false (by simp) ?_
    rintro ⟨j, hj⟩
    exact (hother hj).1 (h.distinct (hother hj).2 hi)
  · rw [update_of_ne hlk, h.lookup]
    refine exists_congr fun j ↦ ?_
    obtain rfl | hji := eq_or_ne j i
    · rw [update_self, hi]
      refine iff_of_false (fun heq ↦ ?_) (by simp)
      exact hlk (Prod.mk.inj (Option.some.inj heq)).1.symm
    · rw [update_of_ne hji]

end Represents

end Foundations
