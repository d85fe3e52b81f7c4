import Mathlib.Data.List.Basic
import Mathlib.Data.List.Perm.Basic
import Mathlib.Logic.Function.Basic
import Mathlib.Tactic

/-!
# The values of a table

A table with `n` places, each of them empty or with a value in it, and the list of its values. To
fill an empty place adds a value to the list, and a list without duplicates means that no value is
in two places.
-/

namespace Foundations

variable {α : Type*} {n i j : ℕ} {g g' : ℕ → Option α} {x y : α}

/-- The values at the places below `n`. -/
def values (n : ℕ) (g : ℕ → Option α) : List α := (List.range n).filterMap g

theorem values_succ (n : ℕ) (g : ℕ → Option α) : values (n + 1) g = values n g ++ (g n).toList := by
  rw [values, List.range_succ, List.filterMap_append]
  cases hg : g n <;> simp [values, hg]

theorem mem_values : x ∈ values n g ↔ ∃ i < n, g i = some x := by
  simp only [values, List.mem_filterMap, List.mem_range]

theorem values_congr (h : ∀ i < n, g i = g' i) : values n g = values n g' :=
  List.filterMap_congr fun i hi ↦ h i (List.mem_range.mp hi)

theorem values_eq_nil (h : ∀ i < n, g i = none) : values n g = [] := by
  rw [values, List.filterMap_eq_nil_iff]
  exact fun i hi ↦ h i (List.mem_range.mp hi)

/-- A table without values at its first places is short. -/
theorem length_values_le {a : ℕ} (h : ∀ i < a, g i = none) : (values n g).length ≤ n - a := by
  induction n with
  | zero => exact Nat.zero_le _
  | succ n ih =>
    rw [values_succ, List.length_append]
    by_cases hn : n < a
    · rw [h n hn, Option.toList_none, List.length_nil]
      omega
    · have htop := Option.length_toList_le (o := g n)
      omega

theorem values_update_of_le (h : n ≤ i) (o : Option α) :
    values n (Function.update g i o) = values n g :=
  values_congr fun _ hj ↦ Function.update_of_ne (hj.trans_le h).ne _ _

/-- **To fill an empty place adds a value.** -/
theorem values_update_some (hi : i < n) (hg : g i = none) :
    (values n (Function.update g i (some y))).Perm (y :: values n g) := by
  induction n with
  | zero => exact absurd hi (Nat.not_lt_zero i)
  | succ n ih =>
    rw [values_succ, values_succ]
    rcases (Nat.lt_succ_iff_lt_or_eq.mp hi) with hlt | rfl
    · rw [Function.update_of_ne hlt.ne', ← List.cons_append]
      exact (ih hlt).append_right _
    · rw [values_update_of_le le_rfl, Function.update_self, hg]
      exact (List.perm_append_singleton y _).trans (by simp)

theorem values_update_none (hi : i < n) (hg : g i = some y) :
    (values n g).Perm (y :: values n (Function.update g i none)) := by
  have hfill := values_update_some (g := Function.update g i none) (y := y) hi
    (Function.update_self i none g)
  rwa [Function.update_idem, ← hg, Function.update_eq_self] at hfill

/-- To empty all the places with `p` takes their values away. -/
theorem values_filter {p : ℕ → Bool} (hin : ∀ i < n, p i = true → g' i = none)
    (hout : ∀ i < n, p i = false → g' i = g i) :
    (values n g).Perm (((List.range n).filter p).filterMap g ++ values n g') := by
  have hsplit : ∀ h : ℕ → Option α, (values n h).Perm (((List.range n).filter p).filterMap h ++
      ((List.range n).filter (!p ·)).filterMap h) := fun h ↦ by
    rw [← List.filterMap_append]
    exact (List.filter_append_perm p _).symm.filterMap h
  have hmem : ∀ {q : ℕ → Bool} {i : ℕ}, i ∈ (List.range n).filter q → i < n ∧ q i = true :=
    fun hi ↦ ⟨List.mem_range.mp (List.mem_filter.mp hi).1, (List.mem_filter.mp hi).2⟩
  have hnil : ((List.range n).filter p).filterMap g' = [] :=
    List.filterMap_eq_nil_iff.mpr fun i hi ↦ hin i (hmem hi).1 (hmem hi).2
  have hsame : ((List.range n).filter (!p ·)).filterMap g' =
      ((List.range n).filter (!p ·)).filterMap g :=
    List.filterMap_congr fun i hi ↦ hout i (hmem hi).1 (Bool.not_eq_true' _ ▸ (hmem hi).2)
  have hrest := hsplit g'
  rw [hnil, List.nil_append, hsame] at hrest
  exact (hsplit g).trans (hrest.symm.append_left _)

/-- A value that is there once is at one place. -/
theorem place_unique (hn : (values n g).Nodup) (hi : i < n) (hj : j < n) (hgi : g i = some x)
    (hgj : g j = some x) : i = j := by
  by_contra hne
  have hperm := values_update_none hi hgi
  have hx : x ∉ values n (Function.update g i none) :=
    (List.nodup_cons.mp (hperm.nodup_iff.mp hn)).1
  exact hx (mem_values.mpr ⟨j, hj, (Function.update_of_ne (Ne.symm hne) _ _).trans hgj⟩)

end Foundations
