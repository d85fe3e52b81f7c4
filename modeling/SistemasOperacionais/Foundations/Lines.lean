import Mathlib.Data.List.Basic
import Mathlib.Tactic

/-!
# Lines

A list is cut into lines at a separator that ends each of them; what comes behind the last separator
is the remainder. A program that gets the list in pieces holds the remainder of what it has got and
puts the next piece behind it: `lines_append` says that it finds the same lines.
-/

namespace Foundations

variable {α : Type*} [DecidableEq α] {sep : α} {s t w : List α}

/-- The lines that the separator ends. -/
def lines (sep : α) (s : List α) : List (List α) := (s.splitOn sep).dropLast

/-- What comes behind the last separator. -/
def remainder (sep : α) (s : List α) : List α := (s.splitOn sep).getLastD []

theorem lines_of_notMem (h : sep ∉ s) : lines sep s = [] := by
  rw [lines, List.splitOn_eq_singleton h, List.dropLast_singleton]

theorem remainder_of_notMem (h : sep ∉ s) : remainder sep s = s := by
  rw [remainder, List.splitOn_eq_singleton h]
  rfl

theorem lines_cons (h : sep ∉ w) (t : List α) : lines sep (w ++ sep :: t) = w :: lines sep t := by
  rw [lines, List.splitOn_append_cons_self, List.splitOn_eq_singleton h, List.singleton_append,
    List.dropLast_cons_of_ne_nil (List.splitOn_ne_nil _ _), ← lines]

theorem remainder_cons (w t : List α) : remainder sep (w ++ sep :: t) = remainder sep t := by
  rw [remainder, remainder, List.splitOn_append_cons_self, List.getLastD_eq_getLast?,
    List.getLast?_append_of_ne_nil _ (List.splitOn_ne_nil _ _), ← List.getLastD_eq_getLast?]

/-- **Induction on the lines.** -/
theorem lines_induct (sep : α) {P : List α → Prop} (rest : ∀ s, sep ∉ s → P s)
    (line : ∀ w t, sep ∉ w → P t → P (w ++ sep :: t)) (s : List α) : P s := by
  induction hn : s.length using Nat.strong_induction_on generalizing s with
  | _ n ih =>
    by_cases hs : sep ∈ s
    · obtain ⟨w, t, rfl, hw⟩ := List.eq_append_cons_of_mem hs
      refine line w t hw (ih t.length ?_ t rfl)
      rw [← hn, List.length_append, List.length_cons]
      exact Nat.lt_add_left _ (Nat.lt_succ_self _)
    · exact rest s hs

theorem notMem_remainder (s : List α) : sep ∉ remainder sep s := by
  induction s using lines_induct sep with
  | rest s hs => rwa [remainder_of_notMem hs]
  | line w t _ ih => rwa [remainder_cons]

/-- **In pieces**: the remainder is put before the next piece. -/
theorem lines_append (s t : List α) :
    lines sep (s ++ t) = lines sep s ++ lines sep (remainder sep s ++ t) := by
  induction s using lines_induct sep with
  | rest s hs => rw [lines_of_notMem hs, remainder_of_notMem hs, List.nil_append]
  | line w u hw ih =>
    rw [List.append_assoc, List.cons_append, lines_cons hw, lines_cons hw, remainder_cons, ih,
      List.cons_append]

theorem remainder_append_of_mem (h : sep ∈ t) (s : List α) :
    remainder sep (s ++ t) = remainder sep t := by
  obtain ⟨w, u, rfl, -⟩ := List.eq_append_cons_of_mem h
  rw [← List.append_assoc, remainder_cons, remainder_cons]

/-- Nothing is lost. -/
theorem flatMap_lines (sep : α) (s : List α) :
    (lines sep s).flatMap (· ++ [sep]) ++ remainder sep s = s := by
  induction s using lines_induct sep with
  | rest s hs => rw [lines_of_notMem hs, remainder_of_notMem hs, List.flatMap_nil, List.nil_append]
  | line w t hw ih =>
    rw [lines_cons hw, remainder_cons, List.flatMap_cons, List.append_assoc, ih, List.append_assoc,
      List.singleton_append]

theorem splitOn_append (s t : List α) :
    (s ++ t).splitOn sep = lines sep s ++ (remainder sep s ++ t).splitOn sep := by
  induction s using lines_induct sep with
  | rest s hs => rw [lines_of_notMem hs, remainder_of_notMem hs, List.nil_append]
  | line w u hw ih =>
    rw [List.append_assoc, List.cons_append, List.splitOn_append_cons_self,
      List.splitOn_eq_singleton hw, ih, lines_cons hw, remainder_cons, List.singleton_append,
      List.cons_append]

/-- What has no separator in it is inside of one piece. -/
theorem exists_append_mem_splitOn (h : sep ∉ s) (t : List α) :
    ∃ w, s ++ w ∈ (s ++ t).splitOn sep := by
  by_cases ht : sep ∈ t
  · obtain ⟨w, u, rfl, hw⟩ := List.eq_append_cons_of_mem ht
    have hsw : sep ∉ s ++ w := fun hmem ↦ (List.mem_append.mp hmem).elim h hw
    refine ⟨w, ?_⟩
    rw [← List.append_assoc, List.splitOn_append_cons_self, List.splitOn_eq_singleton hsw]
    exact List.mem_cons_self
  · have hst : sep ∉ s ++ t := fun hmem ↦ (List.mem_append.mp hmem).elim h ht
    refine ⟨t, ?_⟩
    rw [List.splitOn_eq_singleton hst]
    exact List.mem_cons_self

end Foundations
