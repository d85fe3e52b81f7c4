import Mathlib.Data.List.Chain
import Mathlib.Data.Set.Basic
import Mathlib.Tactic

/-!
# Blocks laid out one after another

Items of an arbitrary type, each with a length, placed consecutively from a start address. The
address of an item is not stored anywhere: it is the sum of the lengths before it, so a layout
cannot have gaps or overlaps, and what has to be proved about a program that keeps addresses in
memory is only that they agree with the layout.

The second half is about spaced families of intervals, which are ordered and leave a gap between
any two neighbours. Such a family is the list of connected components of the set it covers, hence
determined by that set; `Spaced.eq_of_cover_eq` is the form in which this is used.
-/

namespace Foundations

variable {τ : Type*} {len : τ → ℕ}

/-! ## Layouts -/

/-- The address just past the items of a list laid out from `a`. -/
def stop (len : τ → ℕ) : ℕ → List τ → ℕ
  | a, [] => a
  | a, x :: ts => stop len (a + len x) ts

/-- The items of a list laid out from `a`, each with its address. -/
def layout (len : τ → ℕ) : ℕ → List τ → List (ℕ × τ)
  | _, [] => []
  | a, x :: ts => (a, x) :: layout len (a + len x) ts

@[simp] theorem stop_nil (a : ℕ) : stop len a [] = a := rfl

@[simp] theorem stop_cons (a : ℕ) (x : τ) (ts : List τ) :
    stop len a (x :: ts) = stop len (a + len x) ts := rfl

@[simp] theorem layout_nil (a : ℕ) : layout len a [] = [] := rfl

@[simp] theorem layout_cons (a : ℕ) (x : τ) (ts : List τ) :
    layout len a (x :: ts) = (a, x) :: layout len (a + len x) ts := rfl

@[simp] theorem stop_append (a : ℕ) (u v : List τ) :
    stop len a (u ++ v) = stop len (stop len a u) v := by
  induction u generalizing a with
  | nil => rfl
  | cons x u ih => rw [List.cons_append, stop_cons, ih, stop_cons]

@[simp] theorem layout_append (a : ℕ) (u v : List τ) :
    layout len a (u ++ v) = layout len a u ++ layout len (stop len a u) v := by
  induction u generalizing a with
  | nil => rfl
  | cons x u ih => rw [List.cons_append, layout_cons, ih, layout_cons, stop_cons, List.cons_append]

theorem stop_eq_add_sum (a : ℕ) (ts : List τ) : stop len a ts = a + (ts.map len).sum := by
  induction ts generalizing a with
  | nil => simp
  | cons x ts ih => rw [stop_cons, ih, List.map_cons, List.sum_cons, add_assoc]

theorem le_stop (a : ℕ) (ts : List τ) : a ≤ stop len a ts := by
  rw [stop_eq_add_sum]
  exact Nat.le_add_right _ _

theorem layout_eq_append {a : ℕ} {ts : List τ} {P Q : List (ℕ × τ)}
    (h : layout len a ts = P ++ Q) :
    ∃ u v, ts = u ++ v ∧ P = layout len a u ∧ Q = layout len (stop len a u) v := by
  induction ts generalizing a P with
  | nil =>
    obtain ⟨rfl, rfl⟩ := List.append_eq_nil_iff.mp h.symm
    exact ⟨[], [], rfl, rfl, rfl⟩
  | cons x ts ih =>
    cases P with
    | nil => exact ⟨[], x :: ts, rfl, rfl, h.symm⟩
    | cons p P =>
      rw [layout_cons, List.cons_append, List.cons.injEq] at h
      obtain ⟨rfl, h⟩ := h
      obtain ⟨u, v, rfl, rfl, rfl⟩ := ih h
      exact ⟨x :: u, v, rfl, rfl, rfl⟩

theorem mem_layout_iff {a b : ℕ} {x : τ} {ts : List τ} :
    (b, x) ∈ layout len a ts ↔ ∃ u v, ts = u ++ x :: v ∧ b = stop len a u := by
  constructor
  · intro h
    obtain ⟨P, Q, hPQ⟩ := List.append_of_mem h
    obtain ⟨u, v, rfl, -, hv⟩ := layout_eq_append hPQ
    cases v with
    | nil => simp at hv
    | cons y v =>
      rw [layout_cons, List.cons.injEq, Prod.mk.injEq] at hv
      obtain ⟨⟨rfl, rfl⟩, -⟩ := hv
      exact ⟨u, v, rfl, rfl⟩
  · rintro ⟨u, v, rfl, rfl⟩
    simp

theorem bounds_of_mem_layout {a : ℕ} {b : ℕ × τ} {ts : List τ} (h : b ∈ layout len a ts) :
    a ≤ b.1 ∧ b.1 + len b.2 ≤ stop len a ts := by
  obtain ⟨u, v, rfl, hb⟩ := mem_layout_iff.mp h
  rw [stop_append, stop_cons, ← hb]
  exact ⟨hb ▸ le_stop a u, le_stop _ v⟩

/-- Each item ends before any later one starts. -/
theorem pairwise_layout (a : ℕ) (ts : List τ) :
    (layout len a ts).Pairwise fun p q ↦ p.1 + len p.2 ≤ q.1 := by
  induction ts generalizing a with
  | nil => exact List.Pairwise.nil
  | cons x ts ih =>
    rw [layout_cons, List.pairwise_cons]
    exact ⟨fun q hq ↦ (bounds_of_mem_layout hq).1, ih _⟩

theorem eq_or_apart_of_mem_layout {a : ℕ} {p q : ℕ × τ} {ts : List τ}
    (hp : p ∈ layout len a ts) (hq : q ∈ layout len a ts) :
    p = q ∨ p.1 + len p.2 ≤ q.1 ∨ q.1 + len q.2 ≤ p.1 := by
  induction ts generalizing a with
  | nil => simp at hp
  | cons x ts ih =>
    rw [layout_cons, List.mem_cons] at hp hq
    rcases hp with rfl | hp
    · rcases hq with rfl | hq
      · exact Or.inl rfl
      · exact Or.inr (Or.inl (bounds_of_mem_layout hq).1)
    · rcases hq with rfl | hq
      · exact Or.inr (Or.inr (bounds_of_mem_layout hp).1)
      · exact ih hp hq

/-- With positive lengths an address belongs to at most one item. -/
theorem eq_of_mem_layout (hpos : ∀ x, 0 < len x) {a : ℕ} {p q : ℕ × τ} {ts : List τ}
    (hp : p ∈ layout len a ts) (hq : q ∈ layout len a ts) (h : p.1 = q.1) : p = q := by
  have h1 := hpos p.2
  have h2 := hpos q.2
  rcases eq_or_apart_of_mem_layout hp hq with heq | hle | hle
  · exact heq
  · omega
  · omega

/-! ## Spaced intervals -/

/-- The points covered by a family of intervals, each given by its start and its length. -/
def cover (l : List (ℕ × ℕ)) : Set ℕ := {x | ∃ i ∈ l, i.1 ≤ x ∧ x < i.1 + i.2}

@[simp] theorem mem_cover {l : List (ℕ × ℕ)} {x : ℕ} :
    x ∈ cover l ↔ ∃ i ∈ l, i.1 ≤ x ∧ x < i.1 + i.2 := Iff.rfl

/-- Nonempty intervals in increasing order, any two of them separated by an uncovered point. -/
structure Spaced (l : List (ℕ × ℕ)) : Prop where
  pos : ∀ i ∈ l, 0 < i.2
  gap : l.Pairwise fun i j ↦ i.1 + i.2 < j.1

namespace Spaced

variable {i : ℕ × ℕ} {l l' : List (ℕ × ℕ)}

theorem tail (h : Spaced (i :: l)) : Spaced l :=
  ⟨fun j hj ↦ h.pos j (List.mem_cons_of_mem _ hj), (List.pairwise_cons.mp h.gap).2⟩

theorem start_le (h : Spaced (i :: l)) {x : ℕ} (hx : x ∈ cover (i :: l)) : i.1 ≤ x := by
  obtain ⟨j, hj, hjx, -⟩ := hx
  rcases List.mem_cons.mp hj with rfl | hj
  · exact hjx
  · have := (List.pairwise_cons.mp h.gap).1 j hj
    omega

theorem end_notMem (h : Spaced (i :: l)) : i.1 + i.2 ∉ cover (i :: l) := by
  rintro ⟨j, hj, hjx, hxj⟩
  rcases List.mem_cons.mp hj with rfl | hj
  · omega
  · have := (List.pairwise_cons.mp h.gap).1 j hj
    omega

theorem mem_cover_tail_iff (h : Spaced (i :: l)) {x : ℕ} :
    x ∈ cover l ↔ x ∈ cover (i :: l) ∧ i.1 + i.2 ≤ x := by
  constructor
  · rintro ⟨j, hj, hjx, hxj⟩
    have := (List.pairwise_cons.mp h.gap).1 j hj
    exact ⟨⟨j, List.mem_cons_of_mem _ hj, hjx, hxj⟩, by omega⟩
  · rintro ⟨⟨j, hj, hjx, hxj⟩, hx⟩
    rcases List.mem_cons.mp hj with rfl | hj
    · omega
    · exact ⟨j, hj, hjx, hxj⟩

theorem start_mem_cover (h : Spaced (i :: l)) : i.1 ∈ cover (i :: l) :=
  ⟨i, List.mem_cons_self, le_refl _, by have := h.pos i List.mem_cons_self; omega⟩

theorem eq_nil_of_cover (h : Spaced l) (hc : cover l = ∅) : l = [] := by
  cases l with
  | nil => rfl
  | cons i l =>
    have := h.start_mem_cover
    rw [hc] at this
    exact absurd this (Set.notMem_empty _)

/-- The first interval of the family covering `l'` is no longer than that of the one covering `l`:
its last point would otherwise be the gap after the other. -/
private theorem head_len_le {j : ℕ × ℕ} (h : Spaced (i :: l)) (hij : i.1 = j.1)
    (hc : cover (i :: l) = cover (j :: l')) : j.2 ≤ i.2 := by
  by_contra hlt
  refine h.end_notMem ?_
  rw [hc]
  exact ⟨j, List.mem_cons_self, by omega, by omega⟩

/-- **A spaced family is determined by what it covers.** -/
theorem eq_of_cover_eq (h : Spaced l) (h' : Spaced l') (hc : cover l = cover l') : l = l' := by
  induction l generalizing l' with
  | nil => exact (h'.eq_nil_of_cover (hc ▸ by ext; simp)).symm
  | cons i l ih =>
    cases l' with
    | nil => exact h.eq_nil_of_cover (hc ▸ by ext; simp)
    | cons j l' =>
      have hstart : i.1 = j.1 :=
        le_antisymm (h.start_le (hc ▸ h'.start_mem_cover)) (h'.start_le (hc ▸ h.start_mem_cover))
      have hlen : i.2 = j.2 :=
        le_antisymm (h'.head_len_le hstart.symm hc.symm) (h.head_len_le hstart hc)
      have hij : i = j := Prod.ext hstart hlen
      subst hij
      rw [ih h.tail h'.tail]
      ext x
      rw [h.mem_cover_tail_iff, h'.mem_cover_tail_iff, hc]

end Spaced

end Foundations
