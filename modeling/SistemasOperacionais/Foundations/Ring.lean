import Mathlib.Data.List.Basic
import Mathlib.Tactic

/-!
# Rings with free-running counters

A queue kept in the `N` places of an array. Two counters run freely, one over the elements ever put
in and one over those taken out, and element number `k` lies at place `k % N`.

The counters of a program are machine words, so only their values modulo some `M` are known. Because
they never drift apart by more than `N < M`, comparing the words decides whether the queue is empty
or full, as `Ring.empty_iff` and `Ring.full_iff` say.
-/

namespace Foundations

open Function

variable {α : Type*}

/-- The elements `stored` have been put in, `r` of them have been taken out, and the others are in
their places. -/
structure Ring (N : ℕ) (data : ℕ → α) (r : ℕ) (stored : List α) : Prop where
  le : r ≤ stored.length
  cap : stored.length ≤ r + N
  held : ∀ (k : ℕ) (hk : k < stored.length), r ≤ k → data (k % N) = stored[k]

namespace Ring

variable {N M r : ℕ} {data : ℕ → α} {stored : List α}

theorem nil (data : ℕ → α) : Ring N data 0 [] := ⟨le_rfl, Nat.zero_le _, by simp⟩

/-- Elements in the queue at the same time have different places. -/
theorem place_ne {k l : ℕ} (hlt : k < l) (hspan : l < k + N) : k % N ≠ l % N := by
  intro heq
  have hdvd : N ∣ l - k := (Nat.modEq_iff_dvd' hlt.le).mp heq
  have hle := Nat.le_of_dvd (by omega) hdvd
  omega

/-- An element is put in; its place is free unless the queue is full. -/
theorem push (h : Ring N data r stored) (hfree : stored.length < r + N) (x : α) :
    Ring N (update data (stored.length % N) x) r (stored ++ [x]) where
  le := by
    rw [List.length_append]
    exact h.le.trans (Nat.le_add_right _ _)
  cap := by
    rw [List.length_append]
    exact hfree
  held := by
    intro k hk hr
    rw [List.length_append, List.length_singleton, Nat.lt_succ_iff_lt_or_eq] at hk
    rcases hk with hk | rfl
    · rw [List.getElem_append_left hk, update_of_ne (place_ne hk (by omega)), h.held k hk hr]
    · rw [List.getElem_concat_length rfl, update_self]

/-- The oldest element is taken out. -/
theorem pop (h : Ring N data r stored) (hne : r < stored.length) : Ring N data (r + 1) stored where
  le := hne
  cap := h.cap.trans (by omega)
  held k hk hr := h.held k hk (by omega)

/-- The newest elements are given up again. -/
theorem take (h : Ring N data r stored) {k : ℕ} (hk : r ≤ k) : Ring N data r (stored.take k) where
  le := by
    rw [List.length_take]
    exact le_min hk h.le
  cap := (List.length_take_le' k stored).trans h.cap
  held := by
    intro j hj hr
    rw [List.length_take, lt_min_iff] at hj
    rw [List.getElem_take]
    exact h.held j hj.2 hr

/-- What a word of each counter says about the queue. -/
theorem empty_iff (h : Ring N data r stored) (hM : N < M) :
    r % M = stored.length % M ↔ r = stored.length := by
  refine ⟨fun heq ↦ ?_, fun heq ↦ by rw [heq]⟩
  by_contra hne
  have hlt := h.le.lt_of_ne hne
  exact place_ne hlt (h.cap.trans_lt (by omega)) heq

theorem full_iff (h : Ring N data r stored) (hM : N < M) :
    stored.length % M = (r % M + N) % M ↔ stored.length = r + N := by
  rw [Nat.mod_add_mod]
  refine ⟨fun heq ↦ ?_, fun heq ↦ by rw [heq]⟩
  by_contra hne
  have hlt := h.cap.lt_of_ne hne
  exact place_ne hlt (by have := h.le; omega) heq

/-- The distance of the two words is the length of the queue. -/
theorem sub_mod_eq (h : Ring N data r stored) (hM : N < M) :
    (M - r % M + stored.length % M) % M = stored.length - r := by
  obtain ⟨d, hd⟩ := Nat.exists_eq_add_of_le h.le
  have hcap := h.cap
  have hlt : r % M < M := Nat.mod_lt _ (by omega)
  have hr : M - r % M + (r + d) = d + M * (r / M + 1) := by
    have hdiv := Nat.div_add_mod r M
    rw [Nat.mul_add, Nat.mul_one]
    omega
  rw [hd, Nat.add_sub_cancel_left, Nat.add_mod_mod, hr, Nat.add_mul_mod_self_left,
    Nat.mod_eq_of_lt (by omega)]

end Ring

end Foundations
