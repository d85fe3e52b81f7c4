import Mathlib.Algebra.BigOperators.Ring.Finset
import Mathlib.Data.Fintype.BigOperators
import Mathlib.Tactic

/-!
# Threads over a shared state

Any number of threads, each with a local state of its own, over one shared state. A step belongs to
one thread, which sees the shared state and its own local state and nothing else.

What is said about all threads at once is said by counting: `tally p f` is the number of threads
whose local state satisfies `p`. A step changes one local state, so it changes every tally by what
`tally_update` says, and the invariants of a program become linear equations and inequalities
between tallies and the shared variables. Where it matters who holds which lock, `Owned` says that
the locks and the local states agree about it.
-/

namespace Foundations

open Finset Function

variable {σ α ι : Type*}

/-- The state of the whole system. -/
structure Threads (σ α ι : Type*) where
  shared : σ
  loc : ι → α

namespace Threads

variable [DecidableEq ι]

/-- The step of thread `i`; `none` while it has to wait. -/
def step (exec : ι → σ → α → Option (σ × α)) (s : Threads σ α ι) (i : ι) :
    Option (Threads σ α ι) :=
  (exec i s.shared (s.loc i)).map fun r ↦ ⟨r.1, update s.loc i r.2⟩

theorem step_eq_some {exec : ι → σ → α → Option (σ × α)} {s s' : Threads σ α ι} {i : ι} :
    step exec s i = some s' ↔
      ∃ m a, exec i s.shared (s.loc i) = some (m, a) ∧ s' = ⟨m, update s.loc i a⟩ := by
  simp [step, eq_comm]

theorem exists_step {exec : ι → σ → α → Option (σ × α)} {s : Threads σ α ι} {i : ι} {r : σ × α}
    (h : exec i s.shared (s.loc i) = some r) : ∃ s', step exec s i = some s' :=
  ⟨_, step_eq_some.mpr ⟨r.1, r.2, h, rfl⟩⟩

end Threads

/-! ## Counting threads -/

/-- A sum over the threads changes by what the thread that moves contributes. -/
theorem sum_update_add [DecidableEq ι] {t : Finset ι} {i : ι} (hi : i ∈ t) (g : ι → α → ℕ)
    (f : ι → α) (a : α) :
    ∑ j ∈ t, g j (update f i a j) + g i (f i) = ∑ j ∈ t, g j (f j) + g i a := by
  rw [← add_sum_erase t _ hi, ← add_sum_erase t (fun j ↦ g j (f j)) hi, update_self]
  have hrest : ∑ j ∈ t.erase i, g j (update f i a j) = ∑ j ∈ t.erase i, g j (f j) :=
    sum_congr rfl fun j hj ↦ by rw [update_of_ne (ne_of_mem_erase hj)]
  rw [hrest]
  ring

section Tally

variable [Fintype ι] {p q r : α → Bool} {f : ι → α} {i j : ι} {a : α}

/-- The number of threads whose local state satisfies `p`. -/
def tally (p : α → Bool) (f : ι → α) : ℕ := #{i | p (f i) = true}

theorem tally_eq_sum (p : α → Bool) (f : ι → α) : tally p f = ∑ i, (p (f i)).toNat := by
  rw [tally, card_filter]
  refine sum_congr rfl fun i _ ↦ ?_
  cases p (f i) <;> rfl

/-- **The step rule.** -/
theorem tally_update [DecidableEq ι] (p : α → Bool) (f : ι → α) (i : ι) (a : α) :
    tally p (update f i a) + (p (f i)).toNat = tally p f + (p a).toNat := by
  rw [tally_eq_sum, tally_eq_sum]
  exact sum_update_add (mem_univ i) (fun _ x ↦ (p x).toNat) f a

theorem tally_pos (h : p (f i) = true) : 0 < tally p f := card_pos.mpr ⟨i, by simpa using h⟩

theorem tally_eq_zero (h : ∀ i, p (f i) = false) : tally p f = 0 := by
  rw [tally_eq_sum]
  exact sum_eq_zero fun i _ ↦ by rw [h i]; rfl

theorem tally_le_card (p : α → Bool) (f : ι → α) : tally p f ≤ Fintype.card ι := card_le_univ _

theorem eq_of_tally_le_one (h : tally p f ≤ 1) (hi : p (f i) = true) (hj : p (f j) = true) :
    i = j := card_le_one.mp h i (by simpa using hi) j (by simpa using hj)

/-- Two disjoint regions inside a third. -/
theorem tally_add_le (hq : ∀ a, q a = true → p a = true ∧ r a = false)
    (hr : ∀ a, r a = true → p a = true) : tally q f + tally r f ≤ tally p f := by
  rw [tally_eq_sum, tally_eq_sum, tally_eq_sum, ← sum_add_distrib]
  refine sum_le_sum fun i _ ↦ ?_
  have hq := hq (f i)
  have hr := hr (f i)
  cases hqi : q (f i) <;> cases hri : r (f i) <;> simp_all

end Tally

/-! ## Locks and their holders -/

/-- A lock is taken exactly when some thread holds it, and then one thread only. -/
structure Owned {κ : Type*} (locked : κ → Bool) (holds : ι → κ → Prop) : Prop where
  locked_iff : ∀ k, locked k = true ↔ ∃ i, holds i k
  unique : ∀ {k i j}, holds i k → holds j k → i = j

namespace Owned

variable {κ : Type*} [DecidableEq ι] {locked : κ → Bool} {H : ι → α → κ → Prop} {f : ι → α} {i : ι}
  {a : α} {k : κ}

/-- A step that changes nothing in what the thread holds. -/
theorem keep (h : Owned locked fun j ↦ H j (f j)) (hs : ∀ l, H i a l ↔ H i (f i) l) :
    Owned locked fun j ↦ H j (update f i a j) := by
  have hsame : (fun j ↦ H j (update f i a j)) = fun j ↦ H j (f j) := by
    funext j l
    obtain rfl | hne := eq_or_ne j i
    · rw [update_self]
      exact propext (hs l)
    · rw [update_of_ne hne]
  rwa [hsame]

variable [DecidableEq κ]

/-- A free lock is taken. -/
theorem acquire (h : Owned locked fun j ↦ H j (f j)) (hk : locked k = false)
    (hs : ∀ l, H i a l ↔ H i (f i) l ∨ l = k) :
    Owned (update locked k true) fun j ↦ H j (update f i a j) := by
  have hfree : ∀ j, ¬H j (f j) k := fun j hj ↦ by simp [(h.locked_iff k).mpr ⟨j, hj⟩] at hk
  have hnew : ∀ j l, H j (update f i a j) l ↔ H j (f j) l ∨ j = i ∧ l = k := by
    intro j l
    obtain rfl | hne := eq_or_ne j i
    · simp [hs]
    · simp [hne]
  constructor
  · intro l
    simp only [hnew]
    obtain rfl | hne := eq_or_ne l k
    · simp
    · simp [hne, h.locked_iff]
  · intro l j j' hj hj'
    rw [hnew] at hj hj'
    obtain hj | ⟨rfl, rfl⟩ := hj
    · obtain hj' | ⟨-, rfl⟩ := hj'
      · exact h.unique hj hj'
      · exact absurd hj (hfree j)
    · obtain hj' | ⟨rfl, -⟩ := hj'
      · exact absurd hj' (hfree j')
      · rfl

/-- A lock is released by its holder. -/
theorem release (h : Owned locked fun j ↦ H j (f j)) (hk : H i (f i) k)
    (hs : ∀ l, H i a l ↔ H i (f i) l ∧ l ≠ k) :
    Owned (update locked k false) fun j ↦ H j (update f i a j) := by
  have hnew : ∀ j l, H j (update f i a j) l ↔ H j (f j) l ∧ l ≠ k := by
    intro j l
    obtain rfl | hne := eq_or_ne j i
    · simp [hs]
    · rw [update_of_ne hne]
      refine ⟨fun hj ↦ ⟨hj, ?_⟩, And.left⟩
      rintro rfl
      exact hne (h.unique hj hk)
  constructor
  · intro l
    simp only [hnew]
    obtain rfl | hne := eq_or_ne l k
    · simp
    · simp [hne, h.locked_iff]
  · intro l j j' hj hj'
    exact h.unique ((hnew j l).mp hj).1 ((hnew j' l).mp hj').1

end Owned

end Foundations
