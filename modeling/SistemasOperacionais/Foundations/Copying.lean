import Mathlib.Logic.Function.Basic
import Mathlib.Tactic

/-!
# Copying a range place by place

The `n` places from `s` on are copied to the `n` places from `d` on, one after the other, upwards
(`copyUp`) or downwards (`copyDown`). What is meant by it is `moved`, where every place is read
before anything is written. To copy downwards is right when the source starts below the
destination. To copy upwards is right when it does not; if it does, the source is overwritten while
it is read, and what arrives repeats with the distance of the two ranges as its period.
-/

namespace Foundations

variable {α : Type*} {m : ℕ → α} {d s n : ℕ}

/-- From the first place to the last one. -/
def copyUp (m : ℕ → α) (d s : ℕ) : ℕ → ℕ → α
  | 0 => m
  | n + 1 => copyUp (Function.update m d (m s)) (d + 1) (s + 1) n

/-- From the last place to the first one. -/
def copyDown (m : ℕ → α) (d s : ℕ) : ℕ → ℕ → α
  | 0 => m
  | n + 1 => copyDown (Function.update m (d + n) (m (s + n))) d s n

/-- All places at once. -/
def moved (m : ℕ → α) (d s n : ℕ) : ℕ → α := fun a ↦
  if d ≤ a ∧ a < d + n then m (s + (a - d)) else m a

theorem moved_add {i : ℕ} (hi : i < n) : moved m d s n (d + i) = m (s + i) := by
  rw [moved, if_pos (by omega), Nat.add_sub_cancel_left]

theorem copyUp_succ (m : ℕ → α) (d s n : ℕ) : copyUp m d s (n + 1) =
    Function.update (copyUp m d s n) (d + n) (copyUp m d s n (s + n)) := by
  induction n generalizing m d s with
  | zero => rfl
  | succ n ih =>
    have hd : d + 1 + n = d + (n + 1) := by omega
    have hs : s + 1 + n = s + (n + 1) := by omega
    rw [copyUp, ih, hd, hs, copyUp]

/-- **Downwards**, when the source starts below the destination. -/
theorem copyDown_eq_moved (h : s ≤ d) : copyDown m d s n = moved m d s n := by
  induction n generalizing m with
  | zero =>
    funext a
    rw [moved, if_neg (by omega), copyDown]
  | succ n ih =>
    funext a
    rw [copyDown, ih, moved, moved]
    by_cases ha : d ≤ a ∧ a < d + n
    · rw [if_pos ha, if_pos (by omega), Function.update_of_ne (by omega)]
    · rw [if_neg ha]
      by_cases hlast : a = d + n
      · rw [hlast, if_pos (by omega), Function.update_self, Nat.add_sub_cancel_left]
      · rw [if_neg (by omega), Function.update_of_ne hlast]

/-- **Upwards**, when the source does not start below the destination. -/
theorem copyUp_eq_moved (h : d ≤ s) : copyUp m d s n = moved m d s n := by
  induction n with
  | zero =>
    funext a
    rw [moved, if_neg (by omega), copyUp]
  | succ n ih =>
    funext a
    -- the place `s + n` has not been written to yet
    have hread : moved m d s n (s + n) = m (s + n) := if_neg (by omega)
    rw [copyUp_succ, ih, hread, moved]
    by_cases hlast : a = d + n
    · rw [hlast, Function.update_self, if_pos (by omega), Nat.add_sub_cancel_left]
    · rw [Function.update_of_ne hlast, moved]
      by_cases ha : d ≤ a ∧ a < d + n
      · rw [if_pos ha, if_pos (by omega)]
      · rw [if_neg ha, if_neg (by omega)]

/-- **Upwards**, when the source starts below the destination: from the distance on, what is read
has been written before. -/
theorem copyUp_of_lt (h : s < d) (a : ℕ) : copyUp m d s n a =
    if d ≤ a ∧ a < d + n then m (s + (a - d) % (d - s)) else m a := by
  induction n generalizing a with
  | zero => rw [if_neg (by omega), copyUp]
  | succ n ih =>
    have hread : copyUp m d s n (s + n) = m (s + n % (d - s)) := by
      rw [ih]
      by_cases hn : d ≤ s + n
      · have hback : s + n - d = n - (d - s) := by omega
        rw [if_pos (by omega), hback, ← Nat.mod_eq_sub_mod (by omega)]
      · rw [if_neg (by omega), Nat.mod_eq_of_lt (by omega)]
    rw [copyUp_succ, hread]
    by_cases hlast : a = d + n
    · rw [hlast, Function.update_self, if_pos (by omega), Nat.add_sub_cancel_left]
    · rw [Function.update_of_ne hlast, ih]
      by_cases ha : d ≤ a ∧ a < d + n
      · rw [if_pos ha, if_pos (by omega)]
      · rw [if_neg ha, if_neg (by omega)]

/-- Copying upwards is right exactly if the source does not reach into the destination from below,
or repeats with the distance as its period. -/
theorem copyUp_eq_moved_iff : copyUp m d s n = moved m d s n ↔
    ¬(s < d ∧ d < s + n) ∨ ∀ i < n, m (s + i) = m (s + i % (d - s)) := by
  by_cases hlt : s < d
  · have hplace : copyUp m d s n = moved m d s n ↔
        ∀ i < n, m (s + i) = m (s + i % (d - s)) := by
      constructor
      · intro heq i hi
        have hat := congrFun heq (d + i)
        rw [copyUp_of_lt hlt, if_pos (by omega), moved_add hi, Nat.add_sub_cancel_left] at hat
        exact hat.symm
      · intro hrep
        funext a
        rw [copyUp_of_lt hlt, moved]
        by_cases ha : d ≤ a ∧ a < d + n
        · rw [if_pos ha, if_pos ha, hrep (a - d) (by omega)]
        · rw [if_neg ha, if_neg ha]
    rw [hplace]
    refine ⟨.inr, fun h ↦ ?_⟩
    rcases h with hapart | hrep
    · -- there is no `i` from the distance on
      intro i hi
      rw [Nat.mod_eq_of_lt (by omega)]
    · exact hrep
  · exact iff_of_true (copyUp_eq_moved (not_lt.mp hlt)) (.inl fun h ↦ hlt h.1)

end Foundations
