import Mathlib.Data.List.Basic
import Mathlib.Tactic

/-!
# Redo records

A record is a list of pairs of an address and the value to put there, and installing it writes the
values in order. The effect of a sequence of records is the effect of their concatenation, and an
address that does not occur keeps its value.
-/

namespace Foundations

open Function

variable {A β : Type*} [DecidableEq A]

/-- Write the values of a record, in order. -/
def install (m : A → β) (l : List (A × β)) : A → β := l.foldl (fun m x ↦ update m x.1 x.2) m

variable {m : A → β} {l l' : List (A × β)} {a : A}

@[simp] theorem install_nil : install m [] = m := rfl

@[simp] theorem install_cons {x : A × β} : install m (x :: l) = install (update m x.1 x.2) l := rfl

theorem install_append : install m (l ++ l') = install (install m l) l' := List.foldl_append

theorem install_snoc {b : β} : install m (l ++ [(a, b)]) = update (install m l) a b :=
  install_append

theorem install_of_notMem (ha : ∀ x ∈ l, x.1 ≠ a) : install m l a = m a := by
  induction l generalizing m with
  | nil => rfl
  | cons x l ih =>
    rw [install_cons, ih fun y hy ↦ ha y (List.mem_cons_of_mem _ hy)]
    exact update_of_ne (ha x List.mem_cons_self).symm _ _

end Foundations
