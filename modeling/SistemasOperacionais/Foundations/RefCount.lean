import SistemasOperacionais.Foundations.Threads

/-!
# Reference counts

Objects are pointed to by slots, and each object carries a count of its pointers. In the middle of
an operation some pointers are in nobody's slot: they are in a local variable, where the operation
has to put them somewhere or give them up. `RefCount ref slots held` says that the counts are right
when the pointers in the list `held` are counted as well. An operation that ends with `held` empty
has lost no pointer and invented none.
-/

namespace Foundations

open Function

variable {ι κ : Type*} [Fintype ι] [DecidableEq κ]

/-- Each object is counted once for each slot and once for each time it is held. -/
structure RefCount (ref : κ → ℕ) (slots : ι → Option κ) (held : List κ) : Prop where
  count : ∀ k, ref k = tally (fun x ↦ decide (x = some k)) slots + held.count k

namespace RefCount

variable {ref : κ → ℕ} {slots : ι → Option κ} {held : List κ} {k : κ} {i : ι}

theorem initial : RefCount (fun _ ↦ 0) (fun _ : ι ↦ (none : Option κ)) [] where
  count k := by rw [tally_eq_zero fun _ ↦ by simp, List.count_nil]

theorem pos (h : RefCount ref slots held) (hi : slots i = some k) : 0 < ref k := by
  have htally : 0 < tally (fun x ↦ decide (x = some k)) slots := tally_pos (decide_eq_true hi)
  have hcount := h.count k
  omega

theorem pos_of_held (h : RefCount ref slots (k :: held)) : 0 < ref k := by
  have hcount := h.count k
  rw [List.count_cons_self] at hcount
  omega

theorem perm {held' : List κ} (h : RefCount ref slots held) (hp : held.Perm held') :
    RefCount ref slots held' where
  count k := by rw [← hp.count_eq k, h.count k]

/-- Another pointer to `k` is made, possibly the first one. -/
theorem acquire (h : RefCount ref slots held) :
    RefCount (update ref k (ref k + 1)) slots (k :: held) where
  count l := by
    obtain rfl | hne := eq_or_ne l k
    · rw [update_self, List.count_cons_self, h.count l, Nat.add_assoc]
    · rw [update_of_ne hne, List.count_cons_of_ne hne.symm, h.count l]

/-- A pointer is given up. -/
theorem release (h : RefCount ref slots (k :: held)) :
    RefCount (update ref k (ref k - 1)) slots held where
  count l := by
    obtain rfl | hne := eq_or_ne l k
    · have hcount := h.count l
      rw [List.count_cons_self] at hcount
      rw [update_self]
      omega
    · rw [update_of_ne hne, h.count l, List.count_cons_of_ne hne.symm]

variable [DecidableEq ι]

/-- A pointer is put into an empty slot. -/
theorem store (h : RefCount ref slots (k :: held)) (hi : slots i = none) :
    RefCount ref (update slots i (some k)) held where
  count l := by
    have htally := tally_update (fun x ↦ decide (x = some l)) slots i (some k)
    rw [hi] at htally
    have hcount := h.count l
    obtain rfl | hne := eq_or_ne l k
    · rw [List.count_cons_self] at hcount
      simp only [decide_true, Bool.toNat_true, reduceCtorEq, decide_false, Bool.toNat_false]
        at htally
      omega
    · rw [List.count_cons_of_ne hne.symm] at hcount
      simp only [Option.some.injEq, hne.symm, reduceCtorEq, decide_false, Bool.toNat_false]
        at htally
      omega

/-- A pointer is taken out of its slot. -/
theorem fetch (h : RefCount ref slots held) (hi : slots i = some k) :
    RefCount ref (update slots i none) (k :: held) where
  count l := by
    have htally := tally_update (fun x ↦ decide (x = some l)) slots i none
    rw [hi] at htally
    have hcount := h.count l
    obtain rfl | hne := eq_or_ne l k
    · rw [List.count_cons_self]
      simp only [decide_true, Bool.toNat_true, reduceCtorEq, decide_false, Bool.toNat_false]
        at htally
      omega
    · rw [List.count_cons_of_ne hne.symm]
      simp only [Option.some.injEq, hne.symm, reduceCtorEq, decide_false, Bool.toNat_false]
        at htally
      omega

end RefCount

end Foundations
