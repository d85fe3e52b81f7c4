import SistemasOperacionais.Xv6.Vm.Tables
import Mathlib.Order.Interval.Set.Basic

/-!
# New pages for the user

`allocuvm` and `copyuvm` do the same in each round: a page is allocated, filled and mapped. What is
left of this after a whole loop is that some entries have been made, that the pages that were mapped
before have their contents, and that nothing has been lost (`Extends`).
-/

namespace SistemasOperacionais.Xv6.Vm

open Foundations Prog

variable {L : Layout} {E : Fault → Prop} {m m' m'' : Machine} {d f : Frame}
  {k : List Frame} {v : ℕ} {perm : UInt32} {b : Page} {S S' : Set ℕ}

/-! ## One page -/

/-- A page `f` of the free list has been given the bytes `b` and mapped at `v`. -/
structure Adds (m m' : Machine) (d : Frame) (v : ℕ) (f : Frame) (perm : UInt32) (b : Page) :
    Prop where
  fresh : f ∈ m.free
  free : m'.free ⊆ m.free
  moves : Moves m m' (m.tables d) (f :: m'.tables d)
  content : m'.mem f = b
  entry : ∀ v' < 2 ^ 20, m'.entry d v' = Function.update (m.entry d) v (some (mkPte f perm)) v'
  others : ∀ i ≠ pdx v, m'.table d i = m.table d i
  kept : (m.table d (pdx v)).isSome → m'.table d = m.table d ∧ m'.grants + 1 = m.grants
  new : m.table d (pdx v) = none →
    (∃ t ∈ m.free, m'.table d (pdx v) = some t) ∧ m'.grants + 2 = m.grants

/-- **A page that has just been allocated is mapped**, or it is lost. -/
theorem spec_addPage {rest : List Frame} {b : Page} (hp : Pool L (m.free ++ (m.tables d ++ k)))
    (hfree : m.free = f :: rest) (hgrants : (m.handed rest).grants + 1 = m.grants)
    (hv : v < 2 ^ 20) (hnone : m.entry d v = none) :
    Spec E (mappages d (v * pgsize) pgsize (f * pgsize) perm) ((m.handed rest).filled f b)
      fun r m' ↦
        (r = false ∧ m' = ((m.handed rest).filled f b).denied ∧
          m.table d (pdx v) = none ∧ m.grants = 1) ∨
        (r = true ∧ Adds m m' d v f perm b) := by
  have hmem : f ∈ m.free := hfree ▸ List.mem_cons_self
  have hmoves : Moves m ((m.handed rest).filled f b) [] [f] :=
    (Moves.of_handed hfree).trans (.of_filled (List.mem_singleton_self f))
  have hsame : ∀ g ∈ m.tables d, ((m.handed rest).filled f b).mem g = m.mem g := fun g hg ↦
    hmoves.mem_eq (l := []) hp (List.mem_append_left _ hg)
  have htable := table_congr (hsame d (self_mem_tables m d))
  have htables := tables_congr (hsame d (self_mem_tables m d))
  have hentry := entry_congr hsame
  have hcons : Moves m ((m.handed rest).filled f b) (m.tables d)
      (f :: ((m.handed rest).filled f b).tables d) := by
    rw [htables]
    exact hmoves.frame (m.tables d)
  have hp' : Pool L (((m.handed rest).filled f b).free ++
      (((m.handed rest).filled f b).tables d ++ f :: k)) :=
    (hcons.pool hp).perm (List.perm_middle.append_left _)
  rw [mappages_eq (n := 0) rfl (Nat.one_mul _).symm rfl hv]
  refine (spec_mapPage hp' hv (by rw [hentry, hnone])).imp ?_
  rintro r m' (⟨rfl, rfl, hno, hzero⟩ | ⟨rfl, hmap⟩)
  · refine .inl ⟨rfl, rfl, by rw [← htable, hno], ?_⟩
    rw [← hgrants]
    exact congrArg (· + 1) hzero
  · have hsub : rest ⊆ m.free := hfree ▸ List.subset_cons_self ..
    refine .inr ⟨rfl, hmem, List.Subset.trans hmap.free hsub, ?_, ?_, fun v' hv' ↦ ?_,
      fun i hi ↦ ?_, fun hsome ↦ ?_, fun hno ↦ ?_⟩
    · refine hcons.trans ((hmap.moves.frame [f]).congr ?_ ?_)
      · exact (List.perm_append_singleton f _).symm
      · exact (List.perm_append_singleton f _).symm
    · rw [hmap.moves.mem_eq hp' List.mem_cons_self, mem_filled_self]
    · rw [hmap.entry v' hv', hentry]
    · rw [hmap.others i hi, htable]
    · rw [← htable] at hsome ⊢
      obtain ⟨htab, hg⟩ := hmap.kept hsome
      exact ⟨htab, by rw [hg]; exact hgrants⟩
    · rw [← htable] at hno
      obtain ⟨⟨t, ht, htab⟩, hg⟩ := hmap.new hno
      refine ⟨⟨t, hsub ht, htab⟩, ?_⟩
      rw [← hgrants]
      exact congrArg (· + 1) hg

/-! ## A whole loop -/

/-- Pages of `S` may have been mapped. -/
structure Extends (m m' : Machine) (d : Frame) (S : Set ℕ) : Prop where
  moves : Moves m m' (m.frames d) (m'.frames d)
  outside : ∀ v < 2 ^ 20, v ∉ S → m'.entry d v = m.entry d v
  mono : m.userFrames d ⊆ m'.userFrames d
  kept : ∀ f ∈ m.userFrames d, m'.mem f = m.mem f

namespace Extends

theorem refl (m : Machine) (d : Frame) (S : Set ℕ) : Extends m m d S :=
  ⟨.refl .., fun _ _ _ ↦ rfl, List.Subset.refl _, fun _ _ ↦ rfl⟩

theorem trans (h : Extends m m' d S) (h' : Extends m' m'' d S') : Extends m m'' d (S ∪ S') where
  moves := h.moves.trans h'.moves
  outside v hv hmem := by
    rw [h'.outside v hv fun hS' ↦ hmem (.inr hS'), h.outside v hv fun hS ↦ hmem (.inl hS)]
  mono := List.Subset.trans h.mono h'.mono
  kept f hf := by rw [h'.kept f (h.mono hf), h.kept f hf]

theorem subset (h : Extends m m' d S) (hS : S ⊆ S') : Extends m m' d S' :=
  ⟨h.moves, fun v hv hmem ↦ h.outside v hv fun hS' ↦ hmem (hS hS'), h.mono, h.kept⟩

end Extends

theorem Adds.grants_le (h : Adds m m' d v f perm b) : m.grants ≤ m'.grants + 2 := by
  cases ht : m.table d (pdx v) with
  | none => exact (h.new ht).2.ge
  | some t =>
    have hgrants := (h.kept (by rw [ht]; rfl)).2
    omega

theorem Adds.table_mono {i : ℕ} (h : Adds m m' d v f perm b) (hi : m.table d i ≠ none) :
    m'.table d i ≠ none := by
  by_cases heq : i = pdx v
  · rw [heq] at hi
    rw [(h.kept (Option.isSome_iff_ne_none.mpr hi)).1, heq]
    exact hi
  · rw [h.others i heq]
    exact hi

theorem Adds.userFrames (h : Adds m m' d v f perm b) (hp : Pool L (m.free ++ (m.tables d ++ k)))
    (hperm : perm.toNat < 2 ^ 12) (hv : v < userPages) (hnone : m.entry d v = none) :
    (m'.userFrames d).Perm (f :: m.userFrames d) := by
  have huser := userFrames_mapped hv hnone h.entry
  rwa [pteAddr_mkPte (hp.lt (List.mem_append_left _ h.fresh)) hperm] at huser

theorem Adds.extends (h : Adds m m' d v f perm b) (hp : Pool L (m.free ++ (m.frames d ++ k)))
    (hperm : perm.toNat < 2 ^ 12) (hv : v < userPages) (hnone : m.entry d v = none) :
    Extends m m' d {v} := by
  have hp' : Pool L (m.free ++ (m.tables d ++ (m.userFrames d ++ k))) := by
    rwa [← List.append_assoc (m.tables d)]
  have huser := h.userFrames hp' hperm hv hnone
  refine ⟨?_, fun v' hv' hmem ↦ ?_, fun g hg ↦ ?_, fun g hg ↦ ?_⟩
  · refine (h.moves.frame (m.userFrames d)).congr (.refl _) ?_
    exact (huser.append_left _).trans List.perm_middle
  · rw [h.entry v' hv', Function.update_of_ne fun heq ↦ hmem (Set.mem_singleton_iff.mpr heq)]
  · exact huser.mem_iff.mpr (List.mem_cons_of_mem _ hg)
  · exact h.moves.mem_eq hp' (List.mem_append_left _ hg)

end SistemasOperacionais.Xv6.Vm
