import SistemasOperacionais.Xv6.Vm.Tables
import Mathlib.Order.Interval.Set.Basic

/-!
# Unmapping user pages

`deallocuvm` goes through the pages one after the other, and where there is no page table it goes
on four megabytes further. If it is not at the first page of a table then, it comes to the next
table in its middle: the pages before that are skipped. This is all that can go wrong, for from then
on it enters each table at its first page (`Skipped`).
-/

namespace SistemasOperacionais.Xv6.Vm

open Foundations Prog

variable {L : Layout} {E : Fault → Prop} {m m' m'' : Machine} {d f t : Frame}
  {k l : List Frame} {a b v last fuel : ℕ} {S S' : Set ℕ}

/-- The pages of `S` have been given back. -/
structure Unmaps (m m' : Machine) (d : Frame) (S : Set ℕ) : Prop where
  moves : Moves m m' (m.frames d) (m'.frames d)
  table : m'.table d = m.table d
  inside : ∀ v < 2 ^ 20, v ∈ S → m'.entry d v = none
  outside : ∀ v < 2 ^ 20, v ∉ S → m'.entry d v = m.entry d v
  content : ∀ f ∈ m'.userFrames d, m'.mem f = m.mem f

namespace Unmaps

theorem refl (h : ∀ v < 2 ^ 20, v ∈ S → m.entry d v = none) : Unmaps m m d S :=
  ⟨.refl .., rfl, h, fun _ _ _ ↦ rfl, fun _ _ ↦ rfl⟩

theorem congr (h : Unmaps m m' d S) (hS : ∀ v < 2 ^ 20, m.entry d v ≠ none → (v ∈ S ↔ v ∈ S')) :
    Unmaps m m' d S' where
  moves := h.moves
  table := h.table
  inside v hv hS' := by
    by_cases hnone : m.entry d v = none
    · by_cases hmem : v ∈ S
      · exact h.inside v hv hmem
      · rw [h.outside v hv hmem, hnone]
    · exact h.inside v hv ((hS v hv hnone).mpr hS')
  outside v hv hS' := by
    by_cases hmem : v ∈ S
    · have hnone : m.entry d v = none := by
        by_contra hne
        exact hS' ((hS v hv hne).mp hmem)
      rw [h.inside v hv hmem, hnone]
    · exact h.outside v hv hmem
  content := h.content

theorem page_le (h : Unmaps m m' d S) (hv : v < 2 ^ 20) (hpage : m'.page d v = some f) :
    m.page d v = some f := by
  by_cases hS : v ∈ S
  · rw [page_of_no_entry (h.inside v hv hS)] at hpage
    cases hpage
  · rwa [Machine.page, h.outside v hv hS, ← Machine.page] at hpage

theorem userFrames_subset (h : Unmaps m m' d S) : m'.userFrames d ⊆ m.userFrames d := by
  intro f hf
  obtain ⟨v, hv, hpage⟩ := mem_values.mp hf
  exact mem_values.mpr ⟨v, hv, h.page_le (lt_of_lt_userPages hv) hpage⟩

theorem trans (h : Unmaps m m' d S) (h' : Unmaps m' m'' d S') : Unmaps m m'' d (S ∪ S') where
  moves := h.moves.trans h'.moves
  table := h'.table.trans h.table
  inside v hv hmem := by
    by_cases hS' : v ∈ S'
    · exact h'.inside v hv hS'
    · rw [h'.outside v hv hS', h.inside v hv (hmem.resolve_right hS')]
  outside v hv hmem := by
    rw [h'.outside v hv fun hS' ↦ hmem (.inr hS'), h.outside v hv fun hS ↦ hmem (.inl hS)]
  content f hf := by rw [h'.content f hf, h.content f (h'.userFrames_subset hf)]

end Unmaps

/-! ## One page -/

theorem unmaps_freed (hn : (m.frames d).Nodup) (hv : v < userPages)
    (ht : m.table d (pdx v) = some t) (hpage : m.page d v = some f) :
    Unmaps m ((m.freed f).stored t (ptx v) 0) d {v} ∧
      (((m.freed f).stored t (ptx v) 0).frames d).Nodup := by
  have hdisj : ∀ g ∈ m.tables d, g ∉ m.userFrames d := fun g hg hu ↦
    List.disjoint_of_nodup_append hn hg hu
  have hf : f ∉ m.tables d := fun h ↦ hdisj f h (page_mem_userFrames hv hpage)
  have hmem : ∀ g ∈ m.tables d, (m.freed f).mem g = m.mem g := fun g hg ↦
    Function.update_of_ne (fun (h : g = f) ↦ hf (h ▸ hg)) ..
  have htable : (m.freed f).table d = m.table d := table_congr (hmem d (self_mem_tables m d))
  have htables : (m.freed f).tables d = m.tables d := tables_congr (hmem d (self_mem_tables m d))
  have hentry : (m.freed f).entry d = m.entry d := entry_congr hmem
  have ht' : (m.freed f).table d (pdx v) = some t := by rw [htable, ht]
  have hn' : ((m.freed f).tables d).Nodup := by
    rw [htables]
    exact hn.of_append_left
  have htables' : ((m.freed f).stored t (ptx v) 0).tables d = m.tables d := by
    rw [tables_stored hn' (pdx_lt v) ht', htables]
  have hnew : ∀ v' < 2 ^ 20, ((m.freed f).stored t (ptx v) 0).entry d v' =
      Function.update (m.entry d) v none v' := fun v' hv' ↦ by
    rw [entry_stored hn' (lt_of_lt_userPages hv) ht' hv', hentry, present_zero,
      if_neg Bool.false_ne_true]
  have huser := userFrames_unmapped hv hpage hnew
  have hperm : (m.frames d).Perm (f :: ((m.freed f).stored t (ptx v) 0).frames d) := by
    rw [Machine.frames, Machine.frames, htables']
    exact (huser.append_left _).trans List.perm_middle
  have hcons := List.nodup_cons.mp (hperm.nodup_iff.mp hn)
  have htmem : t ∈ m.tables d := table_mem_tables (pdx_lt v) ht
  have hself : t ∈ ((m.freed f).stored t (ptx v) 0).frames d := by
    refine tables_subset _ _ ?_
    rwa [htables']
  have hmoves : Moves m (m.freed f) (m.frames d) (((m.freed f).stored t (ptx v) 0).frames d) := by
    refine ((Moves.of_freed m f).frame _).congr ?_ (.of_eq (List.nil_append _).symm)
    rwa [List.singleton_append]
  refine ⟨⟨?_, ?_, fun v' hv' hmem' ↦ ?_, fun v' hv' hmem' ↦ ?_, fun g hg ↦ ?_⟩, hcons.2⟩
  · exact hmoves.trans (.of_filled hself)
  · rw [table_stored hn' (pdx_lt v) ht', htable]
  · rw [hnew v' hv', Set.mem_singleton_iff.mp hmem', Function.update_self]
  · rw [hnew v' hv', Function.update_of_ne fun h ↦ hmem' (Set.mem_singleton_iff.mpr h)]
  · have hgf : g ≠ f := by
      rintro rfl
      exact hcons.1 (userFrames_subset _ _ hg)
    have hgt : g ≠ t := by
      rintro rfl
      exact hdisj g htmem (huser.mem_iff.mpr (List.mem_cons_of_mem _ hg))
    rw [Machine.stored, mem_filled_of_ne hgt]
    exact Function.update_of_ne hgf ..

/-! ## The loop -/

/-- From `a`, where there is no page table, the loop comes to the first table that there is behind
the page `v`. -/
def Skipped (m : Machine) (d : Frame) (a v : ℕ) : Prop :=
  ptx v < ptx a ∧ pdx a < pdx v ∧ ∀ i, pdx a ≤ i → i < pdx v → m.table d i = none

/-- The pages that the loop looks at, from `a` on. -/
def swept (m : Machine) (d : Frame) (a last : ℕ) : Set ℕ :=
  {v | a ≤ v ∧ v < last ∧ ¬Skipped m d a v}

section Skip

theorem Skipped.no_table (h : Skipped m d a v) : m.table d (pdx a) = none := h.2.2 _ le_rfl h.2.1

theorem not_skipped_of_table (h : m.table d (pdx a) = some t) : ¬Skipped m d a v := fun hs ↦ by
  have hnone := hs.no_table
  rw [h] at hnone
  cases hnone

theorem not_skipped_succ (h : m.table d (pdx a) = some t) : ¬Skipped m d (a + 1) v := by
  by_cases hpdx : pdx (a + 1) = pdx a
  · exact not_skipped_of_table (hpdx ▸ h)
  · intro hs
    have hfirst : ptx (a + 1) = 0 := by
      simp only [pdx, ptx, nentries] at hpdx ⊢
      omega
    exact absurd (hfirst ▸ hs.1) (Nat.not_lt_zero _)

theorem mem_swept_succ (h : m.table d (pdx a) = some t) (ha : a < last) (v : ℕ) :
    v ∈ swept m d a last ↔ v = a ∨ v ∈ swept m d (a + 1) last := by
  constructor
  · rintro ⟨hge, hlt, -⟩
    rcases Nat.eq_or_lt_of_le hge with rfl | hgt
    · exact .inl rfl
    · exact .inr ⟨hgt, hlt, not_skipped_succ h⟩
  · rintro (rfl | ⟨hge, hlt, -⟩)
    · exact ⟨le_rfl, ha, not_skipped_of_table h⟩
    · exact ⟨Nat.le_of_succ_le hge, hlt, not_skipped_of_table h⟩

theorem mem_swept_jump (h : m.table d (pdx a) = none) (ha : a < last) (hlast : last ≤ userPages)
    (hv : m.entry d v ≠ none) :
    v ∈ swept m d (a + nentries) last ↔ v ∈ swept m d a last := by
  have hau : a < userPages := ha.trans_le hlast
  have hptx : ptx (a + nentries) = ptx a := Nat.add_mod_right ..
  have hpdx : pdx (a + nentries) = pdx a + 1 := by
    simp only [pdx, nentries, userPages] at hau ⊢
    omega
  have hiff : pdx a + 1 < pdx v → (Skipped m d (a + nentries) v ↔ Skipped m d a v) := by
    intro hlt
    rw [Skipped, Skipped, hptx, hpdx]
    refine and_congr_right fun _ ↦ ⟨fun hs ↦ ⟨Nat.lt_of_succ_lt hlt, fun i hge hi ↦ ?_⟩,
      fun hs ↦ ⟨hlt, fun i hge hi ↦ hs.2 i (Nat.le_of_succ_le hge) hi⟩⟩
    rcases Nat.eq_or_lt_of_le hge with rfl | hgt
    · exact h
    · exact hs.2 i hgt hi
  constructor
  · rintro ⟨hge, hlt, hns⟩
    refine ⟨(Nat.le_add_right ..).trans hge, hlt, fun hs ↦ hns ((hiff ?_).mpr hs)⟩
    have hback := hs.1
    simp only [pdx, ptx, nentries, userPages] at hback hge hlast ⊢
    omega
  · rintro ⟨hge, hlt, hns⟩
    have hne : pdx v ≠ pdx a := fun heq ↦ hv (entry_of_no_table (heq ▸ h))
    have hgt : pdx a < pdx v := by
      simp only [pdx, nentries, userPages] at hne hlast ⊢
      omega
    refine ⟨not_lt.mp fun hnear ↦ hns ⟨?_, hgt, fun i hi hi' ↦ ?_⟩, hlt, fun hs ↦ ?_⟩
    · simp only [pdx, ptx, nentries, userPages] at hgt hnear hlast ⊢
      omega
    · have hi : i = pdx a := by
        simp only [pdx, nentries, userPages] at hi hi' hnear hlast ⊢
        omega
      rw [hi, h]
    · exact hns ((hiff (hpdx ▸ hs.2.1)).mp hs)

end Skip

theorem swept_congr (h : m'.table d = m.table d) (a last : ℕ) :
    swept m' d a last = swept m d a last := by
  simp only [swept, Skipped, h]

theorem entry_ne_none (h : m.page d v = some f) : m.entry d v ≠ none := by
  intro hnone
  rw [page_of_no_entry hnone] at h
  cases h

theorem not_freeable_zero (L : Layout) : ¬Freeable L 0 := fun h ↦
  absurd h.1 (not_le.mpr ((Nat.zero_lt_of_lt L.extmem_lt).trans L.data_lt))

/-- **The loop of `deallocuvm`** gives back the pages that it looks at, and no others. It stops at
the first page among them that `kfree` refuses. -/
theorem spec_deallocLoop (hn : (m.frames d).Nodup) (hlast : last ≤ userPages)
    (hfuel : last ≤ a + fuel)
    (hE : ∀ v ∈ swept m d a last, ∀ f, m.page d v = some f → ¬Freeable L f → E (.panic "kfree")) :
    Spec E (deallocLoop L d last fuel a) m fun _ m' ↦ Unmaps m m' d (swept m d a last) ∧
      ∀ v ∈ swept m d a last, ∀ f, m.page d v = some f → Freeable L f := by
  induction fuel generalizing m a with
  | zero =>
    have hempty : ∀ v, v ∉ swept m d a last := fun v hv ↦
      absurd (hfuel.trans hv.1) (not_le.mpr hv.2.1)
    exact spec_pure ⟨.refl fun v _ hv ↦ absurd hv (hempty v), fun v hv ↦ absurd hv (hempty v)⟩
  | succ fuel ih =>
    rw [deallocLoop]
    split_ifs with ha
    · have hau : a < userPages := ha.trans_le hlast
      refine spec_bind (spec_lookup ?_)
      cases ht : m.table d (pdx a) with
      | none =>
        have hjump : ∀ v, m.entry d v ≠ none →
            (v ∈ swept m d (a + nentries) last ↔ v ∈ swept m d a last) := fun v hv ↦
          mem_swept_jump ht ha hlast hv
        have hpos : 1 ≤ nentries := by decide
        refine (ih hn (by omega) fun v hv f hpage ↦
          hE v ((hjump v (entry_ne_none hpage)).mp hv) f hpage).imp ?_
        rintro _ m' ⟨hu, hok⟩
        exact ⟨hu.congr fun v _ hv ↦ hjump v hv, fun v hv f hpage ↦
          hok v ((hjump v (entry_ne_none hpage)).mpr hv) f hpage⟩
      | some t =>
        have hsucc := mem_swept_succ ht ha
        have hentry := entry_of_table ht
        refine spec_bind (spec_get ?_)
        dsimp only
        split_ifs with hpte hzero
        · have hpage := page_of_entry (hentry.trans (if_pos hpte))
          rw [hzero] at hpage
          exact spec_stop (hE a ((hsucc a).mpr (.inl rfl)) 0 hpage (not_freeable_zero L))
        · have hpage := page_of_entry (hentry.trans (if_pos hpte))
          refine spec_bind (spec_kfree (hE a ((hsucc a).mpr (.inl rfl)) _ hpage) fun hfree ↦ ?_)
          obtain ⟨hu, hn'⟩ := unmaps_freed hn hau ht hpage
          have hswept := swept_congr hu.table (a + 1) last
          refine spec_bind (spec_modify ((ih hn' (by omega) fun v hv f hpage' ↦ ?_).imp ?_))
          · rw [hswept] at hv
            exact hE v ((hsucc v).mpr (.inr hv)) f
              (hu.page_le (lt_of_lt_userPages (hv.2.1.trans_le hlast)) hpage')
          · rintro _ m' ⟨hu', hok⟩
            rw [hswept] at hu' hok
            refine ⟨(hu.trans hu').congr fun v _ _ ↦ (hsucc v).symm, fun v hv f hpage' ↦ ?_⟩
            rcases (hsucc v).mp hv with rfl | hmem
            · rw [hpage] at hpage'
              exact Option.some.inj hpage' ▸ hfree
            · refine hok v hmem f ?_
              rwa [Machine.page, hu.outside v (lt_of_lt_userPages (hv.2.1.trans_le hlast))
                fun h ↦ absurd (Set.mem_singleton_iff.mp h ▸ hmem.1) (Nat.not_succ_le_self a),
                ← Machine.page]
        · have hnone : m.entry d a = none := by rw [hentry, if_neg hpte]
          refine (ih hn (by omega) fun v hv ↦ hE v ((hsucc v).mpr (.inr hv))).imp ?_
          rintro _ m' ⟨hu, hok⟩
          have hmem : ∀ v, m.entry d v ≠ none →
              (v ∈ swept m d (a + 1) last ↔ v ∈ swept m d a last) := fun v hv ↦ by
            rw [hsucc v, or_iff_right]
            rintro rfl
            exact hv hnone
          exact ⟨hu.congr fun v _ hv ↦ hmem v hv, fun v hv f hpage ↦
            hok v ((hmem v (entry_ne_none hpage)).mpr hv) f hpage⟩
    · have hempty : ∀ v, v ∉ swept m d a last := fun v hv ↦ ha (hv.1.trans_lt hv.2.1)
      exact spec_pure ⟨.refl fun v _ hv ↦ absurd hv (hempty v), fun v hv ↦ absurd hv (hempty v)⟩

/-! ## The function -/

section Sizes

variable {sz newsz oldsz : UInt32}

theorem toNat_pgroundup (h : sz ≤ kernbase) : (pgroundup sz).toNat = pages sz * pgsize := by
  have hle : sz.toNat ≤ 2147483648 := UInt32.le_iff_toNat_le.mp h
  simp only [pgroundup, pages, pgsize, UInt32.toNat_mul, UInt32.toNat_div, UInt32.toNat_add,
    UInt32.reduceToNat]
  omega

/-- The pages with an address from `PGROUNDUP(newsz)` up to `oldsz`. -/
def Between (newsz oldsz : UInt32) (v : ℕ) : Prop :=
  (pgroundup newsz).toNat ≤ v * pgsize ∧ v * pgsize < oldsz.toNat

instance : DecidablePred (Between newsz oldsz) := fun v ↦
  inferInstanceAs (Decidable ((pgroundup newsz).toNat ≤ v * pgsize ∧ v * pgsize < oldsz.toNat))

theorem between_iff (h : newsz ≤ kernbase) :
    Between newsz oldsz v ↔ pages newsz ≤ v ∧ v < pages oldsz := by
  rw [Between, toNat_pgroundup h]
  simp only [pages, pgsize]
  omega

end Sizes

section Dealloc

variable {newsz oldsz : UInt32}

theorem spec_deallocuvm (hn : (m.frames d).Nodup) (hold : oldsz ≤ kernbase)
    (hE : ∀ v ∈ swept m d (pages newsz) (pages oldsz), ∀ f, m.page d v = some f →
      ¬Freeable L f → E (.panic "kfree")) :
    Spec E (deallocuvm L d oldsz newsz) m fun r m' ↦ (oldsz ≤ newsz ∧ r = oldsz ∧ m' = m) ∨
      (newsz < oldsz ∧ r = newsz ∧ Unmaps m m' d (swept m d (pages newsz) (pages oldsz)) ∧
        ∀ v ∈ swept m d (pages newsz) (pages oldsz), ∀ f, m.page d v = some f → Freeable L f) := by
  rw [deallocuvm]
  split_ifs with hle
  · exact spec_pure (.inl ⟨hle, rfl, rfl⟩)
  · have hlt : newsz < oldsz := UInt32.not_le.mp hle
    have hstart : (pgroundup newsz).toNat / pgsize = pages newsz := by
      rw [toNat_pgroundup (UInt32.le_trans (UInt32.le_of_lt hlt) hold),
        Nat.mul_div_cancel _ (by decide)]
    rw [hstart]
    refine spec_bind ((spec_deallocLoop hn (pages_le hold) (Nat.le_add_left ..) hE).imp ?_)
    rintro _ m' ⟨hu, hok⟩
    exact spec_pure (.inr ⟨hlt, rfl, hu, hok⟩)

/-- Where the loop starts there is a page table, or it starts with the first page of one. -/
theorem not_skipped_of_start (h : ptx a = 0 ∨ m.table d (pdx a) ≠ none) : ¬Skipped m d a v := by
  intro hs
  rcases h with h | h
  · exact absurd (h ▸ hs.1) (Nat.not_lt_zero _)
  · exact h hs.no_table

/-- **`deallocuvm` for pages that the kernel has handed out** gives back all of the range. -/
theorem spec_deallocuvm_all (hp : Pool L (m.free ++ (m.frames d ++ k))) (hold : oldsz ≤ kernbase)
    (hlt : newsz < oldsz)
    (hstart : ptx (pages newsz) = 0 ∨ m.table d (pdx (pages newsz)) ≠ none) :
    Spec E (deallocuvm L d oldsz newsz) m fun r m' ↦ r = newsz ∧
      Unmaps m m' d (Set.Ico (pages newsz) (pages oldsz)) := by
  refine (spec_deallocuvm hp.right.left.nodup hold fun v hv f hpage hbad ↦ ?_).imp ?_
  · refine absurd (hp.range f ?_) hbad
    refine List.mem_append_right _ (List.mem_append_left _ (userFrames_subset m d ?_))
    exact page_mem_userFrames (hv.2.1.trans_le (pages_le hold)) hpage
  · rintro r m' (⟨hle, -⟩ | ⟨-, rfl, hu, -⟩)
    · exact absurd hlt (UInt32.not_lt.mpr hle)
    · exact ⟨rfl, hu.congr fun v _ _ ↦ ⟨fun h ↦ ⟨h.1, h.2.1⟩,
        fun h ↦ ⟨h.1, h.2, not_skipped_of_start hstart⟩⟩⟩

/-- The frames of the pages from `PGROUNDUP(newsz)` up to `oldsz`. -/
def Machine.framesBetween (m : Machine) (d : Frame) (newsz oldsz : UInt32) : List Frame :=
  ((List.range userPages).filter (Between newsz oldsz ·)).filterMap (m.page d)

/-- The pages from `PGROUNDUP(newsz)` up to `oldsz` are not mapped any more, each of their frames
has been freed once, and all the other pages are mapped as before. -/
structure UnmapsBetween (m m' : Machine) (d : Frame) (newsz oldsz : UInt32) : Prop where
  inside : ∀ v < 2 ^ 20, Between newsz oldsz v → m'.entry d v = none
  freed : m'.free.Perm (m.framesBetween d newsz oldsz ++ m.free)
  outside : ∀ v < 2 ^ 20, ¬Between newsz oldsz v → m'.entry d v = m.entry d v

theorem Unmaps.between (h : Unmaps m m' d S)
    (hS : ∀ v < 2 ^ 20, m.entry d v ≠ none → (v ∈ S ↔ Between newsz oldsz v)) :
    UnmapsBetween m m' d newsz oldsz := by
  have h' : Unmaps m m' d {v | Between newsz oldsz v} := h.congr hS
  have hsplit : (m.userFrames d).Perm (m.framesBetween d newsz oldsz ++ m'.userFrames d) := by
    refine values_filter (fun v hv hb ↦ ?_) fun v hv hb ↦ ?_
    · exact page_of_no_entry (h'.inside v (lt_of_lt_userPages hv) (of_decide_eq_true hb))
    · rw [Machine.page, h'.outside v (lt_of_lt_userPages hv) (of_decide_eq_false hb), Machine.page]
  refine ⟨h'.inside, ?_, h'.outside⟩
  have htables : m'.tables d = m.tables d := by rw [Machine.tables, Machine.tables, h.table]
  have hperm := h.moves.perm
  rw [Machine.frames, Machine.frames, htables] at hperm
  refine (List.perm_append_right_iff (m.tables d ++ m'.userFrames d)).mp (hperm.trans ?_)
  rw [List.perm_iff_count] at hsplit ⊢
  intro f
  have hcount := hsplit f
  simp only [List.count_append] at hcount ⊢
  omega

/-- **`deallocuvm` unmaps the whole range** if and only if `kfree` takes each frame that is mapped
there and no page of the range is skipped. -/
theorem deallocuvm_unmaps_iff (hn : (m.frames d).Nodup) (hlt : newsz < oldsz)
    (hold : oldsz ≤ kernbase) :
    (∃ r, (deallocuvm L d oldsz newsz m).val = .ok r ∧
      UnmapsBetween m (deallocuvm L d oldsz newsz m).state d newsz oldsz) ↔
    ∀ v, Between newsz oldsz v → ∀ f, m.page d v = some f →
      Freeable L f ∧ ¬Skipped m d (pages newsz) v := by
  have hbetween : ∀ v, Between newsz oldsz v ↔ pages newsz ≤ v ∧ v < pages oldsz := fun v ↦
    between_iff (UInt32.le_trans (UInt32.le_of_lt hlt) hold)
  have hreach : ∀ {v}, Between newsz oldsz v → v < 2 ^ 20 := fun hb ↦
    lt_of_lt_userPages (((hbetween _).mp hb).2.trans_le (pages_le hold))
  have hswept : ∀ {v}, v ∈ swept m d (pages newsz) (pages oldsz) ↔
      Between newsz oldsz v ∧ ¬Skipped m d (pages newsz) v := by
    intro v
    rw [hbetween, and_assoc]
    rfl
  have hspec := spec_deallocuvm (L := L)
    (E := fun _ ↦ ∃ v ∈ swept m d (pages newsz) (pages oldsz), ∃ f, m.page d v = some f ∧
      ¬Freeable L f) hn hold fun v hv f hpage hbad ↦ ⟨v, hv, f, hpage, hbad⟩
  rcases hspec with ⟨r, hr, hdone⟩ | ⟨e, he, v, hv, f, hpage, hbad⟩
  · obtain ⟨-, -, hu, hok⟩ := hdone.resolve_left fun h ↦ absurd hlt (UInt32.not_lt.mpr h.1)
    constructor
    · rintro ⟨-, -, hall⟩ v hb f hpage
      have hnot : ¬Skipped m d (pages newsz) v := fun hs ↦ entry_ne_none hpage <| by
        rw [← hu.outside v (hreach hb) fun hmem ↦ (hswept.mp hmem).2 hs,
          hall.inside v (hreach hb) hb]
      exact ⟨hok v (hswept.mpr ⟨hb, hnot⟩) f hpage, hnot⟩
    · intro hcond
      refine ⟨r, hr, hu.between fun v hv hne ↦ ⟨fun hmem ↦ (hswept.mp hmem).1, fun hb ↦ ?_⟩⟩
      obtain ⟨e, he⟩ := Option.ne_none_iff_exists'.mp hne
      exact hswept.mpr ⟨hb, (hcond v hb _ (page_of_entry he)).2⟩
  · constructor
    · rintro ⟨r, hr, -⟩
      rw [he] at hr
      cases hr
    · intro hcond
      exact absurd (hcond v (hswept.mp hv).1 f hpage).1 hbad

/-- A page behind four megabytes is unmapped from address 0 on. -/
theorem deallocuvm_unmaps_onePage :
    ∃ r, (deallocuvm smallKernel 300 4198400 0 (onePage [] 1024)).val = .ok r ∧
      UnmapsBetween (onePage [] 1024) (deallocuvm smallKernel 300 4198400 0 (onePage [] 1024)).state
        300 0 4198400 := by
  have hpool := pool_onePage (v := 1024) pool_small (by decide) (by decide)
  refine (deallocuvm_unmaps_iff hpool.right.nodup (by decide) (by decide)).mpr
    fun v hb f hpage ↦ ?_
  have hv : v < 2 ^ 20 := lt_of_lt_userPages ((((between_iff (by decide)).mp hb).2).trans_le
    (pages_le (by decide)))
  obtain ⟨-, rfl⟩ := page_onePage pool_small (by decide) hv hpage
  exact ⟨⟨by decide, by decide⟩, fun hs ↦ absurd hs.1 (Nat.not_lt_zero _)⟩

/-- The same page stays mapped when the range starts at address 4096, where there is no page
table. -/
theorem not_deallocuvm_unmaps :
    ¬∃ r, (deallocuvm smallKernel 300 4198400 4096 (onePage [] 1024)).val = .ok r ∧
      UnmapsBetween (onePage [] 1024)
        (deallocuvm smallKernel 300 4198400 4096 (onePage [] 1024)).state 300 4096 4198400 := by
  rintro ⟨r, hr, hall⟩
  have hpool := pool_onePage (v := 1024) pool_small (by decide) (by decide)
  have hskip : Skipped (onePage [] 1024) 300 1 1024 := by
    refine ⟨by decide, by decide, fun i _ hi ↦ ?_⟩
    rw [(mapped_onePage pool_small (by decide)).others i (Nat.ne_of_lt hi)]
    exact table_of_zero rfl i
  have hspec : Spec (fun _ ↦ True) (deallocuvm smallKernel 300 4198400 4096)
      (onePage [] 1024) _ := spec_deallocuvm hpool.right.nodup (by decide) fun _ _ _ _ _ ↦ trivial
  obtain ⟨-, -, hu, -⟩ := (hspec.of_ok hr).resolve_left
    fun h ↦ absurd h.1 (by decide)
  have hstays := hu.outside 1024 (by decide) fun hmem ↦ hmem.2.2 hskip
  rw [hall.inside 1024 (by decide) ⟨by decide, by decide⟩,
    entry_onePage pool_small (by decide) (by decide), Function.update_self] at hstays
  cases hstays

end Dealloc

end SistemasOperacionais.Xv6.Vm
