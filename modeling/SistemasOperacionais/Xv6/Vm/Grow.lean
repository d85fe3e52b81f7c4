import SistemasOperacionais.Xv6.Vm.Extend
import SistemasOperacionais.Xv6.Vm.Unmap
import Mathlib.Data.Finset.Card
import Mathlib.Order.Interval.Finset.Nat

/-!
# Growing and shrinking a process

`growproc` reports success by a size that is not 0, so it reports a failure when a process gives
back all its memory. `allocuvm` gives back the pages that it has mapped when there are no more, but
not the page tables that it has made for them, and it does not look whether `mappages` has failed.
So it depends on where the first call of `kalloc` fails: before the first page table has to be made,
nothing is lost (`Clean`), and later something is.
-/

namespace SistemasOperacionais.Xv6.Vm

open Foundations Prog

variable {L : Layout} {E : Fault → Prop} {m m' m'' : Machine} {d f : Frame}
  {k : List Frame} {a b n v : ℕ} {oldsz newsz : UInt32}

/-! ## How many pages are needed -/

/-- The places of the page tables that have to be made for the pages from `a` to `b`. -/
def missing (m : Machine) (d : Frame) (a b : ℕ) : Finset ℕ :=
  ((Finset.Ico a b).image pdx).filter (m.table d · = none)

/-- There is a page for each of the pages from `a` to `b` and for each page table. -/
def Enough (m : Machine) (d : Frame) (a b : ℕ) : Prop :=
  b - a + (missing m d a b).card ≤ m.grants

/-- There is a page table for each page that is allocated before `kalloc` fails. -/
def Clean (m : Machine) (d : Frame) (a b : ℕ) : Prop :=
  ∀ v, a ≤ v → v < b → v < a + m.grants → m.table d (pdx v) ≠ none

section Count

theorem mem_missing {i : ℕ} : i ∈ missing m d a b ↔
    (∃ v, (a ≤ v ∧ v < b) ∧ pdx v = i) ∧ m.table d i = none := by
  simp only [missing, Finset.mem_filter, Finset.mem_image, Finset.mem_Ico]

theorem missing_self : missing m d a a = ∅ := by
  rw [missing, Finset.Ico_self, Finset.image_empty, Finset.filter_empty]

theorem missing_of_table (ht : m.table d (pdx a) ≠ none) (htable : m'.table d = m.table d) :
    missing m' d (a + 1) b = missing m d a b := by
  ext i
  rw [mem_missing, mem_missing, htable]
  refine and_congr_left fun hi ↦ exists_congr fun v ↦ and_congr_left fun hpdx ↦ ?_
  have hne : v ≠ a := by
    rintro rfl
    exact ht (hpdx ▸ hi)
  omega

theorem missing_of_no_table (ht : m.table d (pdx a) = none) (ht' : m'.table d (pdx a) ≠ none)
    (hothers : ∀ i ≠ pdx a, m'.table d i = m.table d i) (hab : a < b) :
    (missing m d a b).card = (missing m' d (a + 1) b).card + 1 := by
  have hnot : pdx a ∉ missing m' d (a + 1) b := fun h ↦ ht' (mem_missing.mp h).2
  have hinsert : missing m d a b = insert (pdx a) (missing m' d (a + 1) b) := by
    ext i
    rw [Finset.mem_insert, mem_missing, mem_missing]
    constructor
    · rintro ⟨⟨v, hv, rfl⟩, hi⟩
      by_cases heq : pdx v = pdx a
      · exact .inl heq
      · refine .inr ⟨⟨v, ⟨?_, hv.2⟩, rfl⟩, by rw [hothers _ heq, hi]⟩
        exact Nat.lt_of_le_of_ne hv.1 fun h ↦ heq (h ▸ rfl)
    · rintro (rfl | ⟨⟨v, hv, rfl⟩, hi⟩)
      · exact ⟨⟨a, ⟨le_rfl, hab⟩, rfl⟩, ht⟩
      · have hne : pdx v ≠ pdx a := fun h ↦ ht' (h ▸ hi)
        exact ⟨⟨v, ⟨by omega, hv.2⟩, rfl⟩, by rw [← hothers _ hne, hi]⟩
  rw [hinsert, Finset.card_insert_of_notMem hnot]

theorem enough_kept (ht : m.table d (pdx a) ≠ none) (htable : m'.table d = m.table d)
    (hgrants : m'.grants + 1 = m.grants) (hab : a < b) :
    Enough m d a b ↔ Enough m' d (a + 1) b := by
  rw [Enough, Enough, missing_of_table ht htable]
  omega

theorem clean_kept (ht : m.table d (pdx a) ≠ none) (htable : m'.table d = m.table d)
    (hgrants : m'.grants + 1 = m.grants) : Clean m d a b ↔ Clean m' d (a + 1) b := by
  rw [Clean, Clean, htable]
  constructor
  · exact fun h v hge hlt hg ↦ h v (by omega) hlt (by omega)
  · intro h v hge hlt hg
    rcases Nat.eq_or_lt_of_le hge with rfl | hgt
    · exact ht
    · exact h v hgt hlt (by omega)

theorem enough_new (ht : m.table d (pdx a) = none) (ht' : m'.table d (pdx a) ≠ none)
    (hothers : ∀ i ≠ pdx a, m'.table d i = m.table d i) (hgrants : m'.grants + 2 = m.grants)
    (hab : a < b) : Enough m d a b ↔ Enough m' d (a + 1) b := by
  rw [Enough, Enough, missing_of_no_table ht ht' hothers hab]
  omega

theorem not_clean (ht : m.table d (pdx a) = none) (hgrants : 0 < m.grants) (hab : a < b) :
    ¬Clean m d a b := fun h ↦ h a le_rfl hab (by omega) ht

theorem not_enough (ht : m.table d (pdx a) = none) (hgrants : m.grants = 1) (hab : a < b) :
    ¬Enough m d a b := by
  have hpos : 0 < (missing m d a b).card :=
    Finset.card_pos.mpr ⟨pdx a, mem_missing.mpr ⟨⟨a, ⟨le_rfl, hab⟩, rfl⟩, ht⟩⟩
  rw [Enough]
  omega

end Count

/-! ## The loop of `allocuvm` -/

/-- The pages from `a` to `b` are there, and they are full of zeros. -/
structure Grown (m m' : Machine) (d : Frame) (a b : ℕ) : Prop extends
    Extends m m' d (Set.Ico a b) where
  zeroed : ∀ v, a ≤ v → v < b → ∃ f, m'.page d v = some f ∧ m'.mem f = .fill 0

/-- It returns the new size although a page is missing, or it returns 0 although it has not given
back a page. -/
def Loses (m m' : Machine) (d : Frame) (a b : ℕ) (newsz r : UInt32) : Prop :=
  (r = newsz ∧ ∃ v, a ≤ v ∧ v < b ∧ m'.entry d v = none) ∨ (r = 0 ∧ ∃ f ∈ m.free, f ∉ m'.free)

/-- What is left after the loop depends on how many pages there are. -/
structure Outcome (m m' : Machine) (d : Frame) (a : ℕ) (oldsz newsz r : UInt32) : Prop where
  enough : Enough m d a (pages newsz) → r = newsz ∧ Grown m m' d a (pages newsz)
  clean : ¬Enough m d a (pages newsz) → Clean m d a (pages newsz) →
    r = 0 ∧ Unmaps m m' d (Set.Ico (pages oldsz) (pages newsz))
  loses : ¬Enough m d a (pages newsz) → ¬Clean m d a (pages newsz) →
    Loses m m' d a (pages newsz) newsz r

section Rounds

variable {r : UInt32} {perm : UInt32}

theorem flags_lt : (flagW ||| flagU).toNat < 2 ^ 12 := by decide

theorem Grown.refl (m : Machine) (d : Frame) (a : ℕ) : Grown m m d a a :=
  ⟨.refl .., fun _ hge hlt ↦ absurd hlt (not_lt.mpr hge)⟩

theorem Grown.cons (hp : Pool L (m.free ++ (m.frames d ++ k))) (ha : a < userPages)
    (hnone : m.entry d a = none) (h : Adds m m' d a f (flagW ||| flagU) (.fill 0))
    (hrest : Grown m' m'' d (a + 1) b) (hab : a < b) : Grown m m'' d a b := by
  have hext := h.extends hp flags_lt ha hnone
  have hf : f < 2 ^ 20 := hp.lt (List.mem_append_left _ h.fresh)
  have hpage : m'.page d a = some f := by
    rw [Machine.page, h.entry a (lt_of_lt_userPages ha), Function.update_self, Option.map_some,
      pteAddr_mkPte hf flags_lt]
  refine ⟨(hext.trans hrest.toExtends).subset ?_, fun v hge hlt ↦ ?_⟩
  · rintro v (rfl | ⟨hge, hlt⟩)
    · exact ⟨le_rfl, hab⟩
    · exact ⟨by omega, hlt⟩
  · rcases Nat.eq_or_lt_of_le hge with rfl | hgt
    · refine ⟨f, ?_, ?_⟩
      · rwa [Machine.page, hrest.outside a (lt_of_lt_userPages ha) fun hmem ↦
          absurd hmem.1 (Nat.not_succ_le_self a), ← Machine.page]
      · rw [hrest.kept f (page_mem_userFrames ha hpage), h.content]
    · exact hrest.zeroed v hgt hlt

theorem Unmaps.of_extends {S S' : Set ℕ} (h : Extends m m' d S) (h' : Unmaps m' m'' d S')
    (hS : S ⊆ S') (htable : m'.table d = m.table d) : Unmaps m m'' d S' where
  moves := h.moves.trans h'.moves
  table := h'.table.trans htable
  inside := h'.inside
  outside v hv hmem := by rw [h'.outside v hv hmem, h.outside v hv fun hS' ↦ hmem (hS hS')]
  content f hf := by
    obtain ⟨v, hv, hpage⟩ := mem_values.mp hf
    have hv' := lt_of_lt_userPages hv
    have hmem : v ∉ S' := fun hmem ↦ entry_ne_none hpage (h'.inside v hv' hmem)
    have hold : m.page d v = some f := by
      rw [Machine.page, ← h.outside v hv' fun hS' ↦ hmem (hS hS'), ← h'.outside v hv' hmem,
        ← Machine.page, hpage]
    rw [h'.content f hf, h.kept f (page_mem_userFrames hv hold)]

theorem Loses.of_succ (h : Loses m' m'' d (a + 1) b newsz r) (hfree : m'.free ⊆ m.free) :
    Loses m m'' d a b newsz r := by
  rcases h with ⟨hr, v, hge, hlt, hv⟩ | ⟨hr, g, hg, hg'⟩
  · exact .inl ⟨hr, v, Nat.le_of_succ_le hge, hlt, hv⟩
  · exact .inr ⟨hr, g, hfree hg, hg'⟩

variable (hab : a < pages newsz)
include hab

theorem Outcome.kept (hp : Pool L (m.free ++ (m.frames d ++ k))) (ha : a < userPages)
    (hold : pages oldsz ≤ a) (hnone : m.entry d a = none)
    (h : Adds m m' d a f (flagW ||| flagU) (.fill 0)) (ht : m.table d (pdx a) ≠ none)
    (hrest : Outcome m' m'' d (a + 1) oldsz newsz r) : Outcome m m'' d a oldsz newsz r := by
  obtain ⟨htable, hgrants⟩ := h.kept (Option.isSome_iff_ne_none.mpr ht)
  have henough := enough_kept ht htable hgrants hab
  have hclean := clean_kept (b := pages newsz) ht htable hgrants
  refine ⟨fun he ↦ ?_, fun he hc ↦ ?_, fun he hc ↦ ?_⟩
  · obtain ⟨hr, hgrown⟩ := hrest.enough (henough.mp he)
    exact ⟨hr, .cons hp ha hnone h hgrown hab⟩
  · obtain ⟨hr, hu⟩ := hrest.clean (mt henough.mpr he) (hclean.mp hc)
    refine ⟨hr, .of_extends (h.extends hp flags_lt ha hnone) hu ?_ htable⟩
    rintro v rfl
    exact ⟨hold, hab⟩
  · exact (hrest.loses (mt henough.mpr he) (mt hclean.mpr hc)).of_succ h.free

theorem Outcome.new (hp : Pool L (m.free ++ (m.frames d ++ k))) (ha : a < userPages)
    (hnone : m.entry d a = none) (h : Adds m m' d a f (flagW ||| flagU) (.fill 0))
    (ht : m.table d (pdx a) = none) (hrest : Outcome m' m'' d (a + 1) oldsz newsz r) :
    Outcome m m'' d a oldsz newsz r := by
  obtain ⟨⟨t, htfree, ht'⟩, hgrants⟩ := h.new ht
  have hsome : m'.table d (pdx a) ≠ none := by
    rw [ht']
    exact Option.some_ne_none t
  have henough := enough_new ht hsome h.others hgrants hab
  have hclean : ¬Clean m d a (pages newsz) := not_clean ht (by omega) hab
  have hext := h.extends hp flags_lt ha hnone
  refine ⟨fun he ↦ ?_, fun _ hc ↦ absurd hc hclean, fun he _ ↦ ?_⟩
  · obtain ⟨hr, hgrown⟩ := hrest.enough (henough.mp he)
    exact ⟨hr, .cons hp ha hnone h hgrown hab⟩
  · by_cases hc : Clean m' d (a + 1) (pages newsz)
    · obtain ⟨hr, hu⟩ := hrest.clean (mt henough.mpr he) hc
      refine .inr ⟨hr, t, htfree, fun hmem ↦ ?_⟩
      have hpool := (hext.moves.trans hu.moves).pool hp
      refine hpool.notMem hmem (List.mem_append_left _ (tables_subset _ _ ?_))
      exact table_mem_tables (pdx_lt a) (by rw [hu.table, ht'])
    · exact (hrest.loses (mt henough.mpr he) hc).of_succ h.free

/-- A round in which `mappages` has failed: its page is lost. -/
theorem Outcome.lost (hp : Pool L (m'.free ++ (m'.frames d ++ f :: k))) (ha : a < userPages)
    (hnone : m'.entry d a = none) (hfree : m'.free ⊆ m.free) (hf : f ∈ m.free)
    (ht : m.table d (pdx a) = none) (hgrants : m.grants = 1)
    (hrest : Outcome m' m'' d (a + 1) oldsz newsz r) : Outcome m m'' d a oldsz newsz r := by
  refine ⟨fun he ↦ absurd he (not_enough ht hgrants hab),
    fun _ hc ↦ absurd hc (not_clean ht (by omega) hab), fun _ _ ↦ ?_⟩
  by_cases he : Enough m' d (a + 1) (pages newsz)
  · obtain ⟨hr, hgrown⟩ := hrest.enough he
    refine .inl ⟨hr, a, le_rfl, hab, ?_⟩
    rw [hgrown.outside a (lt_of_lt_userPages ha) fun hmem ↦ absurd hmem.1 (Nat.not_succ_le_self a),
      hnone]
  · by_cases hc : Clean m' d (a + 1) (pages newsz)
    · obtain ⟨hr, hu⟩ := hrest.clean he hc
      refine .inr ⟨hr, f, hf, fun hmem ↦ ?_⟩
      exact (hu.moves.pool hp).notMem hmem (List.mem_append_right _ List.mem_cons_self)
    · exact (hrest.loses he hc).of_succ hfree

end Rounds

/-- **The loop of `allocuvm`.** -/
theorem spec_allocLoop (hp : Pool L (m.free ++ (m.frames d ++ k)))
    (hnone : ∀ v, a ≤ v → v < userPages → m.entry d v = none)
    (hstart : ptx (pages oldsz) = 0 ∨ m.table d (pdx (pages oldsz)) ≠ none)
    (hnew : newsz < kernbase) (hold : pages oldsz ≤ a) (hn : a + n = pages newsz) :
    Spec E (allocLoop L d oldsz newsz n a) m fun r m' ↦ Outcome m m' d a oldsz newsz r := by
  have hle := pages_le (UInt32.le_of_lt hnew)
  induction n generalizing m k a with
  | zero =>
    obtain rfl : a = pages newsz := hn
    have henough : Enough m d (pages newsz) (pages newsz) := by
      rw [Enough, missing_self, Nat.sub_self]
      exact Nat.zero_le _
    exact spec_pure ⟨fun _ ↦ ⟨rfl, .refl ..⟩, fun he ↦ absurd henough he,
      fun he ↦ absurd henough he⟩
  | succ n ih =>
    have hab : a < pages newsz := by omega
    have ha : a < userPages := by omega
    have hp' : Pool L (m.free ++ (m.tables d ++ (m.userFrames d ++ k))) := by
      rwa [← List.append_assoc (m.tables d)]
    refine spec_bind (spec_kalloc.imp ?_)
    rintro r m' (⟨rfl, rfl, hzero⟩ | ⟨f, rest, rfl, hfree, rfl, hgrants⟩)
    · have hlt : oldsz < newsz := by
        rw [UInt32.lt_iff_toNat_lt]
        simp only [pages, pgsize] at hold hab
        omega
      refine spec_bind ((spec_deallocuvm_all (m := m.denied) hp (UInt32.le_of_lt hnew) hlt
        hstart).imp ?_)
      rintro r m' ⟨-, hu⟩
      refine spec_pure ⟨fun he ↦ ?_, fun _ _ ↦ ⟨rfl, (Moves.of_denied ..).trans hu.moves, hu.table,
        hu.inside, hu.outside, hu.content⟩, fun _ hc ↦ absurd (fun v _ _ hv ↦ ?_) hc⟩
      · rw [Enough] at he
        omega
      · omega
    · have hmem : f ∈ m.free := hfree ▸ List.mem_cons_self
      refine spec_bind (spec_modify (spec_bind ((spec_addPage hp' hfree hgrants
        (lt_of_lt_userPages ha) (hnone a le_rfl ha)).imp ?_)))
      rintro r m' (⟨rfl, rfl, ht, hone⟩ | ⟨rfl, hadds⟩)
      · -- the page `f` is in no list any more
        have hmoves : Moves m ((m.handed rest).filled f (.fill 0)).denied [] [f] :=
          ((Moves.of_handed hfree).trans (.of_filled (List.mem_singleton_self f))).trans
            (.of_denied ..)
        have hs : ∀ g ∈ m.frames d, g ∉ m.free ++ [] := fun g hg hmem ↦
          hp.notMem (List.append_nil m.free ▸ hmem) (List.mem_append_left _ hg)
        obtain ⟨hsame, hframes, hentry, -⟩ := hmoves.frames_eq hs
        have htable := table_congr (hsame d (tables_subset m d (self_mem_tables m d)))
        have hlost : Pool L (((m.handed rest).filled f (.fill 0)).denied.free ++
            (((m.handed rest).filled f (.fill 0)).denied.frames d ++ f :: k)) := by
          rw [hframes]
          exact (hmoves.pool (l := []) hp).perm (List.perm_middle.append_left _)
        have hsub : rest ⊆ m.free := hfree ▸ List.subset_cons_self ..
        rw [← hentry] at hnone
        rw [← htable] at hstart
        exact (ih hlost (fun v hge ↦ hnone v (by omega)) hstart (by omega) (by omega)).imp
          fun r m'' hrest ↦ .lost hab hlost ha (hnone a le_rfl ha) hsub hmem ht hone hrest
      · have hext := hadds.extends hp flags_lt ha (hnone a le_rfl ha)
        refine (ih (hext.moves.pool hp) (fun v hge hlt ↦ ?_) (hstart.imp_right hadds.table_mono)
          (by omega) (by omega)).imp ?_
        · rw [hext.outside v (lt_of_lt_userPages hlt) (by rintro rfl; omega),
            hnone v (by omega) hlt]
        · rintro r m'' hrest
          by_cases ht : m.table d (pdx a) = none
          · exact .new hab hp ha (hnone a le_rfl ha) hadds ht hrest
          · exact .kept hab hp ha hold (hnone a le_rfl ha) hadds ht hrest

/-! ## `growproc` -/

/-- The user pages of the process are those of `[0, sz)`, and the kernel has handed them out. -/
structure Owns (L : Layout) (m : Machine) (p : Process) : Prop where
  pool : Pool L (m.free ++ m.frames p.pgdir)
  size : p.sz ≤ kernbase
  present : ∀ v < userPages, m.entry p.pgdir v ≠ none ↔ v < pages p.sz

/-- The process has grown by `n`: it has the pages of its new size, the new ones are full of zeros,
and those that it has kept are as before. -/
structure GrewBy (m m' : Machine) (p p' : Process) (n : Int32) : Prop where
  pgdir : p'.pgdir = p.pgdir
  size : (p'.sz.toNat : ℤ) = p.sz.toNat + n.toInt
  present : ∀ v < userPages, m'.entry p.pgdir v ≠ none ↔ v < pages p'.sz
  kept : ∀ v < pages p.sz, v < pages p'.sz → m'.entry p.pgdir v = m.entry p.pgdir v ∧
    ∀ f, m.page p.pgdir v = some f → m'.mem f = m.mem f
  zeroed : ∀ v, pages p.sz ≤ v → v < pages p'.sz → ∀ f, m'.page p.pgdir v = some f →
    m'.mem f = .fill 0

/-- The size, the user's pages and the set of free pages are as before. -/
structure Unchanged (m m' : Machine) (p p' : Process) : Prop where
  proc : p' = p
  entry : ∀ v < userPages, m'.entry p.pgdir v = m.entry p.pgdir v
  free : ∀ f, f ∈ m'.free ↔ f ∈ m.free

/-- What `growproc` is meant to do. -/
def AllOrNothing (m m' : Machine) (p : Process) (n : Int32) (r : ℤ × Process) : Prop :=
  (r.1 = 0 ∧ GrewBy m m' p r.2 n) ∨ (r.1 = -1 ∧ Unchanged m m' p r.2)

/-- When `growproc` does it. -/
def GrowOk (m : Machine) (p : Process) (n : Int32) : Prop :=
  (n.toInt = 0) ∨ (n.toInt < 0 ∧ (p.sz = 0 ∨ 0 < p.sz.toNat + n.toInt)) ∨
    (0 < n.toInt ∧ (2 ^ 31 ≤ p.sz.toNat + n.toInt ∨
      Enough m p.pgdir (pages p.sz) (pages (p.sz + n.toUInt32)) ∨
      Clean m p.pgdir (pages p.sz) (pages (p.sz + n.toUInt32))))

section Growproc

variable {p : Process} {i : Int32}

theorem toNat_add_int (sz : UInt32) (i : Int32) :
    ((sz + i.toUInt32).toNat : ℤ) = (sz.toNat + i.toInt) % 2 ^ 32 := by
  have hint : i.toInt = if 2 * i.toUInt32.toNat < 2 ^ 32 then (i.toUInt32.toNat : ℤ)
      else i.toUInt32.toNat - 2 ^ 32 := BitVec.toInt_eq_toNat_cond i.toBitVec
  rw [UInt32.toNat_add, hint]
  split_ifs <;> omega

theorem AllOrNothing.of_zero {q : Process} (h : AllOrNothing m m' p i (0, q)) :
    GrewBy m m' p q i :=
  h.elim And.right fun hr ↦ absurd hr.1 (by decide : (0 : ℤ) ≠ -1)

theorem AllOrNothing.of_neg {q : Process} (h : AllOrNothing m m' p i (-1, q)) :
    Unchanged m m' p q :=
  h.elim (fun hr ↦ absurd hr.1 (by decide : (-1 : ℤ) ≠ 0)) And.right

theorem Unchanged.refl (m : Machine) (p : Process) : Unchanged m m p p :=
  ⟨rfl, fun _ _ ↦ rfl, fun _ ↦ Iff.rfl⟩

theorem Owns.pool' (h : Owns L m p) : Pool L (m.free ++ (m.frames p.pgdir ++ [])) := by
  simpa only [List.append_nil] using h.pool

/-- Where the pages of the process end there is a page table, or a new one starts. -/
theorem Owns.start (h : Owns L m p) :
    ptx (pages p.sz) = 0 ∨ m.table p.pgdir (pdx (pages p.sz)) ≠ none := by
  by_cases hzero : ptx (pages p.sz) = 0
  · exact .inl hzero
  · refine .inr fun hnone ↦ ?_
    have hle := pages_le h.size
    have hpos : 0 < pages p.sz := Nat.pos_of_ne_zero fun h0 ↦ hzero (by rw [h0]; rfl)
    have hpdx : pdx (pages p.sz - 1) = pdx (pages p.sz) := by
      simp only [pdx, ptx, nentries] at hzero ⊢
      omega
    refine (h.present (pages p.sz - 1) (by omega)).mpr (by omega) (entry_of_no_table ?_)
    rw [hpdx, hnone]

theorem Grown.grewBy (h : Owns L m p) (hle : pages p.sz ≤ pages newsz)
    (hnew : pages newsz ≤ userPages) (hsize : (newsz.toNat : ℤ) = p.sz.toNat + i.toInt)
    (hg : Grown m m' p.pgdir (pages p.sz) (pages newsz)) :
    GrewBy m m' p { p with sz := newsz } i := by
  refine ⟨rfl, hsize, fun v hv ↦ ?_, fun v hv _ ↦ ⟨?_, fun f hf ↦ ?_⟩, fun v hge hlt f hf ↦ ?_⟩
  · by_cases hin : pages p.sz ≤ v ∧ v < pages newsz
    · obtain ⟨f, hf, -⟩ := hg.zeroed v hin.1 hin.2
      exact iff_of_true (entry_ne_none hf) hin.2
    · rw [hg.outside v (lt_of_lt_userPages hv) hin, h.present v hv]
      dsimp only
      omega
  · exact hg.outside v (lt_of_lt_userPages (by omega)) fun hmem ↦ absurd hmem.1 (not_le.mpr hv)
  · exact hg.kept f (page_mem_userFrames (by omega) hf)
  · obtain ⟨g, hpage, hzero⟩ := hg.zeroed v hge hlt
    rw [hpage] at hf
    exact Option.some.inj hf ▸ hzero

theorem Unmaps.grewBy (h : Owns L m p) (hle : pages newsz ≤ pages p.sz)
    (hsize : (newsz.toNat : ℤ) = p.sz.toNat + i.toInt)
    (hu : Unmaps m m' p.pgdir (Set.Ico (pages newsz) (pages p.sz))) :
    GrewBy m m' p { p with sz := newsz } i := by
  have hp := pages_le h.size
  have hsame : ∀ v < pages newsz, m'.entry p.pgdir v = m.entry p.pgdir v := fun v hv ↦
    hu.outside v (lt_of_lt_userPages (by omega)) fun hmem ↦ absurd hmem.1 (not_le.mpr hv)
  refine ⟨rfl, hsize, fun v hv ↦ ?_, fun v _ hv ↦ ⟨hsame v hv, fun f hf ↦ ?_⟩,
    fun v hge hlt ↦ absurd (hlt.trans_le hle) (not_lt.mpr hge)⟩
  · by_cases hin : pages newsz ≤ v ∧ v < pages p.sz
    · rw [hu.inside v (lt_of_lt_userPages hv) hin]
      exact iff_of_false (not_not.mpr rfl) (not_lt.mpr hin.1)
    · rw [hu.outside v (lt_of_lt_userPages hv) hin, h.present v hv]
      dsimp only
      omega
  · refine hu.content f (page_mem_userFrames (v := v) (by dsimp only at hv; omega) ?_)
    rw [Machine.page, hsame v hv, ← Machine.page, hf]

theorem Unmaps.unchanged (h : Owns L m p) (hu : Unmaps m m' p.pgdir (Set.Ico (pages p.sz) b)) :
    Unchanged m m' p p := by
  have hentry : ∀ v < userPages, m'.entry p.pgdir v = m.entry p.pgdir v := fun v hv ↦ by
    by_cases hin : v ∈ Set.Ico (pages p.sz) b
    · rw [hu.inside v (lt_of_lt_userPages hv) hin]
      by_contra hne
      exact absurd ((h.present v hv).mp (Ne.symm hne)) (not_lt.mpr hin.1)
    · exact hu.outside v (lt_of_lt_userPages hv) hin
  have hframes : m'.frames p.pgdir = m.frames p.pgdir := by
    have huser : m'.userFrames p.pgdir = m.userFrames p.pgdir := values_congr fun v hv ↦ by
      rw [Machine.page, Machine.page, hentry v hv]
    rw [Machine.frames, Machine.frames, huser, Machine.tables, Machine.tables, hu.table]
  have hperm := hu.moves.perm
  rw [hframes] at hperm
  exact ⟨rfl, hentry, fun f ↦ ((List.perm_append_right_iff _).mp hperm).mem_iff⟩

theorem spec_growproc_pos (h : Owns L m p) (hi : 0 < i.toInt) :
    Spec E (growproc L p i) m fun r m' ↦ (AllOrNothing m m' p i r ↔
      2 ^ 31 ≤ p.sz.toNat + i.toInt ∨ Enough m p.pgdir (pages p.sz) (pages (p.sz + i.toUInt32)) ∨
        Clean m p.pgdir (pages p.sz) (pages (p.sz + i.toUInt32))) := by
  have hsz : p.sz.toNat ≤ 2147483648 := UInt32.le_iff_toNat_le.mp h.size
  have hlt := i.toInt_lt
  have hsize : ((p.sz + i.toUInt32).toNat : ℤ) = p.sz.toNat + i.toInt := by
    rw [toNat_add_int]
    omega
  have hpos : 0 < i ↔ 0 < i.toInt := Int32.lt_iff_toInt_lt
  rw [growproc, if_pos (hpos.mpr hi)]
  generalize p.sz + i.toUInt32 = newsz at hsize ⊢
  have hne : newsz ≠ 0 := by
    rintro rfl
    rw [UInt32.toNat_zero] at hsize
    omega
  refine spec_bind ?_
  rw [allocuvm]
  split_ifs with hkern hback
  · have hbig : 2147483648 ≤ newsz.toNat := UInt32.le_iff_toNat_le.mp hkern
    refine spec_pure ?_
    rw [if_pos rfl]
    exact spec_pure (iff_of_true (.inr ⟨rfl, .refl ..⟩) (.inl (by omega)))
  · have hback' := UInt32.lt_iff_toNat_lt.mp hback
    omega
  · have hnew : newsz < kernbase := UInt32.not_le.mp hkern
    have hsmall : newsz.toNat < 2147483648 := UInt32.lt_iff_toNat_lt.mp hnew
    have hpages : pages p.sz ≤ pages newsz := by
      simp only [pages, pgsize]
      omega
    have hle := pages_le (UInt32.le_of_lt hnew)
    have hfresh : ∀ v, pages p.sz ≤ v → v < userPages → m.entry p.pgdir v = none := by
      intro v hge hv
      by_contra hsome
      exact absurd ((h.present v hv).mp hsome) (not_lt.mpr hge)
    rw [toNat_pgroundup h.size, Nat.mul_div_cancel _ (by decide : 0 < pgsize)]
    refine (spec_allocLoop h.pool' hfresh h.start hnew le_rfl (by omega)).imp ?_
    intro r m' hout
    rw [or_iff_right (by omega : ¬2 ^ 31 ≤ (p.sz.toNat : ℤ) + i.toInt)]
    by_cases he : Enough m p.pgdir (pages p.sz) (pages newsz)
    · obtain ⟨rfl, hg⟩ := hout.enough he
      rw [if_neg hne]
      exact spec_pure (iff_of_true (.inl ⟨rfl, hg.grewBy h hpages hle hsize⟩) (.inl he))
    by_cases hc : Clean m p.pgdir (pages p.sz) (pages newsz)
    · obtain ⟨rfl, hu⟩ := hout.clean he hc
      rw [if_pos rfl]
      exact spec_pure (iff_of_true (.inr ⟨rfl, hu.unchanged h⟩) (.inr hc))
    · have hnot : ¬(Enough m p.pgdir (pages p.sz) (pages newsz) ∨
          Clean m p.pgdir (pages p.sz) (pages newsz)) := not_or.mpr ⟨he, hc⟩
      rcases hout.loses he hc with ⟨rfl, v, -, hv, hmiss⟩ | ⟨rfl, f, hf, hf'⟩
      · rw [if_neg hne]
        exact spec_pure (iff_of_false (fun hall ↦
          (hall.of_zero.present v (by omega)).mpr hv hmiss) hnot)
      · rw [if_pos rfl]
        exact spec_pure (iff_of_false (fun hall ↦ hf' ((hall.of_neg.free f).mpr hf)) hnot)

theorem spec_growproc_neg (h : Owns L m p) (hi : i.toInt < 0) :
    Spec E (growproc L p i) m fun r m' ↦ (AllOrNothing m m' p i r ↔
      p.sz = 0 ∨ 0 < p.sz.toNat + i.toInt) := by
  have hsz : p.sz.toNat ≤ 2147483648 := UInt32.le_iff_toNat_le.mp h.size
  have hge := i.le_toInt
  have hsize := toNat_add_int p.sz i
  have hpos : 0 < i ↔ 0 < i.toInt := Int32.lt_iff_toInt_lt
  have hneg : i < 0 ↔ i.toInt < 0 := Int32.lt_iff_toInt_lt
  rw [growproc, if_neg (mt hpos.mp (not_lt.mpr hi.le)), if_pos (hneg.mpr hi)]
  generalize p.sz + i.toUInt32 = newsz at hsize ⊢
  have hzero : p.sz = 0 ↔ p.sz.toNat = 0 := UInt32.toNat_inj.symm
  by_cases hlt : newsz < p.sz
  · have hlt' := UInt32.lt_iff_toNat_lt.mp hlt
    have hsize' : (newsz.toNat : ℤ) = p.sz.toNat + i.toInt := by omega
    have hpages : pages newsz ≤ pages p.sz := by
      simp only [pages, pgsize]
      omega
    have hle := pages_le h.size
    have hstart : ptx (pages newsz) = 0 ∨ m.table p.pgdir (pdx (pages newsz)) ≠ none := by
      rcases Nat.eq_or_lt_of_le hpages with heq | hmore
      · exact heq ▸ h.start
      · exact .inr (mt entry_of_no_table ((h.present _ (by omega)).mpr hmore))
    refine spec_bind ((spec_deallocuvm_all h.pool' h.size hlt hstart).imp ?_)
    rintro r m' ⟨rfl, hu⟩
    by_cases hr : r = 0
    · rw [if_pos hr]
      rw [hr, UInt32.toNat_zero] at hlt' hsize'
      have hfirst : 0 < pages p.sz := by
        simp only [pages, pgsize]
        omega
      refine spec_pure (iff_of_false (fun hall ↦ ?_)
        (not_or.mpr ⟨mt hzero.mp (by omega), by omega⟩))
      refine (h.present 0 (by decide)).mpr hfirst ?_
      rw [← hall.of_neg.entry 0 (by decide), hu.inside 0 (by decide)]
      rw [hr]
      exact ⟨Nat.zero_le _, hfirst⟩
    · rw [if_neg hr]
      have hr' : r.toNat ≠ 0 := fun h0 ↦ hr (UInt32.toNat_inj.mp h0)
      exact spec_pure (iff_of_true (.inl ⟨rfl, hu.grewBy h hpages hsize'⟩) (.inr (by omega)))
  · have hge' := UInt32.le_iff_toNat_le.mp (UInt32.not_lt.mp hlt)
    rw [deallocuvm, if_pos (UInt32.not_lt.mp hlt)]
    refine spec_bind (spec_pure ?_)
    by_cases hr : p.sz = 0
    · rw [if_pos hr]
      exact spec_pure (iff_of_true (.inr ⟨rfl, .refl ..⟩) (.inl hr))
    · rw [if_neg hr]
      refine spec_pure (iff_of_false (fun hall ↦ ?_) (not_or.mpr ⟨hr, by omega⟩))
      have hsame := hall.of_zero.size
      dsimp only at hsame
      omega

theorem spec_growproc_zero (h : Owns L m p) (hi : i.toInt = 0) :
    Spec E (growproc L p i) m fun r m' ↦ AllOrNothing m m' p i r := by
  have hpos : 0 < i ↔ 0 < i.toInt := Int32.lt_iff_toInt_lt
  have hneg : i < 0 ↔ i.toInt < 0 := Int32.lt_iff_toInt_lt
  rw [growproc, if_neg (mt hpos.mp (by omega)), if_neg (mt hneg.mp (by omega))]
  refine spec_pure (.inl ⟨rfl, rfl, by dsimp only; omega, h.present,
    fun _ _ _ ↦ ⟨rfl, fun _ _ ↦ rfl⟩, fun v hge hlt ↦ absurd hlt (not_lt.mpr hge)⟩)

/-- **`growproc` is all or nothing** if and only if `GrowOk`. -/
theorem growproc_allOrNothing_iff (h : Owns L m p) :
    (∃ r, (growproc L p i m).val = .ok r ∧
      AllOrNothing m (growproc L p i m).state p i r) ↔ GrowOk m p i := by
  have hspec : Spec (fun _ ↦ False) (growproc L p i) m fun r m' ↦
      (AllOrNothing m m' p i r ↔ GrowOk m p i) := by
    rcases lt_trichotomy i.toInt 0 with hi | hi | hi
    · refine (spec_growproc_neg h hi).imp fun r m' hiff ↦ hiff.trans
        ⟨fun hok ↦ .inr (.inl ⟨hi, hok⟩), ?_⟩
      rintro (hzero | ⟨-, hok⟩ | ⟨hpos, -⟩)
      · exact absurd hzero hi.ne
      · exact hok
      · exact absurd hi (not_lt.mpr hpos.le)
    · exact (spec_growproc_zero h hi).imp fun r m' hall ↦ iff_of_true hall (.inl hi)
    · refine (spec_growproc_pos h hi).imp fun r m' hiff ↦ hiff.trans
        ⟨fun hok ↦ .inr (.inr ⟨hi, hok⟩), ?_⟩
      rintro (hzero | ⟨hneg, -⟩ | ⟨-, hok⟩)
      · exact absurd hzero hi.ne'
      · exact absurd hi (not_lt.mpr hneg.le)
      · exact hok
  obtain ⟨r, hr, hiff⟩ := hspec.exists_ok
  constructor
  · rintro ⟨r', hr', hall⟩
    rw [hr] at hr'
    exact hiff.mp (Except.ok.inj hr' ▸ hall)
  · exact fun hok ↦ ⟨r, hr, hiff.mpr hok⟩

end Growproc

theorem pool_four : Pool smallKernel ([310] ++ [301, 300, 302]) := ⟨by decide, by decide⟩

theorem owns_onePage : Owns smallKernel (onePage [310] 0) ⟨4096, 300⟩ := by
  refine ⟨pool_onePage pool_four (by decide) (by decide), by decide, fun v hv ↦ ?_⟩
  have hone : pages 4096 = 1 := by decide
  rw [entry_onePage pool_four (by decide) (lt_of_lt_userPages hv)]
  dsimp only
  rw [hone]
  by_cases hzero : v = 0
  · rw [hzero, Function.update_self]
    exact iff_of_true (Option.some_ne_none _) Nat.one_pos
  · rw [Function.update_of_ne hzero]
    exact iff_of_false (not_not.mpr rfl) (by omega)

/-- A process with one page grows by a page. -/
theorem growproc_onePage :
    ∃ r, (growproc smallKernel ⟨4096, 300⟩ 4096 (onePage [310] 0)).val = .ok r ∧
      AllOrNothing (onePage [310] 0)
        (growproc smallKernel ⟨4096, 300⟩ 4096 (onePage [310] 0)).state ⟨4096, 300⟩ 4096 r := by
  refine (growproc_allOrNothing_iff owns_onePage).mpr (.inr (.inr ⟨by decide, .inr (.inr ?_)⟩))
  intro v hge hlt _
  obtain rfl : v = 1 := Nat.le_antisymm (Nat.le_of_lt_succ hlt) hge
  exact table_onePage (v := 0) pool_four (by decide)

/-- A process gives back all its memory, and `growproc` reports a failure. -/
theorem not_growproc_allOrNothing :
    ¬∃ r, (growproc smallKernel ⟨4096, 300⟩ (-4096) (onePage [310] 0)).val = .ok r ∧
      AllOrNothing (onePage [310] 0)
        (growproc smallKernel ⟨4096, 300⟩ (-4096) (onePage [310] 0)).state ⟨4096, 300⟩ (-4096)
        r := by
  rintro ⟨r, hr, hall⟩
  have hspec : Spec (fun _ ↦ False) (growproc smallKernel ⟨4096, 300⟩ (-4096))
      (onePage [310] 0) _ := spec_growproc_neg owns_onePage (by decide)
  exact absurd ((hspec.of_ok hr).mp hall) (by decide)

end SistemasOperacionais.Xv6.Vm
