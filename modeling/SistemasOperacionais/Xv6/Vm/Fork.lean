import SistemasOperacionais.Xv6.Vm.Extend
import SistemasOperacionais.Xv6.Vm.Kernel

/-!
# Copying an address space

`copyuvm` takes every page it writes to from the free list, so the parent's pages stay as they are,
and a page that has been copied is not written to again. With enough pages it succeeds.
-/

namespace SistemasOperacionais.Xv6.Vm

open Foundations Prog

variable {L : Layout} {E : Fault → Prop} {m m' m'' : Machine} {s d f : Frame}
  {k : List Frame} {i n v : ℕ}

/-- The page `v` of `d` in `m'` is a copy of that of `s` in `m`, with the same flags. -/
def CopiesPage (m m' : Machine) (s d : Frame) (v : ℕ) : Prop :=
  ∃ e e', m.entry s v = some e ∧ m'.entry d v = some e' ∧ pteFlags e' = pteFlags e ∧
    m'.mem (pteAddr e') = m.mem (pteAddr e)

/-- The loop of `copyuvm` has copied the pages from `i` to `j`. -/
structure Copies (m m' : Machine) (s d : Frame) (i j : ℕ) : Prop extends
    Extends m m' d (Set.Ico i j) where
  copied : ∀ v, i ≤ v → v < j → CopiesPage m m' s d v

theorem copiesPage_of_adds {e : UInt32} (hp : Pool L (m.free ++ (m.tables d ++ k)))
    (he : m.entry s i = some e) (h : Adds m m' d i f (pteFlags e) (m.mem (pteAddr e)))
    (hi : i < 2 ^ 20) : CopiesPage m m' s d i := by
  have hf : f < 2 ^ 20 := hp.lt (List.mem_append_left _ h.fresh)
  obtain ⟨-, -, -, hpresent⟩ := exists_table_of_entry he
  refine ⟨e, mkPte f (pteFlags e), he, ?_, ?_, ?_⟩
  · rw [h.entry i hi, Function.update_self]
  · rw [pteFlags_mkPte hf (pteFlags_lt e), pteFlags_or_present hpresent]
  · rw [pteAddr_mkPte hf (pteFlags_lt e), h.content]

theorem CopiesPage.later {S : Set ℕ} (h : CopiesPage m m' s d v) (hext : Extends m' m'' d S)
    (hv : v < userPages) (hS : v ∉ S) : CopiesPage m m'' s d v := by
  obtain ⟨e, e', he, he', hflags, hmem⟩ := h
  refine ⟨e, e', he, ?_, hflags, ?_⟩
  · rw [hext.outside v (lt_of_lt_userPages hv) hS, he']
  · rw [hext.kept _ (page_mem_userFrames hv (page_of_entry he')), hmem]

theorem CopiesPage.earlier (h : CopiesPage m' m'' s d v) (hentry : m'.entry s = m.entry s)
    (hmem : ∀ f ∈ m.frames s, m'.mem f = m.mem f) (hv : v < userPages) :
    CopiesPage m m'' s d v := by
  obtain ⟨e, e', he, he', hflags, hcopy⟩ := h
  rw [hentry] at he
  refine ⟨e, e', he, he', hflags, ?_⟩
  rw [hcopy, hmem _ (userFrames_subset m s (page_mem_userFrames hv (page_of_entry he)))]

/-- **The loop of `copyuvm`** copies the pages, or there is no page left. -/
theorem spec_copyLoop (hp : Pool L (m.free ++ (m.frames d ++ k)))
    (hs : ∀ f ∈ m.frames s, f ∉ m.free ++ m.frames d)
    (hall : ∀ v, i ≤ v → v < i + n → m.entry s v ≠ none)
    (hnone : ∀ v, i ≤ v → v < userPages → m.entry d v = none) (hn : i + n ≤ userPages) :
    Spec E (copyLoop s d n i) m fun r m' ↦ (r = false ∧ m.grants < 2 * n) ∨
      (r = true ∧ Copies m m' s d i (i + n)) := by
  induction n generalizing m i with
  | zero =>
    refine spec_pure (.inr ⟨rfl, .refl .., fun v hge hlt ↦ ?_⟩)
    omega
  | succ n ih =>
    have hi : i < userPages := by omega
    obtain ⟨e, he⟩ := Option.ne_none_iff_exists'.mp (hall i le_rfl (by omega))
    obtain ⟨t, ht, hword, hpresent⟩ := exists_table_of_entry he
    have hp' : Pool L (m.free ++ (m.tables d ++ (m.userFrames d ++ k))) := by
      rwa [← List.append_assoc (m.tables d)]
    refine spec_bind (spec_lookup ?_)
    rw [ht]
    refine spec_bind (spec_get ?_)
    dsimp only
    rw [hword, if_pos hpresent]
    refine spec_bind (spec_kalloc.imp ?_)
    rintro r m' (⟨rfl, rfl, hzero⟩ | ⟨f, rest, rfl, hfree, rfl, hgrants⟩)
    · exact spec_pure (.inl ⟨rfl, by omega⟩)
    · refine spec_bind (spec_modify (spec_bind ((spec_addPage hp' hfree hgrants
        (lt_of_lt_userPages hi) (hnone i le_rfl hi)).imp ?_)))
      rintro r m' (⟨rfl, rfl, -, hone⟩ | ⟨rfl, hadds⟩)
      · exact spec_pure (.inl ⟨rfl, by omega⟩)
      · have hext := hadds.extends hp (pteFlags_lt e) hi (hnone i le_rfl hi)
        obtain ⟨hmem, -, hentry, hs'⟩ := hext.moves.frames_eq hs
        rw [if_pos rfl]
        refine (ih (hext.moves.pool hp) hs' (fun v hge hlt ↦ ?_) (fun v hge hlt ↦ ?_)
          (by omega)).imp ?_
        · rw [hentry]
          exact hall v (by omega) (by omega)
        · rw [hext.outside v (lt_of_lt_userPages hlt) (by rintro rfl; omega),
            hnone v (by omega) hlt]
        · rintro r m'' (⟨rfl, hfew⟩ | ⟨rfl, hrest⟩)
          · have hgrants := hadds.grants_le
            exact .inl ⟨rfl, by omega⟩
          · refine .inr ⟨rfl, (hext.trans hrest.toExtends).subset ?_, fun v hge hlt ↦ ?_⟩
            · rintro v (rfl | ⟨hge, hlt⟩)
              · exact ⟨le_rfl, by omega⟩
              · exact ⟨by omega, by omega⟩
            · rcases Nat.eq_or_lt_of_le hge with rfl | hgt
              · exact (copiesPage_of_adds hp' he hadds (lt_of_lt_userPages hi)).later
                  hrest.toExtends hi fun hmem ↦ absurd hmem.1 (Nat.not_succ_le_self i)
              · exact (hrest.copied v hgt (by omega)).earlier hentry hmem (by omega)

/-- `copyuvm(s, sz)` has made the address space `d`. -/
structure IsCopy (L : Layout) (m m' : Machine) (s d : Frame) (sz : UInt32) : Prop where
  user : ∀ v < userPages, m'.entry d v ≠ none ↔ v < pages sz
  copied : ∀ v < pages sz, CopiesPage m m' s d v
  fresh : ∀ v < pages sz, ∀ f, m'.page d v = some f → f ∈ m.free ∧ f ∉ m'.free ∧ f ∉ m.frames s
  distinct : ∀ v < pages sz, ∀ w < pages sz, m'.page d v = m'.page d w → v = w
  kernel : ∀ v, userPages ≤ v → v < 2 ^ 20 → m'.entry d v = kernelEntry L v
  parent : ∀ f ∈ m.frames s, m'.mem f = m.mem f

theorem NewSpace.userFrames_eq (h : NewSpace L m m' d) : m'.userFrames d = [] :=
  values_eq_nil fun v hv ↦ page_of_no_entry <| by
    rw [h.entry v (lt_of_lt_userPages hv), kernelEntry_of_lt hv]

theorem isCopy {sz : UInt32} (hp : Pool L m.free) (hs : ∀ f ∈ m.frames s, f ∉ m.free)
    (hsz : pages sz ≤ userPages) (hnew : NewSpace L m m' d)
    (hcopies : Copies m' m'' s d 0 (pages sz)) : IsCopy L m m'' s d sz := by
  have hs' : ∀ f ∈ m.frames s, f ∉ m.free ++ [] := by simpa only [List.append_nil] using hs
  obtain ⟨hmem, -, hentry, -⟩ := hnew.moves.frames_eq hs'
  have hmoves : Moves m m'' [] (m''.frames d) := by
    refine Moves.trans ?_ hcopies.moves
    rw [Machine.frames, hnew.userFrames_eq, List.append_nil]
    exact hnew.moves
  have hpool : Pool L (m''.free ++ m''.frames d) := by
    refine hp.perm (hmoves.perm.trans ?_)
    rw [List.append_nil]
  have hcopied : ∀ v < pages sz, CopiesPage m m'' s d v := fun v hv ↦
    (hcopies.copied v (Nat.zero_le v) hv).earlier hentry hmem (hv.trans_le hsz)
  have hrest : ∀ v < 2 ^ 20, pages sz ≤ v → m''.entry d v = kernelEntry L v := fun v hv hge ↦ by
    rw [hcopies.outside v hv fun hmem ↦ absurd hmem.2 (not_lt.mpr hge), hnew.entry v hv]
  refine ⟨fun v hv ↦ ⟨fun hne ↦ ?_, fun hlt ↦ ?_⟩, hcopied, fun v hv f hpage ↦ ?_,
    fun v hv w hw heq ↦ ?_, fun v hge hlt ↦ hrest v hlt (hsz.trans hge),
    (hmoves.frames_eq hs').1⟩
  · refine not_le.mp fun hge ↦ hne ?_
    rw [hrest v (lt_of_lt_userPages hv) hge, kernelEntry_of_lt hv]
  · obtain ⟨-, e', -, he', -⟩ := hcopied v hlt
    rw [he']
    exact Option.some_ne_none e'
  · have hf := userFrames_subset m'' d (page_mem_userFrames (hv.trans_le hsz) hpage)
    have hfree : f ∈ m.free := by
      have hmem' := hmoves.perm.mem_iff.mp (List.mem_append_right _ hf)
      rwa [List.append_nil] at hmem'
    exact ⟨hfree, fun hf' ↦ hpool.notMem hf' hf, fun hf' ↦ hs f hf' hfree⟩
  · obtain ⟨-, e', -, he', -⟩ := hcopied v hv
    have hpage := page_of_entry he'
    exact place_unique hpool.right.nodup.of_append_right (hv.trans_le hsz) (hw.trans_le hsz) hpage
      (heq ▸ hpage)

/-- **`copyuvm`** makes a copy, or there are not enough pages. -/
theorem spec_copyuvm {sz : UInt32} (hp : Pool L m.free) (hs : ∀ f ∈ m.frames s, f ∉ m.free)
    (hsz : sz < kernbase) (hall : ∀ v < pages sz, m.entry s v ≠ none)
    (hE : m.grants < 514 + 2 * pages sz → ∀ e, E e) :
    Spec E (copyuvm L s sz) m fun r m' ↦ (r = none ∧ m.grants < 514 + 2 * pages sz) ∨
      ∃ d, r = some d ∧ IsCopy L m m' s d sz := by
  have hle : pages sz ≤ userPages := pages_le (UInt32.le_of_lt hsz)
  have hs' : ∀ f ∈ m.frames s, f ∉ m.free ++ [] := by simpa only [List.append_nil] using hs
  have hp' : Pool L (m.free ++ ([] ++ [])) := by simpa only [List.append_nil] using hp
  refine spec_bind ((spec_setupkvm hp').imp ?_)
  rintro r m' (⟨rfl, hfew⟩ | ⟨d, rfl, hnew⟩)
  · exact spec_pure (.inl ⟨rfl, by omega⟩)
  · have hframes : m'.frames d = m'.tables d := by
      rw [Machine.frames, hnew.userFrames_eq, List.append_nil]
    obtain ⟨-, -, hentry, hparent⟩ := hnew.moves.frames_eq hs'
    have hpool := hnew.moves.pool hp'
    have hgrants := hnew.grants
    rw [← hframes] at hparent hpool
    refine spec_bind ((spec_copyLoop hpool hparent (fun v _ hlt ↦ ?_) (fun v _ hlt ↦ ?_)
      (by omega)).imp ?_)
    · rw [hentry]
      exact hall v (by omega)
    · rw [hnew.entry v (lt_of_lt_userPages hlt), kernelEntry_of_lt hlt]
    · rintro r m'' (⟨rfl, hfew⟩ | ⟨rfl, hcopies⟩)
      · have hfew' : m.grants < 514 + 2 * pages sz := by omega
        rw [if_neg Bool.false_ne_true]
        exact spec_bind (spec_any (hE hfew') fun _ _ ↦ spec_pure (.inl ⟨rfl, hfew'⟩))
      · rw [if_pos rfl]
        rw [Nat.zero_add] at hcopies
        exact spec_pure (.inr ⟨d, rfl, isCopy hp hs hle hnew hcopies⟩)

/-- **`fork` copies memory and isolates it.** -/
theorem copyuvm_isCopy {sz : UInt32} (hp : Pool L m.free) (hs : ∀ f ∈ m.frames s, f ∉ m.free)
    (hsz : sz < kernbase) (hall : ∀ v < pages sz, m.entry s v ≠ none)
    (h : (copyuvm L s sz m).val = .ok (some d)) :
    IsCopy L m (copyuvm L s sz m).state s d sz := by
  have hspec : Spec (fun _ ↦ True) (copyuvm L s sz) m _ :=
    spec_copyuvm hp hs hsz hall fun _ _ ↦ trivial
  obtain ⟨d', hd, hcopy⟩ := (hspec.of_ok h).resolve_left fun hnone ↦
    absurd hnone.1 (Option.some_ne_none d)
  exact Option.some.inj hd ▸ hcopy

theorem pool_range : Pool smallKernel (List.range' 1000 600 ++ [301, 300, 302]) := by
  have hmem : ∀ f ∈ List.range' 1000 600, 1000 ≤ f ∧ f < 1600 := fun f hf ↦
    List.mem_range'_1.mp hf
  refine ⟨List.nodup_append.mpr ⟨List.nodup_range', by decide, fun f hf g hg ↦ ?_⟩, fun f hf ↦ ?_⟩
  · have hlow : ∀ g ∈ [301, 300, 302], g < 1000 := by decide
    exact ((hlow g hg).trans_le (hmem f hf).1).ne'
  · rcases List.mem_append.mp hf with hf | hf
    · exact ⟨le_trans (by decide) (hmem f hf).1, (hmem f hf).2.trans (by decide)⟩
    · exact pool_small.range f hf

/-- A process with one page is copied. -/
theorem copyuvm_onePage :
    ∃ d, (copyuvm smallKernel 300 4096 (onePage (List.range' 1000 600) 0)).val = .ok (some d) ∧
      IsCopy smallKernel (onePage (List.range' 1000 600) 0)
        (copyuvm smallKernel 300 4096 (onePage (List.range' 1000 600) 0)).state 300 d 4096 := by
  have hpool := pool_onePage (v := 0) pool_range (by decide) (by decide)
  have hs : ∀ f ∈ (onePage (List.range' 1000 600) 0).frames 300,
      f ∉ (onePage (List.range' 1000 600) 0).free := fun f hf hfree ↦ hpool.notMem hfree hf
  have hall : ∀ v < pages 4096, (onePage (List.range' 1000 600) 0).entry 300 v ≠ none := by
    intro v hv
    obtain rfl : v = 0 := Nat.lt_one_iff.mp hv
    rw [entry_onePage pool_range (by decide) (by decide), Function.update_self]
    exact Option.some_ne_none _
  have hgrants : ¬(onePage (List.range' 1000 600) 0).grants < 514 + 2 * pages 4096 := by
    rw [grants_onePage, List.length_range']
    decide
  have hspec : Spec (fun _ ↦ False)
      (copyuvm smallKernel 300 4096) (onePage (List.range' 1000 600) 0) _ :=
    spec_copyuvm hpool.left hs (by decide) hall fun h ↦ absurd h hgrants
  obtain ⟨r, hr, hdone⟩ := hspec.exists_ok
  obtain ⟨d, rfl, -⟩ := hdone.resolve_left fun h ↦ hgrants h.2
  exact ⟨d, hr, copyuvm_isCopy hpool.left hs (by decide) hall hr⟩

end SistemasOperacionais.Xv6.Vm
