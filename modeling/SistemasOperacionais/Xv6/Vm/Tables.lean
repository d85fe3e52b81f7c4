import SistemasOperacionais.Xv6.Vm.Spaces

/-!
# Pages and page tables, one call at a time

What `kalloc`, `kfree`, `walkpgdir` and one round of `mappages` do. How often `kalloc` succeeds
before it fails for the first time (`grants`) is known from the state: each success takes one away.
-/

namespace SistemasOperacionais.Xv6.Vm

open Foundations Prog

variable {L : Layout} {E : Fault → Prop} {m m' m'' : Machine} {d f t : Frame}
  {k l : List Frame} {v : ℕ} {perm : UInt32}

/-! ## Pages -/

/-- The number of calls that succeed before the first one that fails, with `n` free pages. -/
def granted : List Bool → ℕ → ℕ
  | [], n => n
  | _ :: _, 0 => 0
  | true :: _, _ + 1 => 0
  | false :: deny, n + 1 => granted deny n + 1

def Machine.grants (m : Machine) : ℕ := granted m.deny m.free.length

section Kalloc

theorem grants_of_denied (h : m.deny.headD false = true ∨ m.free = []) : m.grants = 0 := by
  rw [Machine.grants]
  rcases h with h | h
  · cases hd : m.deny with
    | nil =>
      rw [hd] at h
      cases h
    | cons b deny =>
      obtain rfl : b = true := by simpa only [hd, List.headD_cons] using h
      cases m.free.length <;> rfl
  · rw [h, List.length_nil]
    cases m.deny <;> rfl

theorem grants_handed {rest : List Frame} (h : m.deny.headD false = false)
    (hfree : m.free = f :: rest) : (m.handed rest).grants + 1 = m.grants := by
  rw [Machine.grants, Machine.grants, hfree, Machine.handed, List.length_cons]
  cases hd : m.deny with
  | nil => rfl
  | cons b deny =>
    obtain rfl : b = false := by simpa only [hd, List.headD_cons] using h
    rfl

theorem spec_kalloc : Spec E kalloc m fun r m' ↦ (r = none ∧ m' = m.denied ∧ m.grants = 0) ∨
    ∃ f rest, r = some f ∧ m.free = f :: rest ∧ m' = m.handed rest ∧
      (m.handed rest).grants + 1 = m.grants := by
  refine spec_bind (spec_get ?_)
  split_ifs with hdeny
  · exact spec_bind (spec_set (spec_pure (.inl ⟨rfl, rfl, grants_of_denied (.inl hdeny)⟩)))
  · split
    · rename_i hfree
      exact spec_bind (spec_set (spec_pure (.inl ⟨rfl, rfl, grants_of_denied (.inr hfree)⟩)))
    · rename_i r rest hfree
      exact spec_bind (spec_set (spec_pure (.inr ⟨r, rest, rfl, hfree, rfl,
        grants_handed (Bool.not_eq_true _ ▸ hdeny) hfree⟩)))

end Kalloc

theorem spec_kfree {Q : Unit → Machine → Prop} (hE : ¬Freeable L f → E (.panic "kfree"))
    (h : Freeable L f → Q () (m.freed f)) : Spec E (kfree L f) m Q := by
  rw [kfree]
  split_ifs with hbad
  · refine spec_stop (hE fun hok ↦ ?_)
    rcases hbad with hbad | hbad
    · exact absurd hok.1 (not_le.mpr hbad)
    · exact absurd hok.2 (not_lt.mpr hbad)
  · exact spec_modify (h ⟨not_lt.mp fun h ↦ hbad (.inl h), not_le.mp fun h ↦ hbad (.inr h)⟩)

/-! ## Page tables -/

theorem spec_lookup {Q : Option Frame → Machine → Prop} (h : Q (m.table d (pdx v)) m) :
    Spec E (walkpgdir d v false) m Q := by
  rw [Machine.table] at h
  refine spec_bind (spec_get ?_)
  split_ifs with hpde halloc
  · rw [if_pos hpde] at h
    exact spec_pure h
  · exact halloc.elim
  · rw [if_neg hpde] at h
    exact spec_pure h

/-- The directory has the page table `t` for the page `v`, and it may be new. -/
structure Walked (m m' : Machine) (d : Frame) (v : ℕ) (t : Frame) : Prop where
  table : m'.table d (pdx v) = some t
  others : ∀ i ≠ pdx v, m'.table d i = m.table d i
  entry : m'.entry d = m.entry d
  moves : Moves m m' (m.tables d) (m'.tables d)
  free : m'.free ⊆ m.free
  kept : (m.table d (pdx v)).isSome → m' = m
  new : m.table d (pdx v) = none → t ∈ m.free ∧ m'.grants + 1 = m.grants

theorem tables_nodup (hp : Pool L (m.free ++ (m.tables d ++ k))) : (m.tables d).Nodup :=
  hp.right.left.nodup

theorem walked_of_handed {rest : List Frame} (hp : Pool L (m.free ++ (m.tables d ++ k)))
    (hfree : m.free = t :: rest) (hgrants : (m.handed rest).grants + 1 = m.grants)
    (hnone : m.table d (pdx v) = none) :
    Walked m ((m.handed rest).withTable d (pdx v) t) d v t := by
  have hmem : t ∈ m.free := hfree ▸ List.mem_cons_self
  have hnew : t ∉ m.tables d := fun h ↦ hp.notMem hmem (List.mem_append_left _ h)
  have hne : d ≠ t := fun h ↦ hnew (h ▸ self_mem_tables m d)
  have ht : t < 2 ^ 20 := hp.lt (List.mem_append_left _ hmem)
  have htable : ((m.handed rest).withTable d (pdx v) t).table d =
      Function.update (m.table d) (pdx v) (some t) :=
    table_withTable (m := m.handed rest) (pdx_lt v) ht hne
  have hn : (m.tables d).Nodup := tables_nodup hp
  have hmoves : Moves m (m.handed rest) (m.tables d) (t :: m.tables d) :=
    (Moves.of_handed hfree).frame (m.tables d)
  refine ⟨?_, fun i hi ↦ ?_, ?_, ?_, ?_, fun h ↦ ?_, fun _ ↦ ⟨hmem, hgrants⟩⟩
  · rw [htable, Function.update_self]
  · rw [htable, Function.update_of_ne hi]
  · exact entry_withTable (m := m.handed rest) hn (pdx_lt v) ht hnone hnew
  · have hperm : (((m.handed rest).withTable d (pdx v) t).tables d).Perm (t :: m.tables d) :=
      tables_withTable (m := m.handed rest) (pdx_lt v) ht hnone hnew
    exact (hmoves.trans ((Moves.of_filled List.mem_cons_self).trans (.of_filled
      (List.mem_cons_of_mem _ (self_mem_tables m d))))).congr (.refl _) hperm
  · rw [hfree]
    exact List.subset_cons_self ..
  · rw [hnone] at h
    cases h

/-- **`walkpgdir`** with `alloc` finds a page table, or makes one, or fails without having changed
anything. -/
theorem spec_walkpgdir (hp : Pool L (m.free ++ (m.tables d ++ k))) :
    Spec E (walkpgdir d v true) m fun r m' ↦
      (r = none ∧ m' = m.denied ∧ m.table d (pdx v) = none ∧ m.grants = 0) ∨
      ∃ t, r = some t ∧ Walked m m' d v t := by
  refine spec_bind (spec_get ?_)
  rw [if_pos (rfl : true = true)]
  split_ifs with hpde
  · have htable : m.table d (pdx v) = some (pteAddr (m.word d (pdx v))) := if_pos hpde
    refine spec_pure (.inr ⟨_, rfl, htable, fun _ _ ↦ rfl, rfl, .refl .., List.Subset.refl _,
      fun _ ↦ rfl, fun h ↦ ?_⟩)
    rw [htable] at h
    cases h
  · have hnone : m.table d (pdx v) = none := if_neg hpde
    refine spec_bind (spec_kalloc.imp ?_)
    rintro r m' (⟨rfl, rfl, hgrants⟩ | ⟨t, rest, rfl, hfree, rfl, hgrants⟩)
    · exact spec_pure (.inl ⟨rfl, rfl, hnone, hgrants⟩)
    · exact spec_bind (spec_modify (spec_bind (spec_modify (spec_pure
        (.inr ⟨t, rfl, walked_of_handed hp hfree hgrants hnone⟩)))))

/-- The page `v` has been mapped, with the entry `e`. -/
structure Mapped (m m' : Machine) (d : Frame) (v : ℕ) (e : UInt32) : Prop where
  moves : Moves m m' (m.tables d) (m'.tables d)
  entry : ∀ v' < 2 ^ 20, m'.entry d v' = Function.update (m.entry d) v (some e) v'
  others : ∀ i ≠ pdx v, m'.table d i = m.table d i
  free : m'.free ⊆ m.free
  kept : (m.table d (pdx v)).isSome → m'.table d = m.table d ∧ m'.grants = m.grants
  new : m.table d (pdx v) = none →
    (∃ t ∈ m.free, m'.table d (pdx v) = some t) ∧ m'.grants + 1 = m.grants

theorem Walked.mapped {e : UInt32} (h : Walked m m' d v t) (hv : v < 2 ^ 20)
    (hp : Pool L (m.free ++ (m.tables d ++ k))) (he : present e = true) :
    Mapped m (m'.stored t (ptx v) e) d v e := by
  have hn : (m'.tables d).Nodup := tables_nodup (h.moves.pool hp)
  have htable : (m'.stored t (ptx v) e).table d = m'.table d := table_stored hn (pdx_lt v) h.table
  refine ⟨?_, fun v' hv' ↦ ?_, fun i hi ↦ ?_, h.free, fun hsome ↦ ⟨?_, ?_⟩, fun hnone ↦ ?_⟩
  · rw [tables_stored hn (pdx_lt v) h.table]
    exact h.moves.trans (.of_filled (table_mem_tables (pdx_lt v) h.table))
  · rw [entry_stored hn hv h.table hv', if_pos he, h.entry]
  · rw [htable, h.others i hi]
  · rw [htable, h.kept hsome]
  · change m'.grants = m.grants
    rw [h.kept hsome]
  · obtain ⟨ht, hgrants⟩ := h.new hnone
    exact ⟨⟨t, ht, by rw [htable, h.table]⟩, hgrants⟩

/-- **One round of `mappages`** maps a page that has not been mapped, or fails without having
changed anything. -/
theorem spec_mapPage {pa : Frame} (hp : Pool L (m.free ++ (m.tables d ++ k))) (hv : v < 2 ^ 20)
    (hnone : m.entry d v = none) :
    Spec E (mapPage d perm v pa) m fun r m' ↦
      (r = false ∧ m' = m.denied ∧ m.table d (pdx v) = none ∧ m.grants = 0) ∨
      (r = true ∧ Mapped m m' d v (mkPte pa perm)) := by
  refine spec_bind ((spec_walkpgdir hp).imp ?_)
  rintro _ m' (⟨rfl, rfl, hno, hgrants⟩ | ⟨t, rfl, hwalk⟩)
  · exact spec_pure (.inl ⟨rfl, rfl, hno, hgrants⟩)
  · have hpte : ¬present (m'.word t (ptx v)) = true := by
      intro hpte
      have heq : m'.entry d v = some (m'.word t (ptx v)) :=
        (entry_of_table hwalk.table).trans (if_pos hpte)
      rw [hwalk.entry, hnone] at heq
      cases heq
    refine spec_bind (spec_get ?_)
    rw [if_neg hpte]
    exact spec_bind (spec_modify (spec_pure (.inr ⟨rfl, hwalk.mapped hv hp (present_mkPte ..)⟩)))

/-- `mappages` for whole pages: `n + 1` of them, from the page `v` on. -/
theorem mappages_eq {va size pa n : ℕ} (hva : va = v * pgsize) (hsize : size = (n + 1) * pgsize)
    (hpa : pa = f * pgsize) (hlt : v + n < 2 ^ 20) :
    mappages d va size pa perm = mapLoop d perm n v f := by
  have hfirst : va / pgsize = v := by rw [hva, Nat.mul_div_cancel _ (by decide)]
  have hframe : pa / pgsize = f := by rw [hpa, Nat.mul_div_cancel _ (by decide)]
  have hlast : (va + size - 1) % 2 ^ 32 / pgsize = v + n := by
    simp only [pgsize] at *
    omega
  have hcount : (v + n + 2 ^ 20 - v) % 2 ^ 20 = n := by omega
  rw [mappages, hfirst, hframe, hlast, hcount]

/-! ## An address space with one page -/

section OnePage

variable {free : List Frame} {v' : ℕ}

theorem small_kend_le : 258 ≤ 1024 := by decide

/-- A kernel with one page of text and one page of data. -/
def smallKernel : Layout := ⟨257, 258, Nat.lt_succ_self 256, Nat.lt_succ_self 257, small_kend_le⟩

/-- Two pages are needed to map a page in an empty directory. -/
def blank (free : List Frame) : Machine := ⟨301 :: free, fun _ ↦ .fill 0, []⟩

/-- One page is mapped, at `v`: the directory is the page 300, its page table the page 301, and the
user's page is the page 302. -/
def onePage (free : List Frame) (v : ℕ) : Machine :=
  (((blank free).handed free).withTable 300 (pdx v) 301).stored 301 (ptx v)
    (mkPte 302 (flagW ||| flagU))

theorem grants_onePage (free : List Frame) (v : ℕ) : (onePage free v).grants = free.length := rfl

variable (hp : Pool L (free ++ [301, 300, 302])) (hv : v < 2 ^ 20)
include hp

theorem pool_blank : Pool L ((blank free).free ++ ((blank free).tables 300 ++ [302])) := by
  rw [tables_of_zero rfl]
  exact hp.perm List.perm_middle.symm

include hv

theorem mapped_onePage :
    Mapped (blank free) (onePage free v) 300 v (mkPte 302 (flagW ||| flagU)) :=
  (walked_of_handed (pool_blank hp) rfl rfl (table_of_zero rfl _)).mapped hv (pool_blank hp)
    (present_mkPte ..)

theorem table_onePage : (onePage free v).table 300 (pdx v) ≠ none := by
  obtain ⟨⟨t, -, ht⟩, -⟩ := (mapped_onePage hp hv).new (table_of_zero rfl _)
  rw [ht]
  exact Option.some_ne_none t

theorem entry_onePage (hv' : v' < 2 ^ 20) : (onePage free v).entry 300 v' =
    Function.update (fun _ ↦ none) v (some (mkPte 302 (flagW ||| flagU))) v' := by
  have hblank : (blank free).entry 300 = fun _ ↦ none := funext fun i ↦ entry_of_zero rfl i
  rw [(mapped_onePage hp hv).entry v' hv', hblank]

theorem page_onePage {f : Frame} (hv' : v' < 2 ^ 20)
    (hpage : (onePage free v).page 300 v' = some f) : v' = v ∧ f = 302 := by
  rw [Machine.page, entry_onePage hp hv hv'] at hpage
  by_cases heq : v' = v
  · rw [heq, Function.update_self, Option.map_some, pteAddr_mkPte (by decide) (by decide)] at hpage
    exact ⟨heq, (Option.some.inj hpage).symm⟩
  · rw [Function.update_of_ne heq] at hpage
    cases hpage

theorem pool_onePage (hu : v < userPages) :
    Pool L ((onePage free v).free ++ (onePage free v).frames 300) := by
  have hmap := mapped_onePage hp hv
  have huser := userFrames_mapped hu (entry_of_zero rfl v) hmap.entry
  rw [userFrames_of_zero (m := blank free) rfl, pteAddr_mkPte (by decide) (by decide)] at huser
  refine (hmap.moves.pool (pool_blank hp)).perm ?_
  exact (huser.append_left _).append_left _

end OnePage

instance : DecidablePred (Freeable L) := fun f ↦
  inferInstanceAs (Decidable (L.kend ≤ f ∧ f < phystop / pgsize))

theorem pool_small : Pool smallKernel ([] ++ [301, 300, 302]) := ⟨by decide, by decide⟩

end SistemasOperacionais.Xv6.Vm
