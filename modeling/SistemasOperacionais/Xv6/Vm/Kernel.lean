import SistemasOperacionais.Xv6.Vm.Tables

/-!
# The kernel's part of an address space

`setupkvm` maps the four rows of `kmap`, so the entries above `KERNBASE` are known (`kernelEntry`).
For the page tables of these rows there are 512 places, and the directory needs a page of its own:
with 514 calls of `kalloc` that succeed there is enough for it.
-/

namespace SistemasOperacionais.Xv6.Vm

open Foundations Prog

variable {L : Layout} {E : Fault → Prop} {m m' m'' : Machine} {d f t : Frame}
  {k l : List Frame} {a n v : ℕ} {perm e : UInt32}

def Kmap.count (k : Kmap) : ℕ := (k.physEnd + 2 ^ 32 - k.physStart) % 2 ^ 32 / pgsize

/-- The entries of `n` pages from `a` on, mapped to the pages from `pa` on. -/
def rowEntry (perm : UInt32) (a n pa v : ℕ) : Option UInt32 :=
  if a ≤ v ∧ v < a + n then some (mkPte (pa + (v - a)) perm) else none

def Kmap.entry (k : Kmap) : ℕ → Option UInt32 :=
  rowEntry k.perm (k.virt / pgsize) k.count (k.physStart / pgsize)

/-- The entries that `setupkvm` makes. -/
def kernelEntry (L : Layout) (v : ℕ) : Option UInt32 := (kmap L).findSome? (·.entry v)

/-- There are no page tables for the user yet. -/
def NoUser (m : Machine) (d : Frame) : Prop := ∀ i < 512, m.table d i = none

/-! ## Pages in a row -/

/-- Pages of the kernel have been mapped: they have the entries `g`. -/
structure MapsKernel (m m' : Machine) (d : Frame) (g : ℕ → Option UInt32) : Prop where
  moves : Moves m m' (m.tables d) (m'.tables d)
  entry : ∀ v < 2 ^ 20, m'.entry d v = (g v).or (m.entry d v)
  noUser : NoUser m d → NoUser m' d
  count : m'.grants + (m'.tables d).length = m.grants + (m.tables d).length

namespace MapsKernel

variable {g g' : ℕ → Option UInt32}

theorem refl (m : Machine) (d : Frame) : MapsKernel m m d fun _ ↦ none :=
  ⟨.refl .., fun _ _ ↦ (Option.none_or).symm, id, rfl⟩

theorem trans (h : MapsKernel m m' d g) (h' : MapsKernel m' m'' d g') :
    MapsKernel m m'' d fun v ↦ (g' v).or (g v) where
  moves := h.moves.trans h'.moves
  entry v hv := by rw [h'.entry v hv, h.entry v hv, Option.or_assoc]
  noUser hno := h'.noUser (h.noUser hno)
  count := h'.count.trans h.count

theorem congr (h : MapsKernel m m' d g) (hg : ∀ v < 2 ^ 20, g v = g' v) : MapsKernel m m' d g' :=
  ⟨h.moves, fun v hv ↦ by rw [h.entry v hv, hg v hv], h.noUser, h.count⟩

end MapsKernel

theorem pdx_of_kernel (hv : userPages ≤ v) (hlt : v < 2 ^ 20) : 512 ≤ pdx v := by
  simp only [userPages, pdx, nentries] at hv ⊢
  omega

theorem length_tables_le (h : NoUser m d) : (m.tables d).length ≤ 513 := by
  rw [Machine.tables, List.length_cons]
  exact Nat.succ_le_succ (length_values_le (n := nentries) h)

/-- Each page table takes one of the pages that `kalloc` has to give. -/
theorem Mapped.count (h : Mapped m m' d v e) :
    m'.grants + (m'.tables d).length = m.grants + (m.tables d).length := by
  cases ht : m.table d (pdx v) with
  | some t =>
    obtain ⟨htable, hgrants⟩ := h.kept (by rw [ht]; rfl)
    rw [hgrants, Machine.tables, htable, ← Machine.tables]
  | none =>
    obtain ⟨⟨t, -, htable⟩, hgrants⟩ := h.new ht
    have hupdate : m'.table d = Function.update (m.table d) (pdx v) (some t) := by
      funext i
      by_cases hi : i = pdx v
      · rw [hi, htable, Function.update_self]
      · rw [h.others i hi, Function.update_of_ne hi]
    have hlen := (values_update_some (y := t) (pdx_lt v) ht).length_eq
    rw [List.length_cons] at hlen
    rw [Machine.tables, Machine.tables, hupdate, List.length_cons, List.length_cons, hlen]
    omega

theorem Mapped.mapsKernel (h : Mapped m m' d v e) (hv : userPages ≤ v) (hlt : v < 2 ^ 20) :
    MapsKernel m m' d (Function.update (fun _ ↦ none) v (some e)) where
  moves := h.moves
  entry v' hv' := by
    rw [h.entry v' hv']
    by_cases heq : v' = v
    · rw [heq, Function.update_self, Function.update_self, Option.some_or]
    · rw [Function.update_of_ne heq, Function.update_of_ne heq, Option.none_or]
  noUser hno i hi := by rw [h.others i (hi.trans_le (pdx_of_kernel hv hlt)).ne, hno i hi]
  count := h.count

theorem rowEntry_one {pa : ℕ} :
    rowEntry perm a 1 pa v = Function.update (fun _ ↦ none) a (some (mkPte pa perm)) v := by
  rw [rowEntry]
  by_cases hv : v = a
  · rw [hv, Function.update_self, if_pos ⟨le_rfl, Nat.lt_succ_self a⟩, Nat.sub_self, Nat.add_zero]
  · rw [Function.update_of_ne hv, if_neg (by omega)]

theorem rowEntry_succ {pa : ℕ} : rowEntry perm a (n + 1) pa v =
    (rowEntry perm (a + 1) n (pa + 1) v).or
      (Function.update (fun _ ↦ none) a (some (mkPte pa perm)) v) := by
  rw [← rowEntry_one, rowEntry, rowEntry, rowEntry]
  by_cases hrest : a + 1 ≤ v ∧ v < a + 1 + n
  · rw [if_pos hrest, if_pos (by omega), Option.some_or]
    congr 2
    omega
  · rw [if_neg hrest, Option.none_or]
    by_cases hfirst : a ≤ v ∧ v < a + 1
    · rw [if_pos hfirst, if_pos (by omega)]
    · rw [if_neg hfirst, if_neg (by omega)]

/-- **Pages of the kernel are mapped.** -/
theorem spec_mapLoop {pa : Frame} (hp : Pool L (m.free ++ (m.tables d ++ k))) (hno : NoUser m d)
    (ha : userPages ≤ a) (hlt : a + n < 2 ^ 20)
    (hfresh : ∀ v, a ≤ v → v ≤ a + n → m.entry d v = none) :
    Spec E (mapLoop d perm n a pa) m fun r m' ↦
      (r = false ∧ m.grants + (m.tables d).length ≤ 513) ∨
      (r = true ∧ MapsKernel m m' d (rowEntry perm a (n + 1) pa)) := by
  have hfail : ∀ {m : Machine}, NoUser m d → m.grants = 0 →
      m.grants + (m.tables d).length ≤ 513 := fun hno hzero ↦ by
    rw [hzero, Nat.zero_add]
    exact length_tables_le hno
  induction n generalizing m a pa with
  | zero =>
    have ha' : a < 2 ^ 20 := hlt
    refine (spec_mapPage hp ha' (hfresh a le_rfl le_rfl)).imp ?_
    rintro r m' (⟨rfl, rfl, -, hzero⟩ | ⟨rfl, hmap⟩)
    · exact .inl ⟨rfl, hfail hno hzero⟩
    · exact .inr ⟨rfl, (hmap.mapsKernel ha ha').congr fun v _ ↦ rowEntry_one.symm⟩
  | succ n ih =>
    refine spec_bind ((spec_mapPage hp (by omega) (hfresh a le_rfl (Nat.le_add_right ..))).imp ?_)
    rintro r m' (⟨rfl, rfl, -, hzero⟩ | ⟨rfl, hmap⟩)
    · exact spec_pure (.inl ⟨rfl, hfail hno hzero⟩)
    · have hone := hmap.mapsKernel ha (by omega)
      rw [if_pos rfl]
      refine (ih (hone.moves.pool hp) (hone.noUser hno) (by omega) (by omega)
        fun v hge hle ↦ ?_).imp ?_
      · rw [hmap.entry v (by omega), Function.update_of_ne (by omega),
          hfresh v (by omega) (by omega)]
      · rintro r m'' (⟨rfl, hfew⟩ | ⟨rfl, hrest⟩)
        · exact .inl ⟨rfl, hone.count ▸ hfew⟩
        · exact .inr ⟨rfl, (hone.trans hrest).congr fun v _ ↦ rowEntry_succ.symm⟩

/-! ## The rows of `kmap` -/

/-- The row has at least one page, it is about whole pages, and it lies behind the page `a`. -/
structure Kmap.Fits (k : Kmap) (a : ℕ) : Prop where
  virt : pgsize ∣ k.virt
  phys : pgsize ∣ k.physStart
  size : (k.physEnd + 2 ^ 32 - k.physStart) % 2 ^ 32 = k.count * pgsize
  pos : 0 < k.count
  behind : a ≤ k.virt / pgsize
  lt : k.virt / pgsize + k.count ≤ 2 ^ 20

/-- Rows one behind the other. -/
def Rows : ℕ → List Kmap → Prop
  | _, [] => True
  | a, k :: rest => k.Fits a ∧ Rows (k.virt / pgsize + k.count) rest

theorem rows_kmap (L : Layout) : Rows userPages (kmap L) := by
  have hext := L.extmem_lt
  have hdata := L.data_lt
  have hkend := L.kend_le
  refine ⟨?_, ?_, ?_, ?_, trivial⟩ <;>
    refine ⟨?_, ?_, ?_, ?_, ?_, ?_⟩ <;>
    simp only [Kmap.count, kernbase, extmem, phystop, devspace, pgsize, userPages,
      UInt32.reduceToNat] <;>
    omega

theorem Kmap.entry_of_lt {row : Kmap} (h : row.Fits a) (hv : v < a) : row.entry v = none := by
  have hbehind := h.behind
  rw [Kmap.entry, rowEntry, if_neg (by omega)]

theorem rows_of_lt {rows : List Kmap} (h : Rows a rows) (hv : v < a) :
    rows.findSome? (·.entry v) = none := by
  induction rows generalizing a with
  | nil => rfl
  | cons row rest ih =>
    have hbehind := h.1.behind
    rw [List.findSome?_cons, row.entry_of_lt h.1 hv]
    exact ih h.2 (by omega)

/-- **The rows are mapped** one after the other. -/
theorem spec_mapKernel {rows : List Kmap} (hp : Pool L (m.free ++ (m.tables d ++ k)))
    (hno : NoUser m d) (hrows : Rows a rows) (ha : userPages ≤ a)
    (hfresh : ∀ v, a ≤ v → v < 2 ^ 20 → m.entry d v = none) :
    Spec E (mapKernel d rows) m fun r m' ↦
      (r = false ∧ m.grants + (m.tables d).length ≤ 513) ∨
      (r = true ∧ MapsKernel m m' d fun v ↦ rows.findSome? (·.entry v)) := by
  induction rows generalizing m a with
  | nil => exact spec_pure (.inr ⟨rfl, .refl ..⟩)
  | cons row rest ih =>
    obtain ⟨hfits, hrows⟩ := hrows
    obtain ⟨n, hn⟩ : ∃ n, row.count = n + 1 := Nat.exists_eq_succ_of_ne_zero hfits.pos.ne'
    have hbehind := hfits.behind
    have hend := hfits.lt
    rw [mapKernel, mappages_eq (v := row.virt / pgsize) (f := row.physStart / pgsize) (n := n)
      (Nat.div_mul_cancel hfits.virt).symm (by rw [hfits.size, hn])
      (Nat.div_mul_cancel hfits.phys).symm (by omega)]
    refine spec_bind ((spec_mapLoop hp hno (by omega) (by omega) fun v hge hle ↦
      hfresh v (by omega) (by omega)).imp ?_)
    rintro r m' (⟨rfl, hfew⟩ | ⟨rfl, hone⟩)
    · exact spec_pure (.inl ⟨rfl, hfew⟩)
    · rw [if_pos rfl]
      rw [← hn] at hone
      refine (ih (hone.moves.pool hp) (hone.noUser hno) hrows (by omega) fun v hge hlt ↦ ?_).imp ?_
      · rw [hone.entry v hlt, rowEntry, if_neg (by omega), Option.none_or,
          hfresh v (by omega) hlt]
      · rintro r m'' (⟨rfl, hfew⟩ | ⟨rfl, hrest⟩)
        · exact .inl ⟨rfl, hone.count ▸ hfew⟩
        · refine .inr ⟨rfl, (hone.trans hrest).congr fun v _ ↦ ?_⟩
          rw [List.findSome?_cons, Kmap.entry]
          by_cases hv : v < row.virt / pgsize + row.count
          · rw [rows_of_lt hrows hv, Option.none_or]
            cases rowEntry row.perm (row.virt / pgsize) row.count (row.physStart / pgsize) v <;> rfl
          · rw [rowEntry, if_neg (by omega), Option.or_none]

/-! ## The directory -/

/-- The directory `d` has been made, with the kernel's pages in it. -/
structure NewSpace (L : Layout) (m m' : Machine) (d : Frame) : Prop where
  moves : Moves m m' [] (m'.tables d)
  entry : ∀ v < 2 ^ 20, m'.entry d v = kernelEntry L v
  grants : m.grants ≤ m'.grants + 513

theorem kernelEntry_of_lt (hv : v < userPages) : kernelEntry L v = none :=
  rows_of_lt (rows_kmap L) hv

/-- **`setupkvm`** makes a directory with the entries of the kernel, or it fails; then it has had
no more than 513 pages. -/
theorem spec_setupkvm (hp : Pool L (m.free ++ k)) :
    Spec E (setupkvm L) m fun r m' ↦
      (r = none ∧ m.grants ≤ 513) ∨
      ∃ d, r = some d ∧ NewSpace L m m' d := by
  refine spec_bind (spec_kalloc.imp ?_)
  rintro r m' (⟨rfl, rfl, hzero⟩ | ⟨d, rest, rfl, hfree, rfl, hgrants⟩)
  · exact spec_pure (.inl ⟨rfl, by omega⟩)
  · have hzero : ((m.handed rest).cleared d).mem d = .fill 0 := mem_filled_self
    have htables := tables_of_zero hzero
    have hmoves : Moves m ((m.handed rest).cleared d) [] [d] :=
      (Moves.of_handed hfree).trans (.of_filled (List.mem_singleton_self d))
    have hp' := hmoves.pool (l := []) hp
    rw [← htables] at hp' hmoves
    have hcount : ((m.handed rest).cleared d).grants +
        (((m.handed rest).cleared d).tables d).length = m.grants := by
      rw [htables]
      exact hgrants
    refine spec_bind (spec_modify ?_)
    rw [if_neg (by decide)]
    refine spec_bind ((spec_mapKernel hp' (fun i _ ↦ table_of_zero hzero i) (rows_kmap L) le_rfl
      fun v _ _ ↦ entry_of_zero hzero v).imp ?_)
    rintro r m' (⟨rfl, hfew⟩ | ⟨rfl, hmaps⟩)
    · exact spec_pure (.inl ⟨rfl, hcount ▸ hfew⟩)
    · rw [if_pos rfl]
      refine spec_pure (.inr ⟨d, rfl, hmoves.trans hmaps.moves, fun v hv ↦ ?_, ?_⟩)
      · rw [hmaps.entry v hv, entry_of_zero hzero, Option.or_none]
        rfl
      · have hlen := length_tables_le (hmaps.noUser fun i _ ↦ table_of_zero hzero i)
        have htotal := hmaps.count
        omega

end SistemasOperacionais.Xv6.Vm
