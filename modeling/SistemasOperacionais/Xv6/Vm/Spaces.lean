import SistemasOperacionais.Foundations.Values
import SistemasOperacionais.Xv6.Vm.Model

/-!
# Who has which page

An address space is known by its page directory: it has the page of the directory, the pages of the
page tables (`tables`) and the user pages that are mapped below `KERNBASE` (`userFrames`). What an
operation does with pages is said by `Moves m m' l l'`: from the free list and the pages `l` that it
has been given it has made the free list and the pages `l'` that it gives back, and it has touched
nothing else. Such statements can be put one after the other (`Moves.trans`) and beside pages that
they are not about (`Moves.frame`).
-/

namespace SistemasOperacionais.Xv6.Vm

open Foundations Prog

/-- A page that `kfree` does not refuse. -/
def Freeable (L : Layout) (f : Frame) : Prop := L.kend ≤ f ∧ f < phystop / pgsize

/-- Pages that `kfree` takes, each of them once. -/
structure Pool (L : Layout) (l : List Frame) : Prop where
  nodup : l.Nodup
  range : ∀ f ∈ l, Freeable L f

/-- From the free list and `l` to the free list and `l'`, and nothing else is touched. -/
structure Moves (m m' : Machine) (l l' : List Frame) : Prop where
  perm : (m'.free ++ l').Perm (m.free ++ l)
  outside : ∀ f ∉ m.free ++ l, m'.mem f = m.mem f

variable {L : Layout} {m m' m'' : Machine} {d f t : Frame} {l l' l'' k : List Frame}

namespace Pool

theorem perm (h : Pool L l) (hp : l'.Perm l) : Pool L l' :=
  ⟨hp.nodup_iff.mpr h.nodup, fun f hf ↦ h.range f (hp.mem_iff.mp hf)⟩

theorem left (h : Pool L (l ++ k)) : Pool L l :=
  ⟨h.nodup.of_append_left, fun f hf ↦ h.range f (List.mem_append_left _ hf)⟩

theorem right (h : Pool L (l ++ k)) : Pool L k :=
  ⟨h.nodup.of_append_right, fun f hf ↦ h.range f (List.mem_append_right _ hf)⟩

theorem notMem (h : Pool L (l ++ k)) (hf : f ∈ l) : f ∉ k :=
  List.disjoint_of_nodup_append h.nodup hf

theorem lt (h : Pool L l) (hf : f ∈ l) : f < 2 ^ 20 := (h.range f hf).2.trans (by decide)

end Pool

namespace Moves

theorem refl (m : Machine) (l : List Frame) : Moves m m l l := ⟨.refl _, fun _ _ ↦ rfl⟩

theorem trans (h : Moves m m' l l') (h' : Moves m' m'' l' l'') : Moves m m'' l l'' where
  perm := h'.perm.trans h.perm
  outside f hf := by
    rw [h'.outside f fun hf' ↦ hf (h.perm.mem_iff.mp hf'), h.outside f hf]

/-- **The frame rule.** -/
theorem frame (h : Moves m m' l l') (k : List Frame) : Moves m m' (l ++ k) (l' ++ k) where
  perm := by simpa only [List.append_assoc] using h.perm.append_right k
  outside f hf := by
    rw [← List.append_assoc] at hf
    exact h.outside f fun hf' ↦ hf (List.mem_append_left k hf')

theorem congr (h : Moves m m' l l') (hl : k.Perm l) (hl' : l''.Perm l') : Moves m m' k l'' where
  perm := ((hl'.append_left _).trans h.perm).trans (hl.symm.append_left _)
  outside f hf := h.outside f fun hf' ↦ hf ((hl.append_left _).mem_iff.mpr hf')

theorem pool (h : Moves m m' l l') (hp : Pool L (m.free ++ (l ++ k))) :
    Pool L (m'.free ++ (l' ++ k)) := hp.perm (h.frame k).perm

theorem mem_eq (h : Moves m m' l l') (hp : Pool L (m.free ++ (l ++ k))) (hf : f ∈ k) :
    m'.mem f = m.mem f := by
  refine h.outside f fun hf' ↦ ?_
  rw [← List.append_assoc] at hp
  exact hp.notMem hf' hf

theorem of_denied (m : Machine) (l : List Frame) : Moves m m.denied l l :=
  ⟨.refl _, fun _ _ ↦ rfl⟩

theorem of_handed {rest : List Frame} (h : m.free = f :: rest) :
    Moves m (m.handed rest) [] [f] where
  perm := by
    rw [List.append_nil, h]
    exact List.perm_append_singleton f rest
  outside _ _ := rfl

theorem of_filled {b : Page} (hf : f ∈ l) : Moves m (m.filled f b) l l where
  perm := .refl _
  outside g hg := Function.update_of_ne
    (fun (h : g = f) ↦ hg (h ▸ List.mem_append_right _ hf)) ..

theorem of_freed (m : Machine) (f : Frame) : Moves m (m.freed f) [f] [] where
  perm := by
    rw [List.append_nil]
    exact (List.perm_append_singleton f m.free).symm
  outside g hg := Function.update_of_ne
    (fun (h : g = f) ↦ hg (h ▸ List.mem_append_right _ (List.mem_singleton_self g))) ..

end Moves

/-! ## Address spaces -/

namespace Machine

variable (m : Machine)

/-- The page table at place `i` of the directory. -/
def table (d : Frame) (i : ℕ) : Option Frame :=
  if present (m.word d i) then some (pteAddr (m.word d i)) else none

/-- The entry of the page with number `v`, if it is present. -/
def entry (d : Frame) (v : ℕ) : Option UInt32 :=
  (m.table d (pdx v)).bind fun t ↦
    if present (m.word t (ptx v)) then some (m.word t (ptx v)) else none

/-- Where the page with number `v` is mapped to. -/
def page (d : Frame) (v : ℕ) : Option Frame := (m.entry d v).map pteAddr

def tables (d : Frame) : List Frame := d :: values nentries (m.table d)

def userFrames (d : Frame) : List Frame := values userPages (m.page d)

def frames (d : Frame) : List Frame := m.tables d ++ m.userFrames d

end Machine

theorem pdx_lt (v : ℕ) : pdx v < nentries := Nat.mod_lt _ (by decide)

theorem ptx_lt (v : ℕ) : ptx v < nentries := Nat.mod_lt _ (by decide)

theorem eq_of_pdx_of_ptx {v v' : ℕ} (hv : v < 2 ^ 20) (hv' : v' < 2 ^ 20) (hd : pdx v = pdx v')
    (ht : ptx v = ptx v') : v = v' := by
  simp only [pdx, ptx, nentries] at hd ht
  omega

theorem lt_of_lt_userPages {v : ℕ} (hv : v < userPages) : v < 2 ^ 20 := hv.trans (by decide)

theorem pages_le {sz : UInt32} (h : sz ≤ kernbase) : pages sz ≤ userPages := by
  have hle : sz.toNat ≤ 2147483648 := UInt32.le_iff_toNat_le.mp h
  simp only [pages, pgsize, userPages]
  omega

section Lookup

variable {v : ℕ} {e : UInt32}

theorem entry_of_table (h : m.table d (pdx v) = some t) :
    m.entry d v = if present (m.word t (ptx v)) then some (m.word t (ptx v)) else none := by
  rw [Machine.entry, h, Option.bind_some]

theorem entry_of_no_table (h : m.table d (pdx v) = none) : m.entry d v = none := by
  rw [Machine.entry, h, Option.bind_none]

theorem exists_table_of_entry (h : m.entry d v = some e) :
    ∃ t, m.table d (pdx v) = some t ∧ m.word t (ptx v) = e ∧ present e = true := by
  obtain ⟨t, ht, he⟩ := Option.bind_eq_some_iff.mp h
  obtain ⟨hp, he⟩ := Option.ite_none_right_eq_some.mp he
  obtain rfl := Option.some.inj he
  exact ⟨t, ht, rfl, hp⟩

theorem page_of_entry (h : m.entry d v = some e) : m.page d v = some (pteAddr e) := by
  rw [Machine.page, h, Option.map_some]

theorem page_of_no_entry (h : m.entry d v = none) : m.page d v = none := by
  rw [Machine.page, h, Option.map_none]

theorem table_mem_tables {i : ℕ} (hi : i < nentries) (h : m.table d i = some t) :
    t ∈ m.tables d := List.mem_cons_of_mem _ (mem_values.mpr ⟨i, hi, h⟩)

theorem self_mem_tables (m : Machine) (d : Frame) : d ∈ m.tables d := List.mem_cons_self

theorem tables_subset (m : Machine) (d : Frame) : m.tables d ⊆ m.frames d :=
  List.subset_append_left ..

theorem userFrames_subset (m : Machine) (d : Frame) : m.userFrames d ⊆ m.frames d :=
  List.subset_append_right ..

theorem page_mem_userFrames (hv : v < userPages) (h : m.page d v = some f) :
    f ∈ m.userFrames d := mem_values.mpr ⟨v, hv, h⟩

end Lookup

section Congr

theorem table_congr (h : m'.mem d = m.mem d) : m'.table d = m.table d := by
  funext i
  rw [Machine.table, Machine.table, Machine.word, Machine.word, h]

theorem tables_congr (h : m'.mem d = m.mem d) : m'.tables d = m.tables d := by
  rw [Machine.tables, Machine.tables, table_congr h]

theorem entry_congr (h : ∀ f ∈ m.tables d, m'.mem f = m.mem f) : m'.entry d = m.entry d := by
  funext v
  have ht : m'.table d = m.table d := table_congr (h d (self_mem_tables m d))
  cases hv : m.table d (pdx v) with
  | none => rw [entry_of_no_table hv, entry_of_no_table (by rw [ht, hv])]
  | some t =>
    rw [entry_of_table hv, entry_of_table (by rw [ht, hv]), Machine.word, Machine.word,
      h t (table_mem_tables (pdx_lt v) hv)]

theorem userFrames_congr (h : ∀ v < 2 ^ 20, m'.entry d v = m.entry d v) :
    m'.userFrames d = m.userFrames d := by
  refine values_congr fun v hv ↦ ?_
  rw [Machine.page, Machine.page, h v (lt_of_lt_userPages hv)]

theorem frames_congr (h : ∀ f ∈ m.tables d, m'.mem f = m.mem f) : m'.frames d = m.frames d := by
  rw [Machine.frames, Machine.frames, tables_congr (h d (self_mem_tables m d)),
    userFrames_congr fun v _ ↦ congrFun (entry_congr h) v]

theorem Moves.frames_eq {s : Frame} (h : Moves m m' l l') (hs : ∀ f ∈ m.frames s, f ∉ m.free ++ l) :
    (∀ f ∈ m.frames s, m'.mem f = m.mem f) ∧ m'.frames s = m.frames s ∧ m'.entry s = m.entry s ∧
      ∀ f ∈ m'.frames s, f ∉ m'.free ++ l' := by
  have hmem : ∀ f ∈ m.frames s, m'.mem f = m.mem f := fun f hf ↦ h.outside f (hs f hf)
  have htables : ∀ f ∈ m.tables s, m'.mem f = m.mem f := fun f hf ↦ hmem f (tables_subset m s hf)
  refine ⟨hmem, frames_congr htables, entry_congr htables, fun f hf hf' ↦ ?_⟩
  rw [frames_congr htables] at hf
  exact hs f hf (h.perm.mem_iff.mp hf')

end Congr

/-! ## Stores to page tables -/

section Store

variable {i j v : ℕ} {e : UInt32} {b : Page}

theorem mem_filled_self : (m.filled t b).mem t = b := Function.update_self ..

theorem mem_filled_of_ne (h : f ≠ t) : (m.filled t b).mem f = m.mem f := Function.update_of_ne h ..

theorem word_stored_self (hj : j < nentries) :
    (m.stored t j e).word t = Function.update (m.word t) j e := by
  funext i
  rw [Machine.word, Machine.stored, mem_filled_self, Page.word_setWord hj]
  rfl

variable (hn : (m.tables d).Nodup)
include hn

theorem table_ne_self (hi : i < nentries) (ht : m.table d i = some t) : t ≠ d := by
  rintro rfl
  exact (List.nodup_cons.mp hn).1 (mem_values.mpr ⟨i, hi, ht⟩)

theorem table_unique (hi : i < nentries) (hj : j < nentries) (ht : m.table d i = some t)
    (ht' : m.table d j = some t) : i = j :=
  place_unique (List.nodup_cons.mp hn).2 hi hj ht ht'

theorem table_stored (hi : i < nentries) (ht : m.table d i = some t) :
    (m.stored t j e).table d = m.table d :=
  table_congr (mem_filled_of_ne (table_ne_self hn hi ht).symm)

theorem tables_stored (hi : i < nentries) (ht : m.table d i = some t) :
    (m.stored t j e).tables d = m.tables d :=
  tables_congr (mem_filled_of_ne (table_ne_self hn hi ht).symm)

/-- **A store to an entry** changes this entry only. -/
theorem entry_stored (hv : v < 2 ^ 20) (ht : m.table d (pdx v) = some t) {v' : ℕ}
    (hv' : v' < 2 ^ 20) : (m.stored t (ptx v) e).entry d v' =
      Function.update (m.entry d) v (if present e then some e else none) v' := by
  have htab := table_stored (j := ptx v) (e := e) hn (pdx_lt v) ht
  have hword := word_stored_self (m := m) (t := t) (e := e) (ptx_lt v)
  by_cases hvv : v' = v
  · subst hvv
    rw [Function.update_self, entry_of_table (by rw [htab, ht]), hword, Function.update_self]
  · rw [Function.update_of_ne hvv]
    cases ht' : m.table d (pdx v') with
    | none => rw [entry_of_no_table ht', entry_of_no_table (by rw [htab, ht'])]
    | some t' =>
      rw [entry_of_table ht', entry_of_table (by rw [htab, ht'])]
      by_cases htt : t' = t
      · subst htt
        have hpdx := table_unique hn (pdx_lt v') (pdx_lt v) ht' ht
        have hptx : ptx v' ≠ ptx v := fun hptx ↦ hvv (eq_of_pdx_of_ptx hv' hv hpdx hptx)
        rw [hword, Function.update_of_ne hptx]
      · rw [Machine.word, Machine.word, Machine.stored, mem_filled_of_ne htt]

end Store

section Pages

variable {v : ℕ} {e : UInt32}

theorem userFrames_mapped (hv : v < userPages) (hnone : m.entry d v = none)
    (h : ∀ v' < 2 ^ 20, m'.entry d v' = Function.update (m.entry d) v (some e) v') :
    (m'.userFrames d).Perm (pteAddr e :: m.userFrames d) := by
  have hpage : m'.userFrames d = values userPages
      (Function.update (m.page d) v (some (pteAddr e))) := values_congr fun v' hv' ↦ by
    rw [Machine.page, h v' (lt_of_lt_userPages hv')]
    by_cases hvv : v' = v
    · rw [hvv, Function.update_self, Function.update_self, Option.map_some]
    · rw [Function.update_of_ne hvv, Function.update_of_ne hvv, Machine.page]
  rw [hpage]
  exact values_update_some hv (page_of_no_entry hnone)

theorem userFrames_unmapped (hv : v < userPages) (hpage : m.page d v = some f)
    (h : ∀ v' < 2 ^ 20, m'.entry d v' = Function.update (m.entry d) v none v') :
    (m.userFrames d).Perm (f :: m'.userFrames d) := by
  have hpage' : m'.userFrames d = values userPages (Function.update (m.page d) v none) :=
    values_congr fun v' hv' ↦ by
      rw [Machine.page, h v' (lt_of_lt_userPages hv')]
      by_cases hvv : v' = v
      · rw [hvv, Function.update_self, Function.update_self, Option.map_none]
      · rw [Function.update_of_ne hvv, Function.update_of_ne hvv, Machine.page]
  rw [hpage']
  exact values_update_none hv hpage

end Pages

/-! ## New page tables -/

section NewTable

variable {i : ℕ}

/-- A cleared page, entered in the directory. -/
def Machine.withTable (m : Machine) (d : Frame) (i : ℕ) (t : Frame) : Machine :=
  (m.cleared t).stored d i (mkPte t (flagW ||| flagU))

theorem mem_withTable_of_ne (hd : f ≠ d) (ht : f ≠ t) : (m.withTable d i t).mem f = m.mem f := by
  rw [Machine.withTable, Machine.stored, mem_filled_of_ne hd, Machine.cleared, mem_filled_of_ne ht]

theorem table_withTable (hi : i < nentries) (ht : t < 2 ^ 20) (hne : d ≠ t) :
    (m.withTable d i t).table d = Function.update (m.table d) i (some t) := by
  funext j
  have hword : (m.cleared t).word d = m.word d := by
    funext k
    rw [Machine.word, Machine.cleared, mem_filled_of_ne hne, Machine.word]
  rw [Machine.table, Machine.withTable, word_stored_self hi, hword]
  by_cases hj : j = i
  · subst hj
    rw [Function.update_self, Function.update_self, if_pos (present_mkPte ..),
      pteAddr_mkPte ht (by decide)]
  · rw [Function.update_of_ne hj, Function.update_of_ne hj, Machine.table]

/-- **A new page table** is empty. -/
theorem entry_withTable (hn : (m.tables d).Nodup) (hi : i < nentries) (ht : t < 2 ^ 20)
    (hnone : m.table d i = none) (hnew : t ∉ m.tables d) :
    (m.withTable d i t).entry d = m.entry d := by
  have hne : d ≠ t := fun h ↦ hnew (h ▸ self_mem_tables m d)
  have htab := table_withTable (m := m) hi ht hne
  funext v
  by_cases hv : pdx v = i
  · have hold : m.table d (pdx v) = none := by rw [hv, hnone]
    have hword : (m.withTable d i t).word t (ptx v) = 0 := by
      rw [Machine.word, Machine.withTable, Machine.stored, mem_filled_of_ne hne.symm,
        Machine.cleared, mem_filled_self, Page.word_fill_zero]
    rw [entry_of_no_table hold, entry_of_table (t := t) (by rw [htab, hv, Function.update_self]),
      hword, present_zero]
    exact if_neg Bool.false_ne_true
  · have hsame : (m.withTable d i t).table d (pdx v) = m.table d (pdx v) := by
      rw [htab, Function.update_of_ne hv]
    cases ht' : m.table d (pdx v) with
    | none => rw [entry_of_no_table ht', entry_of_no_table (by rw [hsame, ht'])]
    | some t' =>
      have hd : t' ≠ d := table_ne_self hn (pdx_lt v) ht'
      have htt : t' ≠ t := fun h ↦ hnew (h ▸ table_mem_tables (pdx_lt v) ht')
      rw [entry_of_table ht', entry_of_table (by rw [hsame, ht']), Machine.word, Machine.word,
        mem_withTable_of_ne hd htt]

theorem tables_withTable (hi : i < nentries) (ht : t < 2 ^ 20) (hnone : m.table d i = none)
    (hnew : t ∉ m.tables d) : ((m.withTable d i t).tables d).Perm (t :: m.tables d) := by
  have hne : d ≠ t := fun h ↦ hnew (h ▸ self_mem_tables m d)
  rw [Machine.tables, Machine.tables, table_withTable hi ht hne]
  exact ((values_update_some hi hnone).cons d).trans (.swap ..)

end NewTable

/-! ## The empty directory -/

section Empty

theorem table_of_zero (h : m.mem d = .fill 0) (i : ℕ) : m.table d i = none := by
  rw [Machine.table, Machine.word, h, Page.word_fill_zero, present_zero]
  exact if_neg Bool.false_ne_true

theorem tables_of_zero (h : m.mem d = .fill 0) : m.tables d = [d] := by
  rw [Machine.tables, values_eq_nil fun i _ ↦ table_of_zero h i]

theorem entry_of_zero (h : m.mem d = .fill 0) (v : ℕ) : m.entry d v = none :=
  entry_of_no_table (table_of_zero h _)

theorem userFrames_of_zero (h : m.mem d = .fill 0) : m.userFrames d = [] :=
  values_eq_nil fun v _ ↦ page_of_no_entry (entry_of_zero h v)

end Empty

end SistemasOperacionais.Xv6.Vm
