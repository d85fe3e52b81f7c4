import SistemasOperacionais.GerenciaMemoria.Mmu.Model
import Mathlib.Data.List.Chain
import Mathlib.Logic.Relation

/-!
# The block machine of `MMU.c`

What the allocator is for, without a memory: a list of blocks, each an address and a size that is
negative while the block is in use. A request takes a block of exactly its size or cuts it off the
end of a larger one; a release turns a block free and fuses it with the free block after it, then
with the free block before it.

Everything the machine maintains is proved here. The sizes with their headers always add up to the
same total, the blocks in use are the pointers the user holds (`Livro`), and two free blocks never
stand side by side (`Alternado`).
-/

namespace SistemasOperacionais.Mmu

variable {μ : Type} {M : Memoria μ} {a c : ℕ} {t size tot : ℤ} {x y : ℕ × ℤ}
  {bs bs' xs ys vivos vivos' : List (ℕ × ℤ)}

theorem eq_of_singleton_eq (h : [y] = xs ++ x :: ys) : xs = [] ∧ y = x ∧ ys = [] := by
  cases xs with
  | nil => simpa [eq_comm] using h
  | cons z xs => simp at h

/-! ## Sizes and pointers of a list of blocks -/

/-- The bytes a list of blocks stands for, headers included. -/
def soma (bs : List (ℕ × ℤ)) : ℤ := (bs.map fun x ↦ |x.2| + holeSize).sum

@[simp] theorem soma_nil : soma [] = 0 := rfl

@[simp] theorem soma_cons : soma (x :: bs) = |x.2| + holeSize + soma bs := rfl

@[simp] theorem soma_append : soma (xs ++ ys) = soma xs + soma ys := by simp [soma]

theorem soma_nonneg (bs : List (ℕ × ℤ)) : 0 ≤ soma bs := by
  induction bs with
  | nil => exact le_rfl
  | cons x bs ih =>
    rw [soma_cons, holeSize_eq]
    have := abs_nonneg x.2
    omega

/-- The blocks in use, as the user knows them: a pointer and the size asked for. -/
def ocupados (M : Memoria μ) (bs : List (ℕ × ℤ)) : List (ℕ × ℤ) :=
  (bs.filter fun x ↦ x.2 < 0).map fun x ↦ (M.avanca x.1, -x.2)

@[simp] theorem ocupados_nil : ocupados M [] = [] := rfl

@[simp] theorem ocupados_append : ocupados M (xs ++ ys) = ocupados M xs ++ ocupados M ys := by
  simp [ocupados]

theorem ocupados_cons_neg (h : x.2 < 0) :
    ocupados M (x :: bs) = (M.avanca x.1, -x.2) :: ocupados M bs := by
  simp [ocupados, h]

theorem ocupados_cons_pos (h : 0 ≤ x.2) : ocupados M (x :: bs) = ocupados M bs := by
  simp [ocupados, not_lt.mpr h]

theorem mem_ocupados {p : ℕ} {s : ℤ} :
    (p, s) ∈ ocupados M bs ↔ ∃ a, (a, -s) ∈ bs ∧ 0 < s ∧ M.avanca a = p := by
  simp only [ocupados, List.mem_map, List.mem_filter, decide_eq_true_eq, Prod.mk.injEq]
  constructor
  · rintro ⟨⟨a, t⟩, ⟨hmem, ht⟩, rfl, rfl⟩
    exact ⟨a, by simpa using hmem, by simpa using ht, rfl⟩
  · rintro ⟨a, hmem, hs, rfl⟩
    exact ⟨(a, -s), ⟨hmem, by simpa using hs⟩, rfl, by simp⟩

/-! ## Releasing a block -/

/-- Fuse a free block with the one after it, if that is free. -/
def fundeNext (x : ℕ × ℤ) : List (ℕ × ℤ) → (ℕ × ℤ) × List (ℕ × ℤ)
  | [] => (x, [])
  | y :: ys => if 0 < y.2 then ((x.1, x.2 + holeSize + y.2), ys) else (x, y :: ys)

/-- Fuse a free block with the one before it, if that is free. -/
def fundePrev (xs : List (ℕ × ℤ)) (x : ℕ × ℤ) (ys : List (ℕ × ℤ)) : List (ℕ × ℤ) :=
  match xs.getLast? with
  | none => xs ++ x :: ys
  | some p => if 0 < p.2 then xs.dropLast ++ (p.1, p.2 + x.2 + holeSize) :: ys else xs ++ x :: ys

/-- The list after the free block `x` was fused with its neighbours. -/
def solta (xs : List (ℕ × ℤ)) (x : ℕ × ℤ) (ys : List (ℕ × ℤ)) : List (ℕ × ℤ) :=
  fundePrev xs (fundeNext x ys).1 (fundeNext x ys).2

theorem fundePrev_concat : fundePrev (xs ++ [y]) x ys =
    if 0 < y.2 then xs ++ (y.1, y.2 + x.2 + holeSize) :: ys else xs ++ y :: x :: ys := by
  simp [fundePrev]

/-- Two free neighbours become one block. -/
inductive Funde : List (ℕ × ℤ) → List (ℕ × ℤ) → Prop
  | mk {xs ys : List (ℕ × ℤ)} {p q : ℕ} {u w : ℤ} : 0 < u → 0 < w →
      Funde (xs ++ (p, u) :: (q, w) :: ys) (xs ++ (p, u + w + holeSize) :: ys)

theorem fundeNext_fst : (fundeNext x ys).1.1 = x.1 := by
  cases ys with
  | nil => rfl
  | cons y ys =>
    rw [fundeNext]
    split <;> rfl

theorem fundeNext_pos (h : 0 < x.2) : 0 < (fundeNext x ys).1.2 := by
  cases ys with
  | nil => exact h
  | cons y ys =>
    rw [fundeNext]
    split
    · dsimp only
      rw [holeSize_eq]
      omega
    · exact h

theorem funde_fundeNext (h : 0 < x.2) : Relation.ReflGen Funde (xs ++ x :: ys)
    (xs ++ (fundeNext x ys).1 :: (fundeNext x ys).2) := by
  cases ys with
  | nil => exact .refl
  | cons y ys =>
    rw [fundeNext]
    split
    · rename_i hy
      rw [add_right_comm]
      exact .single (Funde.mk h hy)
    · exact .refl

theorem funde_fundePrev (h : 0 < x.2) :
    Relation.ReflGen Funde (xs ++ x :: ys) (fundePrev xs x ys) := by
  rcases List.eq_nil_or_concat xs with rfl | ⟨xs, y, rfl⟩
  · exact .refl
  · rw [List.concat_eq_append, fundePrev_concat, List.append_assoc, List.singleton_append]
    split
    · rename_i hy
      exact .single (Funde.mk hy h)
    · exact .refl

theorem solta_of_funde {P : List (ℕ × ℤ) → Prop} (hP : ∀ {l l'}, Funde l l' → P l → P l')
    (hx : 0 < x.2) (h : P (xs ++ x :: ys)) : P (solta xs x ys) := by
  have keep : ∀ {l l'}, Relation.ReflGen Funde l l' → P l → P l' := by
    rintro l l' (_ | hstep) hl
    · exact hl
    · exact hP hstep hl
  exact keep (funde_fundePrev (fundeNext_pos hx)) (keep (funde_fundeNext hx) h)

/-! ## The machine -/

/-- One call, seen on the blocks and on the pointers of the user. -/
inductive Efeito (M : Memoria μ) : List (ℕ × ℤ) → List (ℕ × ℤ) → Op → List (ℕ × ℤ) →
    List (ℕ × ℤ) → Prop
  | recusa {bs vivos : List (ℕ × ℤ)} {size : ℤ} : Efeito M bs vivos (.aloca size) bs vivos
  | exato {xs ys vivos : List (ℕ × ℤ)} {a : ℕ} {size : ℤ} : 0 < size →
      Efeito M (xs ++ (a, size) :: ys) vivos (.aloca size) (xs ++ (a, -size) :: ys)
        ((M.avanca a, size) :: vivos)
  | divide {xs ys vivos : List (ℕ × ℤ)} {a c : ℕ} {t size : ℤ} : 0 < size →
      size + holeSize < t →
      Efeito M (xs ++ (a, t) :: ys) vivos (.aloca size)
        (xs ++ (a, t - size - holeSize) :: (c, -size) :: ys) ((M.avanca c, size) :: vivos)
  | solta {xs ys vivos : List (ℕ × ℤ)} {a : ℕ} {t : ℤ} : t < 0 →
      Efeito M (xs ++ (a, t) :: ys) vivos (.desaloca (M.avanca a)) (solta xs (a, -t) ys)
        (vivos.erase (M.avanca a, -t))

/-- The books of the allocator: the sizes account for `tot` bytes, and the user holds exactly the
blocks in use. -/
structure Livro (M : Memoria μ) (tot : ℤ) (bs vivos : List (ℕ × ℤ)) : Prop where
  total : soma bs = tot
  vivos : vivos.Perm (ocupados M bs)

theorem Livro.abs_tam_le (h : Livro M tot bs vivos) (hx : x ∈ bs) : |x.2| + holeSize ≤ tot := by
  obtain ⟨xs, ys, rfl⟩ := List.append_of_mem hx
  have hxs := soma_nonneg xs
  have hys := soma_nonneg ys
  have htot := h.total
  rw [soma_append, soma_cons] at htot
  omega

theorem soma_funde (h : Funde bs bs') : soma bs' = soma bs := by
  obtain ⟨hu, hw⟩ := h
  simp only [soma_append, soma_cons, holeSize_eq]
  rw [abs_of_pos hu, abs_of_pos hw, abs_of_pos (by omega)]
  ring

theorem soma_fundeNext (h : 0 < x.2) :
    soma (xs ++ (fundeNext x ys).1 :: (fundeNext x ys).2) = soma (xs ++ x :: ys) := by
  generalize hl : xs ++ (fundeNext x ys).1 :: (fundeNext x ys).2 = l
  have hfunde : Relation.ReflGen Funde (xs ++ x :: ys) l := hl ▸ funde_fundeNext h
  rcases hfunde with _ | hstep
  · rfl
  · exact soma_funde hstep

theorem ocupados_funde (h : Funde bs bs') : ocupados M bs' = ocupados M bs := by
  obtain ⟨hu, hw⟩ := h
  rw [ocupados_append, ocupados_append, ocupados_cons_pos (by simp only [holeSize_eq]; omega),
    ocupados_cons_pos hu.le, ocupados_cons_pos hw.le]

theorem Efeito.of_desaloca {p : ℕ} (he : Efeito M bs vivos (.desaloca p) bs' vivos') :
    ∃ xs ys a t, bs = xs ++ (a, t) :: ys ∧ t < 0 ∧ bs' = Mmu.solta xs (a, -t) ys := by
  cases he with
  | @solta xs ys _ a t ht => exact ⟨xs, ys, a, t, rfl, ht, rfl⟩

theorem Funde.sublist (h : Funde bs bs') : (bs'.map Prod.fst).Sublist (bs.map Prod.fst) := by
  obtain ⟨-, -⟩ := h
  simp

theorem Efeito.sublist {p : ℕ} (he : Efeito M bs vivos (.desaloca p) bs' vivos') :
    (bs'.map Prod.fst).Sublist (bs.map Prod.fst) := by
  obtain ⟨xs, ys, a, t, rfl, ht, rfl⟩ := he.of_desaloca
  exact solta_of_funde (P := fun l ↦ (l.map Prod.fst).Sublist ((xs ++ (a, t) :: ys).map Prod.fst))
    (fun hl hP ↦ hl.sublist.trans hP) (by simpa using ht) (by simp)

/-- **The books stay right.** -/
theorem Livro.efeito {op : Op} (h : Livro M tot bs vivos) (he : Efeito M bs vivos op bs' vivos') :
    Livro M tot bs' vivos' := by
  obtain ⟨htot, hviv⟩ := h
  cases he with
  | recusa => exact ⟨htot, hviv⟩
  | @exato xs ys _ a size hs =>
    refine ⟨?_, ?_⟩
    · simpa using htot
    · rw [ocupados_append, ocupados_cons_pos hs.le] at hviv
      rw [ocupados_append, ocupados_cons_neg (by simpa using hs), neg_neg]
      exact (hviv.cons _).trans List.perm_middle.symm
  | @divide xs ys _ a c t size hs ht =>
    rw [holeSize_eq] at ht
    refine ⟨?_, ?_⟩
    · simp only [soma_append, soma_cons, holeSize_eq, abs_neg] at htot ⊢
      rw [abs_of_pos (by omega)] at htot
      rw [abs_of_pos (by omega), abs_of_pos hs]
      omega
    · rw [ocupados_append, ocupados_cons_pos (by simp only; omega)] at hviv
      rw [ocupados_append, ocupados_cons_pos (by simp only [holeSize_eq]; omega),
        ocupados_cons_neg (by simpa using hs), neg_neg]
      exact (hviv.cons _).trans List.perm_middle.symm
  | @solta xs ys _ a t ht =>
    -- fusions keep the books, so it is enough to look at the change of sign
    refine solta_of_funde (P := fun l ↦ Livro M tot l (vivos.erase (M.avanca a, -t)))
      (fun hl hP ↦ ⟨(soma_funde hl).trans hP.total, (ocupados_funde hl).symm ▸ hP.vivos⟩)
      (by simpa using ht) ⟨?_, ?_⟩
    · simpa using htot
    · rw [ocupados_append, ocupados_cons_neg (by simpa using ht)] at hviv
      rw [ocupados_append, ocupados_cons_pos (by simpa using ht.le)]
      have := (hviv.trans List.perm_middle).erase (M.avanca a, -t)
      rwa [List.erase_cons_head] at this

/-! ## No two free neighbours -/

/-- No block is empty and no two neighbours are free. -/
structure Alternado (bs : List (ℕ × ℤ)) : Prop where
  ne_zero : ∀ x ∈ bs, x.2 ≠ 0
  chain : bs.IsChain fun x y ↦ ¬(0 < x.2 ∧ 0 < y.2)

theorem chain_fundeNext (h : ys.IsChain fun x y ↦ ¬(0 < x.2 ∧ 0 < y.2)) :
    ((fundeNext x ys).1 :: (fundeNext x ys).2).IsChain fun x y ↦ ¬(0 < x.2 ∧ 0 < y.2) := by
  cases ys with
  | nil => exact List.isChain_singleton _
  | cons y ys =>
    rw [fundeNext]
    split
    · rename_i hy
      refine List.isChain_cons.mpr ⟨fun z hz hpos ↦ ?_, (List.isChain_cons.mp h).2⟩
      exact (List.isChain_cons.mp h).1 z hz ⟨hy, hpos.2⟩
    · rename_i hy
      exact List.isChain_cons.mpr ⟨fun z hz hpos ↦ hy (Option.some.inj hz ▸ hpos.2), h⟩

theorem chain_fundePrev (hxs : xs.IsChain fun x y ↦ ¬(0 < x.2 ∧ 0 < y.2))
    (h : (x :: ys).IsChain fun x y ↦ ¬(0 < x.2 ∧ 0 < y.2)) (hx : 0 < x.2) :
    (fundePrev xs x ys).IsChain fun x y ↦ ¬(0 < x.2 ∧ 0 < y.2) := by
  rcases List.eq_nil_or_concat xs with rfl | ⟨xs, y, rfl⟩
  · exact h
  · rw [List.concat_eq_append] at hxs ⊢
    rw [fundePrev_concat]
    obtain ⟨hhead, hys⟩ := List.isChain_cons.mp h
    split
    · rename_i hy
      refine List.isChain_append.mpr ⟨(List.isChain_append.mp hxs).1,
        List.isChain_cons.mpr ⟨fun z hz hpos ↦ hhead z hz ⟨hx, hpos.2⟩, hys⟩, ?_⟩
      rintro z hz w hw ⟨hzpos, -⟩
      exact (List.isChain_append.mp hxs).2.2 z hz y rfl ⟨hzpos, hy⟩
    · rename_i hy
      refine List.isChain_split.mpr ⟨hxs, List.isChain_cons.mpr ⟨?_, h⟩⟩
      rintro z hz ⟨hypos, -⟩
      exact hy hypos

theorem ne_zero_funde (h : Funde bs bs') (hbs : ∀ x ∈ bs, x.2 ≠ 0) : ∀ x ∈ bs', x.2 ≠ 0 := by
  obtain ⟨hu, hw⟩ := h
  intro x hx
  simp only [List.mem_append, List.mem_cons] at hx hbs
  rcases hx with hx | rfl | hx
  · exact hbs x (Or.inl hx)
  · simp only [holeSize_eq]
    omega
  · exact hbs x (by tauto)

theorem chain_cons_nonpos (hx : x.2 ≤ 0) (h : ys.IsChain fun x y ↦ ¬(0 < x.2 ∧ 0 < y.2)) :
    (x :: ys).IsChain fun x y ↦ ¬(0 < x.2 ∧ 0 < y.2) :=
  List.isChain_cons.mpr ⟨fun _ _ hpos ↦ absurd hpos.1 (not_lt.mpr hx), h⟩

theorem Alternado.efeito {op : Op} (h : Alternado bs) (he : Efeito M bs vivos op bs' vivos') :
    Alternado bs' := by
  obtain ⟨hne, hch⟩ := h
  cases he with
  | recusa => exact ⟨hne, hch⟩
  | @exato xs ys _ a size hs =>
    obtain ⟨hxs, hys, -⟩ := List.isChain_append.mp hch
    have hneg : -size ≤ 0 := by omega
    refine ⟨fun x hx ↦ ?_, List.isChain_append.mpr ⟨hxs,
      chain_cons_nonpos hneg (List.isChain_cons.mp hys).2, ?_⟩⟩
    · rcases List.mem_cons.mp (List.perm_middle.mem_iff.mp hx) with rfl | hx
      · exact neg_ne_zero.mpr hs.ne'
      · exact hne x (List.perm_middle.mem_iff.mpr (List.mem_cons_of_mem _ hx))
    · rintro x - y hy ⟨-, hpos⟩
      obtain rfl := Option.some.inj hy
      exact absurd hpos (not_lt.mpr hneg)
  | @divide xs ys _ a c t size hs ht =>
    rw [holeSize_eq] at ht
    obtain ⟨hxs, hys, hlast⟩ := List.isChain_append.mp hch
    have hneg : -size ≤ 0 := by omega
    have hrest := chain_cons_nonpos (x := (c, -size)) hneg (List.isChain_cons.mp hys).2
    refine ⟨fun x hx ↦ ?_, List.isChain_append.mpr ⟨hxs, List.isChain_cons.mpr ⟨?_, hrest⟩, ?_⟩⟩
    · simp only [List.mem_append, List.mem_cons] at hx hne
      rcases hx with hx | rfl | rfl | hx
      · exact hne x (Or.inl hx)
      · simp only [holeSize_eq]
        omega
      · exact neg_ne_zero.mpr hs.ne'
      · exact hne x (Or.inr (Or.inr hx))
    · rintro y hy ⟨-, hpos⟩
      obtain rfl := Option.some.inj hy
      exact absurd hpos (not_lt.mpr hneg)
    · -- the block that was split is free, so the one before it is not
      rintro x hx y - ⟨hpos, -⟩
      exact hlast x hx (a, t) rfl ⟨hpos, by simp only; omega⟩
  | @solta xs ys _ a t ht =>
    -- both fusions are needed: one for each side of the freed block
    obtain ⟨hxs, hys, -⟩ := List.isChain_append.mp hch
    have hpos : 0 < (a, -t).2 := by simpa using ht
    refine ⟨solta_of_funde (P := fun l ↦ ∀ x ∈ l, x.2 ≠ 0) ne_zero_funde hpos fun x hx ↦ ?_,
      chain_fundePrev hxs (chain_fundeNext (List.isChain_cons.mp hys).2) (fundeNext_pos hpos)⟩
    rcases List.mem_cons.mp (List.perm_middle.mem_iff.mp hx) with rfl | hx
    · exact hpos.ne'
    · exact hne x (List.perm_middle.mem_iff.mpr (List.mem_cons_of_mem _ hx))

theorem Alternado.eq_singleton (h : Alternado bs) (hl : Livro M tot bs []) (hbs : bs ≠ []) :
    ∃ a, bs = [(a, tot - holeSize)] := by
  have hpos : ∀ x ∈ bs, 0 < x.2 := by
    intro x hx
    refine (h.ne_zero x hx).lt_or_gt.resolve_left fun hneg ↦ ?_
    have hmem : (M.avanca x.1, -x.2) ∈ ocupados M bs :=
      mem_ocupados.mpr ⟨x.1, by simpa using hx, by omega, rfl⟩
    rw [← hl.vivos.mem_iff] at hmem
    exact List.not_mem_nil hmem
  match bs with
  | [] => exact absurd rfl hbs
  | x :: y :: bs =>
    exact absurd (And.intro (hpos x (by simp)) (hpos y (by simp)))
      (List.isChain_cons_cons.mp h.chain).1
  | [(a, t)] =>
    have htot := hl.total
    rw [soma_cons, soma_nil, abs_of_pos (hpos (a, t) (by simp))] at htot
    exact ⟨a, by rw [← htot]; simp⟩

end SistemasOperacionais.Mmu
