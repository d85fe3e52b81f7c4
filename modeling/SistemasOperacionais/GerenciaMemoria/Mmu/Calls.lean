import SistemasOperacionais.GerenciaMemoria.Mmu.Blocks
import SistemasOperacionais.GerenciaMemoria.Mmu.Memory

/-!
# The calls of `MMU.c` on a list of blocks

In a memory that holds a list of blocks, each call does to the memory what the block machine does to
the list. The search of `meu_aloca` stops at the first block that serves; the only part that depends
on the reading of the memory is where a split puts its new header, so the split is followed as far
as possible without knowing it.
-/

namespace SistemasOperacionais.Mmu

open Foundations

variable {μ : Type} {M : Memoria μ} {R : ℕ → ℕ → Prop} {W : ℕ → Prop} {m m' : μ}
  {lista a b c n p q : ℕ} {t u v w size : ℤ} {bs xs ys vivos : List (ℕ × ℤ)} {l : List ℕ}

/-! ## Field accesses -/

namespace Memoria

theorem lerTam_of_ne (h : p ≠ 0) : M.lerTam m p = .ok (M.tam m p) := if_neg h

theorem lerNext_of_ne (h : p ≠ 0) : M.lerNext m p = .ok (M.next m p) := if_neg h

theorem lerPrev_of_ne (h : p ≠ 0) : M.lerPrev m p = .ok (M.prev m p) := if_neg h

theorem escreveTam_of_ne (h : p ≠ 0) : M.escreveTam m p v = .ok (M.setTam m p v) := if_neg h

theorem escreveNext_of_ne (h : p ≠ 0) : M.escreveNext m p q = .ok (M.setNext m p q) := if_neg h

theorem escrevePrev_of_ne (h : p ≠ 0) : M.escrevePrev m p q = .ok (M.setPrev m p q) := if_neg h

/-! ## Splitting -/

/-- The address of the block that a request of `size` bytes splits off `a`. -/
def corte (M : Memoria μ) (m : μ) (a : ℕ) (size : ℤ) : ℕ := (M.corta m a (M.tam m a) size).1

/-- The memory before a split writes what is left in the old block. -/
def ligado (M : Memoria μ) (m : μ) (a : ℕ) (size : ℤ) : μ :=
  M.setNext (M.setPrev (M.setNext (M.setTam (M.corta m a (M.tam m a) size).2 (M.corte m a size)
    (wrap (-size))) (M.corte m a size) (M.next m a)) (M.corte m a size) a) a (M.corte m a size)

theorem divide_eq (ha : a ≠ 0) (hc : M.corte m a size ≠ 0) : M.divide m a size =
    .ok (M.avanca (M.corte m a size), M.ligaPrev (M.setTam (M.ligado m a size) a
      (wrap (M.tam (M.ligado m a size) a - size - holeSize))) (M.next m a)
      (M.corte m a size)) := by
  rw [corte] at hc
  simp only [divide, lerNext_of_ne ha, lerTam_of_ne ha, bind, Except.bind, escreveTam_of_ne hc,
    escreveNext_of_ne hc, escrevePrev_of_ne hc, escreveNext_of_ne ha, escreveTam_of_ne ha]
  rfl

theorem corte_ne_zero_of_divide {r : ℕ × μ} (ha : a ≠ 0) (h : M.divide m a size = .ok r) :
    M.corte m a size ≠ 0 := by
  intro hc
  rw [corte] at hc
  simp [divide, lerNext_of_ne ha, lerTam_of_ne ha, bind, Except.bind, escreveTam, hc] at h

/-! ## Searching -/

/-- A block of size `t` stops the search for `size` bytes. -/
def Serve (size t : ℤ) : Prop := t = size ∨ wrap (size + holeSize) < t

theorem alocaLoop_cases {r : ℕ × μ} (hl : Chain 0 (M.next m) p l)
    (h : M.alocaLoop m size n p = .ok r) :
    ((∀ b ∈ l, ¬Serve size (M.tam m b)) ∧ r = (0, m)) ∨
    ∃ l₁ a l₂, l = l₁ ++ a :: l₂ ∧ (∀ b ∈ l₁, ¬Serve size (M.tam m b)) ∧
      (M.tam m a = size ∧ r = (M.avanca a, M.setTam m a (wrap (-size))) ∨
        M.tam m a ≠ size ∧ wrap (size + holeSize) < M.tam m a ∧ M.divide m a size = .ok r) := by
  induction l generalizing n p with
  | nil =>
    obtain rfl : p = 0 := hl.eq_nil_iff.mp rfl
    cases n with
    | zero => cases h
    | succ n =>
      rw [alocaLoop, if_pos rfl] at h
      exact Or.inl ⟨by simp, (Except.ok.inj h).symm⟩
  | cons a l ih =>
    obtain ⟨rfl, hp, hl⟩ := Chain.cons_iff.mp hl
    cases n with
    | zero => cases h
    | succ n =>
      rw [alocaLoop, if_neg hp, lerTam_of_ne hp] at h
      simp only [bind, Except.bind] at h
      split at h
      · rename_i heq
        rw [escreveTam_of_ne hp] at h
        refine Or.inr ⟨[], p, l, rfl, by simp, Or.inl ⟨heq, ?_⟩⟩
        rw [← heq]
        exact (Except.ok.inj h).symm
      · rename_i hne
        split at h
        · rename_i hlt
          exact Or.inr ⟨[], p, l, rfl, by simp, Or.inr ⟨hne, hlt, h⟩⟩
        · rename_i hge
          rw [lerNext_of_ne hp] at h
          -- neither test holds: the loop goes on to `next`
          have hnot : ¬Serve size (M.tam m p) := not_or.mpr ⟨hne, hge⟩
          rcases ih hl h with ⟨hall, hr⟩ | ⟨l₁, a, l₂, rfl, hpre, hr⟩
          · exact Or.inl ⟨List.forall_mem_cons.mpr ⟨hnot, hall⟩, hr⟩
          · exact Or.inr ⟨p :: l₁, a, l₂, rfl, List.forall_mem_cons.mpr ⟨hnot, hpre⟩, hr⟩

theorem alocaLoop_returns (hl : Chain 0 (M.next m) p l) (hn : l.length < n)
    (hdiv : ∀ a ∈ l, ∃ r, M.divide m a size = .ok r) :
    ∃ r, M.alocaLoop m size n p = .ok r := by
  induction l generalizing n p with
  | nil =>
    obtain ⟨n, rfl⟩ := Nat.exists_eq_add_one_of_ne_zero hn.ne'
    rw [hl.eq_nil_iff.mp rfl, alocaLoop, if_pos rfl]
    exact ⟨_, rfl⟩
  | cons a l ih =>
    obtain ⟨n, rfl⟩ := Nat.exists_eq_add_one_of_ne_zero (Nat.zero_lt_of_lt hn).ne'
    obtain ⟨rfl, hp, hl⟩ := Chain.cons_iff.mp hl
    rw [alocaLoop, if_neg hp, lerTam_of_ne hp]
    simp only [bind, Except.bind]
    split
    · rw [escreveTam_of_ne hp]
      exact ⟨_, rfl⟩
    · split
      · exact hdiv p List.mem_cons_self
      · rw [lerNext_of_ne hp]
        exact ih hl (Nat.lt_of_succ_lt_succ hn) fun a ha ↦ hdiv a (List.mem_cons_of_mem _ ha)

/-- Header writes lead from one memory to the other. -/
inductive Escritas (M : Memoria μ) (m : μ) : μ → Prop
  | refl : Escritas M m m
  | setTam {m' : μ} (a : ℕ) (v : ℤ) : Escritas M m m' → Escritas M m (M.setTam m' a v)
  | setNext {m' : μ} (a v : ℕ) : Escritas M m m' → Escritas M m (M.setNext m' a v)
  | setPrev {m' : μ} (a v : ℕ) : Escritas M m m' → Escritas M m (M.setPrev m' a v)

namespace Escritas

theorem trans {m'' : μ} (h : M.Escritas m m') (h' : M.Escritas m' m'') : M.Escritas m m'' := by
  induction h' with
  | refl => exact h
  | setTam a v _ ih => exact ih.setTam a v
  | setNext a v _ ih => exact ih.setNext a v
  | setPrev a v _ ih => exact ih.setPrev a v

theorem ligaPrev (h : M.Escritas m m') : M.Escritas m (M.ligaPrev m' a b) := by
  rw [Memoria.ligaPrev]
  split
  · exact h.setPrev a b
  · exact h

theorem funde (h : M.Escritas m m') : M.Escritas m (M.funde m' p q v) :=
  ((h.setTam p v).setNext p _).ligaPrev

theorem cortado (h : M.Escritas m m') : M.Escritas m (M.cortado m' a c v w) :=
  ((((((h.setTam c w).setNext c _).setPrev c a).setNext a c).setTam a v)).ligaPrev

end Escritas

end Memoria

/-! ## The calls in a memory that holds a list of blocks -/

theorem inteiro_of_soma (h : soma (xs ++ (p, u) :: (q, w) :: ys) < 2 ^ 31) :
    Inteiro (u + w + holeSize) := by
  simp only [soma_append, soma_cons, holeSize_eq] at h ⊢
  have hxs := soma_nonneg xs
  have hys := soma_nonneg ys
  obtain ⟨hu, hu'⟩ := abs_le.mp (le_refl |u|)
  obtain ⟨hw, hw'⟩ := abs_le.mp (le_refl |w|)
  exact ⟨by omega, by omega⟩

namespace Rep

theorem congr (h : Rep M R W lista m bs) (htam : ∀ b, M.tam m' b = M.tam m b)
    (hnext : ∀ b, M.next m' b = M.next m b) (hprev : ∀ b, M.prev m' b = M.prev m b) :
    Rep M R W lista m' bs :=
  ⟨h.chain.congr fun b _ ↦ ⟨hnext b, hprev b⟩, fun x hx ↦ (htam x.1).trans (h.tam_eq x hx),
    h.nodup, h.apart, h.word⟩

theorem divide (hM : Acesso M R W) (h : Rep M R W lista m (xs ++ (a, t) :: ys))
    (hc0 : M.corte m a size ≠ 0) (hc : W (M.corte m a size))
    (hcs : M.corte m a size ∉ (xs ++ (a, t) :: ys).map Prod.fst)
    (hR : ∀ b ∈ (xs ++ (a, t) :: ys).map Prod.fst,
      R (M.corte m a size) b ∧ R b (M.corte m a size))
    (hRc : R (M.corte m a size) (M.corte m a size)) :
    ∃ m', M.divide m a size = .ok (M.avanca (M.corte m a size), m') ∧
      M.Escritas (M.corta m a t size).2 m' ∧
      Rep M R W lista m'
        (xs ++ (a, wrap (t - size - holeSize)) :: (M.corte m a size, wrap (-size)) :: ys) := by
  have hca : a ≠ M.corte m a size := ne_of_mem_of_not_mem (by simp) hcs
  have hRa : R a a := h.apart a (by simp) a (by simp)
  have hRca := (hR a (by simp)).1
  -- the size left is computed from a size read after the new header was written
  have htam : M.tam (M.ligado m a size) a = t := by
    rw [Memoria.ligado, hM.tam_setNext hRa, hM.tam_setPrev hRca, hM.tam_setNext hRca,
      hM.tam_setTam hRca (inteiro_wrap _), if_neg hca, hM.tam_corta, h.tam_mid]
  have hrep : Rep M R W lista (M.corta m a t size).2 (xs ++ (a, t) :: ys) :=
    h.congr (fun _ ↦ hM.tam_corta) (fun _ ↦ hM.next_corta) fun _ ↦ hM.prev_corta
  refine ⟨_, ?_, (Memoria.Escritas.refl).cortado, hrep.cortado hM (inteiro_wrap _) (inteiro_wrap _)
    hc0 hc hcs hR hRc⟩
  rw [Memoria.divide_eq (h.ne_zero (by simp)) hc0, htam, Memoria.ligado, Memoria.cortado,
    hM.next_corta, h.tam_mid]

theorem juntaNext (hM : Acesso M R W) (h : Rep M R W lista m (xs ++ (a, t) :: ys))
    (hs : soma (xs ++ (a, t) :: ys) < 2 ^ 31) :
    ∃ m', M.juntaNext m a ((ys.map Prod.fst).headD 0) = .ok m' ∧ M.Escritas m m' ∧
      Rep M R W lista m' (xs ++ (fundeNext (a, t) ys).1 :: (fundeNext (a, t) ys).2) := by
  rcases ys with _ | ⟨⟨q, w⟩, ys⟩
  · exact ⟨m, rfl, .refl, h⟩
  have hq : Rep M R W lista m ((xs ++ [(a, t)]) ++ (q, w) :: ys) := by simpa using h
  have ha0 : a ≠ 0 := h.ne_zero (by simp)
  have hq0 : q ≠ 0 := h.ne_zero (by simp)
  rw [List.map_cons, List.headD_cons, fundeNext, Memoria.juntaNext, if_pos hq0,
    Memoria.lerTam_of_ne hq0, hq.tam_mid]
  simp only [bind, Except.bind]
  by_cases hw : 0 < w
  · have hv : Inteiro (t + holeSize + w) := by
      rw [add_right_comm]
      exact inteiro_of_soma hs
    refine ⟨M.funde m a q (t + holeSize + w), ?_, (Memoria.Escritas.refl).funde, ?_⟩
    · rw [if_pos hw, Memoria.lerTam_of_ne ha0, h.tam_mid]
      simp only [wrap_of_inteiro hv, Memoria.escreveTam_of_ne ha0, Memoria.lerNext_of_ne hq0,
        Memoria.escreveNext_of_ne ha0, Memoria.lerNext_of_ne ha0]
      rw [hM.next_setTam (h.apart a (by simp) q (by simp)),
        hM.next_setNext (h.apart a (by simp) a (by simp)) (hq.next_word hM), if_pos rfl]
      rfl
    · rw [if_pos hw]
      exact h.funde hM hv
  · exact ⟨m, by rw [if_neg hw], .refl, by rw [if_neg hw]; exact h⟩

theorem juntaPrev (hM : Acesso M R W) (h : Rep M R W lista m (xs ++ (a, t) :: ys))
    (hs : soma (xs ++ (a, t) :: ys) < 2 ^ 31) :
    ∃ m', M.juntaPrev m ((xs.map Prod.fst).getLastD 0) a = .ok m' ∧ M.Escritas m m' ∧
      Rep M R W lista m' (fundePrev xs (a, t) ys) := by
  rcases List.eq_nil_or_concat xs with rfl | ⟨xs, ⟨q, w⟩, rfl⟩
  · exact ⟨m, rfl, .refl, h⟩
  rw [List.concat_eq_append] at *
  have hq : Rep M R W lista m (xs ++ (q, w) :: (a, t) :: ys) := by simpa using h
  have ha0 : a ≠ 0 := h.ne_zero (by simp)
  have hq0 : q ≠ 0 := h.ne_zero (by simp)
  rw [List.map_append, List.map_singleton, List.getLastD_concat, fundePrev_concat,
    Memoria.juntaPrev, if_pos hq0, Memoria.lerTam_of_ne hq0, hq.tam_mid]
  simp only [bind, Except.bind]
  by_cases hw : 0 < w
  · have hv : Inteiro (w + t + holeSize) := by
      rw [List.append_assoc, List.singleton_append] at hs
      exact inteiro_of_soma hs
    refine ⟨M.funde m q a (w + t + holeSize), ?_, (Memoria.Escritas.refl).funde, ?_⟩
    · have hqa : a ≠ q := ne_of_mem_of_not_mem (by simp) hq.notMem
      rw [if_pos hw, Memoria.lerTam_of_ne ha0, h.tam_mid]
      simp only [wrap_of_inteiro hv, Memoria.escreveTam_of_ne hq0, Memoria.lerNext_of_ne ha0,
        Memoria.escreveNext_of_ne hq0]
      rw [hM.next_setTam (h.apart q (by simp) a (by simp)),
        hM.next_setNext (h.apart q (by simp) a (by simp)) (h.next_word hM), if_neg hqa,
        hM.next_setTam (h.apart q (by simp) a (by simp))]
      rfl
    · rw [if_pos hw]
      exact hq.funde hM hv
  · exact ⟨m, by rw [if_neg hw], .refl, by rw [if_neg hw]; exact hq⟩

theorem meuDesaloca (hM : Acesso M R W) (h : Rep M R W lista m (xs ++ (a, t) :: ys))
    (hs : soma (xs ++ (a, t) :: ys) < 2 ^ 31) (ht : t < 0) :
    ∃ m', M.meuDesaloca m (M.avanca a) = .ok m' ∧ M.Escritas m m' ∧
      Rep M R W lista m' (solta xs (a, -t) ys) := by
  have ha0 : a ≠ 0 := h.ne_zero (by simp)
  have hpos : 0 < (a, -t).2 := by simpa using ht
  have hneg : Inteiro (-t) := by
    have := soma_nonneg xs
    have := soma_nonneg ys
    simp only [soma_append, soma_cons, holeSize_eq, abs_of_neg ht] at hs
    exact ⟨by omega, by omega⟩
  have hs₁ : soma (xs ++ (a, -t) :: ys) < 2 ^ 31 := by simpa using hs
  -- the sign is flipped, then the block is joined with the next one and with the previous one
  obtain ⟨m₂, hm₂, hw₂, h₂⟩ := (h.setTam hM hneg).juntaNext hM hs₁
  obtain ⟨m₃, hm₃, hw₃, h₃⟩ := h₂.juntaPrev hM ((soma_fundeNext hpos).trans_lt hs₁)
  refine ⟨m₃, ?_, ((Memoria.Escritas.refl).setTam a (-t)).trans (hw₂.trans hw₃), h₃⟩
  rw [Memoria.meuDesaloca, hM.recua_avanca (h.word a (by simp)), Memoria.lerPrev_of_ne ha0,
    Memoria.lerNext_of_ne ha0, Memoria.lerTam_of_ne ha0, h.tam_mid, h.links.1, h.links.2]
  simp only [bind, Except.bind, Memoria.escreveTam_of_ne ha0, wrap_of_inteiro hneg]
  rw [hm₂]
  rwa [fundeNext_fst] at hm₃

theorem meuAloca_cases {r : ℕ × μ} (h : Rep M R W lista m bs)
    (hr : M.meuAloca n m lista size = .ok r) :
    ((∀ x ∈ bs, ¬Memoria.Serve size x.2) ∧ r = (0, m)) ∨
    ∃ xs a t ys, bs = xs ++ (a, t) :: ys ∧ (∀ x ∈ xs, ¬Memoria.Serve size x.2) ∧
      (t = size ∧ r = (M.avanca a, M.setTam m a (wrap (-size))) ∨
        t ≠ size ∧ wrap (size + holeSize) < t ∧ M.divide m a size = .ok r) := by
  rcases Memoria.alocaLoop_cases h.chain.chain hr with ⟨hall, hr⟩ | ⟨l₁, a, l₂, hbs, hpre, hr⟩
  · exact Or.inl ⟨fun x hx ↦ h.tam_eq x hx ▸ hall x.1 (List.mem_map_of_mem hx), hr⟩
  · obtain ⟨xs, rest, rfl, rfl, hrest⟩ := List.map_eq_append_iff.mp hbs
    obtain ⟨⟨b, t⟩, ys, rfl, rfl, rfl⟩ := List.map_eq_cons_iff.mp hrest
    refine Or.inr ⟨xs, b, t, ys, rfl, fun x hx ↦ ?_, ?_⟩
    · exact h.tam_eq x (by simp [hx]) ▸ hpre x.1 (List.mem_map_of_mem hx)
    · rwa [h.tam_mid] at hr

end Rep

/-! ## Steps of a run -/

theorem rep_inicializaMemoria (hM : Acesso M R W) (m : μ) (n : ℤ) (hR : R a a) (hW : W a)
    (ha : a ≠ 0) :
    Rep M R W a (M.inicializaMemoria m a n) [(a, wrap (tamanho n - holeSize))] := by
  refine ⟨⟨⟨a, rfl, ?_, ?_, rfl⟩, ?_⟩, ?_, ?_, ?_, ?_⟩
  · rw [Memoria.inicializaMemoria, hM.prev_setPrev hR hM.zero, if_pos rfl]
  · rw [Memoria.inicializaMemoria, hM.next_setPrev hR, hM.next_setNext hR hM.zero, if_pos rfl]
  · simpa using ha
  · intro x hx
    obtain rfl := List.mem_singleton.mp hx
    rw [Memoria.inicializaMemoria, hM.tam_setPrev hR, hM.tam_setNext hR,
      hM.tam_setTam hR (inteiro_wrap _), if_pos rfl]
  · simp
  · simpa using hR
  · simpa using hW

theorem Rep.exato (hM : Acesso M R W) (h : Rep M R W lista m (xs ++ (a, size) :: ys))
    (hs : Positivo size) :
    Efeito M (xs ++ (a, size) :: ys) vivos (.aloca size) (xs ++ (a, -size) :: ys)
      ((M.avanca a, size) :: vivos) ∧
    Rep M R W lista (M.setTam m a (wrap (-size))) (xs ++ (a, -size) :: ys) := by
  obtain ⟨hpos, hlt⟩ := hs
  have hneg : Inteiro (-size) := ⟨by omega, by omega⟩
  rw [wrap_of_inteiro hneg]
  exact ⟨.exato hpos, h.setTam hM hneg⟩

theorem Rep.solta {tot : ℤ} (hM : Acesso M R W) (h : Rep M R W lista m bs)
    (hl : Livro M tot bs vivos) (htot : tot < 2 ^ 31) (hp : (p, size) ∈ vivos)
    (hm : M.meuDesaloca m p = .ok m') :
    ∃ bs', Efeito M bs vivos (.desaloca p) bs' (vivos.erase (p, size)) ∧
      Rep M R W lista m' bs' ∧ M.Escritas m m' := by
  obtain ⟨a, ha, hs, rfl⟩ := mem_ocupados.mp (hl.vivos.mem_iff.mp hp)
  obtain ⟨xs, ys, rfl⟩ := List.append_of_mem ha
  have hneg : -size < 0 := by omega
  obtain ⟨m'', hm'', hw, hrep⟩ := h.meuDesaloca hM (hl.total.trans_lt htot) hneg
  obtain rfl : m'' = m' := Except.ok.inj (hm''.symm.trans hm)
  refine ⟨_, ?_, hrep, hw⟩
  have he : Efeito M (xs ++ (a, -size) :: ys) vivos (.desaloca (M.avanca a))
      (Mmu.solta xs (a, - -size) ys) (vivos.erase (M.avanca a, - -size)) := .solta hneg
  rwa [neg_neg] at he ⊢

theorem Livro.nodup {tot : ℤ} (hM : Acesso M R W) (h : Rep M R W lista m bs)
    (hl : Livro M tot bs vivos) : (vivos.map Prod.fst).Nodup := by
  have hrecua : ((ocupados M bs).map Prod.fst).map M.recua =
      (bs.filter fun x ↦ x.2 < 0).map Prod.fst := by
    rw [ocupados, List.map_map, List.map_map]
    refine List.map_congr_left fun x hx ↦ ?_
    exact hM.recua_avanca (h.word x.1 (List.mem_map_of_mem (List.mem_of_mem_filter hx)))
  rw [(hl.vivos.map Prod.fst).nodup_iff]
  refine List.Nodup.of_map M.recua ?_
  rw [hrecua]
  exact h.nodup.sublist (List.filter_sublist.map Prod.fst)

end SistemasOperacionais.Mmu
