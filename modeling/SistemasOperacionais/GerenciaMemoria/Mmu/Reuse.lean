import SistemasOperacionais.GerenciaMemoria.Mmu.Layout

/-!
# Blocks of `MMU.c` that are handed out twice

The search of `meu_aloca` compares `tam` with the request as it is, and an occupied block has the
negated size in `tam`: a negative request therefore finds occupied blocks. Requests that are zero,
or that overflow, and splits that put the new header over another one lead to the same end by other
ways. This module shows that there are no further ones: when the request that is served is positive
and its header falls between the headers around it, no pointer is ever handed out while it is live.

A split puts the new block `hole_size` too low, so addresses drift down from where the sizes say
they should be, never up. What carries the proof is that headers stay in increasing order without
overlapping and that no header is above the place its predecessors' sizes give it.
-/

namespace SistemasOperacionais.Mmu

open Foundations

/-! ## Headers in order -/

/-- No header lies above the address that the sizes before it give it, counted from `hi`. -/
def Limitado : ℤ → List (ℕ × ℤ) → Prop
  | _, [] => True
  | hi, x :: bs => x.1 ≤ hi ∧ Limitado (hi + (|x.2| + holeSize)) bs

section

variable {hi : ℤ} {x : ℕ × ℤ} {bs bs' xs ys : List (ℕ × ℤ)}

@[simp] theorem limitado_nil : Limitado hi [] := trivial

@[simp] theorem limitado_cons :
    Limitado hi (x :: bs) ↔ x.1 ≤ hi ∧ Limitado (hi + (|x.2| + holeSize)) bs := Iff.rfl

theorem limitado_append :
    Limitado hi (xs ++ ys) ↔ Limitado hi xs ∧ Limitado (hi + soma xs) ys := by
  induction xs generalizing hi with
  | nil => simp
  | cons x xs ih => simp [ih, and_assoc, add_assoc]

theorem limitado_funde (h : Funde bs bs') (hbs : Limitado hi bs) : Limitado hi bs' := by
  obtain ⟨hu, hw⟩ := h
  rw [limitado_append, limitado_cons, limitado_cons] at hbs
  rw [limitado_append, limitado_cons]
  obtain ⟨hxs, hp, -, hys⟩ := hbs
  refine ⟨hxs, hp, ?_⟩
  simp only [abs_of_pos hu, abs_of_pos hw] at hys
  simp only [holeSize_eq] at hys ⊢
  rw [abs_of_pos (by omega)]
  convert hys using 1
  ring

end

/-- The headers lie in the order of the list, do not overlap and have not drifted up. -/
structure Ordenado (base : ℕ) (tot : ℤ) (S : Sistema ByteMemory) (bs : List (ℕ × ℤ)) : Prop where
  rep : Rep bytes Separados (· < 2 ^ 64) S.holeList S.mem bs
  livro : Livro bytes tot bs S.vivos
  gap : (bs.map Prod.fst).Pairwise fun a b ↦ a + 24 ≤ b
  limite : Limitado base bs

/-- If the request is served, by the first block `a` that serves, then it is positive, it does not
overflow, and `a` is taken as a whole or the header split off it falls between that of `a` and the
next one. -/
def Cabe (S : Sistema ByteMemory) : Op → Prop
  | .aloca size => ∀ l a, Seg (bytes.next S.mem) S.holeList l a →
      (∀ b ∈ l, b ≠ 0 ∧ ¬Memoria.Serve size (bytes.tam S.mem b)) → a ≠ 0 →
      Memoria.Serve size (bytes.tam S.mem a) →
      0 < size ∧ size + holeSize < 2 ^ 31 ∧
      (bytes.tam S.mem a = size ∨ size + 2 * holeSize ≤ bytes.tam S.mem a ∧
        (bytes.next S.mem a = 0 ∨ a + bytes.tam S.mem a - size ≤ bytes.next S.mem a))
  | .desaloca _ => True

namespace Ordenado

variable {base a : ℕ} {tot t n size : ℤ} {S S' : Sistema ByteMemory} {op : Op}
  {bs xs ys : List (ℕ × ℤ)}

theorem gap_mid (h : Ordenado base tot S (xs ++ (a, t) :: ys)) :
    (∀ x ∈ xs, x.1 + 24 ≤ a) ∧ ∀ y ∈ ys, a + 24 ≤ y.1 := by
  have hgap := h.gap
  rw [List.pairwise_map, List.pairwise_append, List.pairwise_cons] at hgap
  exact ⟨fun x hx ↦ hgap.2.2 x hx (a, t) List.mem_cons_self, hgap.2.1.1⟩

theorem cabe (h : Ordenado base tot S (xs ++ (a, t) :: ys)) (hg : Cabe S (.aloca size))
    (hxs : ∀ x ∈ xs, ¬Memoria.Serve size x.2) (ht : Memoria.Serve size t) :
    0 < size ∧ size + holeSize < 2 ^ 31 ∧ (t = size ∨ size + 2 * holeSize ≤ t ∧
      ∀ y ∈ ys, a + t - size ≤ (y.1 : ℤ)) := by
  have hseg := h.rep.chain.chain.seg
  rw [List.map_append, List.map_cons] at hseg
  obtain ⟨r, hseg', rfl, -⟩ := seg_append.mp hseg
  have hpre : ∀ b ∈ xs.map Prod.fst, b ≠ 0 ∧ ¬Memoria.Serve size (bytes.tam S.mem b) := by
    intro b hb
    obtain ⟨x, hx, rfl⟩ := List.mem_map.mp hb
    exact ⟨h.rep.ne_zero (by simp [hb]), h.rep.tam_eq x (by simp [hx]) ▸ hxs x hx⟩
  obtain ⟨hpos, hlt, hcase⟩ :=
    hg _ r hseg' hpre (h.rep.ne_zero (by simp)) (h.rep.tam_mid.symm ▸ ht)
  rw [h.rep.tam_mid, h.rep.links.1] at hcase
  refine ⟨hpos, hlt, hcase.imp_right fun ⟨hle, hnext⟩ ↦ ⟨hle, fun y hy ↦ ?_⟩⟩
  cases ys with
  | nil => simp at hy
  | cons z ys =>
    have hz : (r : ℤ) + t - size ≤ z.1 := by
      refine hnext.resolve_left ?_
      exact h.rep.ne_zero (by simp)
    rcases List.mem_cons.mp hy with rfl | hy
    · exact hz
    · have hgap := h.gap
      rw [List.pairwise_map, List.pairwise_append, List.pairwise_cons, List.pairwise_cons] at hgap
      have := hgap.2.1.2.1 y hy
      omega

/-- Where the sizes put the end of a block is inside the arena, and the block ends no later. -/
theorem end_le (h : Ordenado base tot S (xs ++ (a, t) :: ys)) :
    a + |t| + holeSize ≤ base + tot := by
  obtain ⟨-, ha, -⟩ := limitado_append.mp h.limite
  have htot := h.livro.total
  rw [soma_append, soma_cons] at htot
  have hys := soma_nonneg ys
  simp only at ha htot
  omega

theorem limite_neg (h : Ordenado base tot S (xs ++ (a, t) :: ys)) :
    Limitado base (xs ++ (a, -t) :: ys) := by
  have hlim := h.limite
  rw [limitado_append, limitado_cons] at hlim ⊢
  rwa [abs_neg]

theorem exato (hend : base + tot < 2 ^ 64) (h : Ordenado base tot S (xs ++ (a, size) :: ys))
    (hs : Positivo size) :
    bytes.avanca a ≠ 0 ∧ ∃ bs', Efeito bytes (xs ++ (a, size) :: ys) S.vivos (.aloca size) bs'
        ((bytes.avanca a, size) :: S.vivos) ∧
      Ordenado base tot ⟨bytes.setTam S.mem a (wrap (-size)), S.holeList,
        (bytes.avanca a, size) :: S.vivos⟩ bs' := by
  obtain ⟨he, hrep⟩ := h.rep.exato acesso_bytes hs
  have hnull : bytes.avanca a ≠ 0 := by
    have hle := h.end_le
    have habs := abs_nonneg size
    simp only [bytes, endereco, holeSize_eq] at hle ⊢
    omega
  exact ⟨hnull, _, he, hrep, h.livro.efeito he, by simpa using h.gap, h.limite_neg⟩

theorem divide {r : ℕ × ByteMemory} (htot : tot < 2 ^ 31) (hend : base + tot < 2 ^ 64)
    (h : Ordenado base tot S (xs ++ (a, t) :: ys)) (hs : 0 < size)
    (ht : size + 2 * holeSize ≤ t) (hys : ∀ y ∈ ys, a + t - size ≤ (y.1 : ℤ))
    (hr : bytes.divide S.mem a size = .ok r) :
    r.1 ≠ 0 ∧ ∃ bs', Efeito bytes (xs ++ (a, t) :: ys) S.vivos (.aloca size) bs'
        ((r.1, size) :: S.vivos) ∧
      Ordenado base tot ⟨r.2, S.holeList, (r.1, size) :: S.vivos⟩ bs' := by
  have hle := h.end_le
  have hmax := h.livro.abs_tam_le (x := (a, t)) (by simp)
  obtain ⟨hxs, -⟩ := h.gap_mid
  rw [holeSize_eq] at hle hmax ht
  rw [abs_of_pos (by omega)] at hle hmax
  set c := bytes.corte S.mem a size with hc
  have hcval : (c : ℤ) = a + t - size - 24 := by
    rw [hc, corte_bytes, h.rep.tam_mid, endereco, holeSize_eq]
    omega
  have hav : bytes.avanca c = c + 24 := by
    simp only [bytes, endereco, holeSize_eq]
    omega
  -- the new header lies after the headers up to `a` and before the others
  have hsep : ∀ b ∈ (xs ++ (a, t) :: ys).map Prod.fst, b + 24 ≤ c ∨ c + 24 ≤ b := by
    intro b hb
    obtain ⟨x, hx, rfl⟩ := List.mem_map.mp hb
    rcases List.mem_append.mp hx with hx | hx
    · have := hxs x hx
      omega
    · rcases List.mem_cons.mp hx with rfl | hx
      · simp only
        omega
      · have := hys x hx
        omega
  obtain ⟨m, hm, -, hrep⟩ := h.rep.divide acesso_bytes (by omega) (by omega : c < 2 ^ 64)
    (fun hmem ↦ by have := hsep c hmem; omega)
    (fun b hb ↦ ⟨Or.inr (hsep b hb).symm, Or.inr (hsep b hb)⟩) (Or.inl rfl)
  obtain rfl := Except.ok.inj (hr.symm.trans hm)
  have htam : wrap (t - size - holeSize) = t - size - holeSize :=
    wrap_of_inteiro ⟨by rw [holeSize_eq]; omega, by rw [holeSize_eq]; omega⟩
  rw [← hc, htam, wrap_of_inteiro ⟨by omega, by omega⟩] at hrep
  have he : Efeito bytes (xs ++ (a, t) :: ys) S.vivos (.aloca size)
      (xs ++ (a, t - size - holeSize) :: (c, -size) :: ys) ((bytes.avanca c, size) :: S.vivos) :=
    .divide hs (by rw [holeSize_eq]; omega)
  have hnull : bytes.avanca c ≠ 0 := by
    rw [hav]
    omega
  refine ⟨hnull, _, he, hrep, h.livro.efeito he, ?_, ?_⟩
  · have hgap := h.gap
    rw [List.pairwise_map, List.pairwise_append, List.pairwise_cons] at hgap ⊢
    obtain ⟨hgxs, ⟨hga, hgys⟩, hgxy⟩ := hgap
    rw [List.pairwise_cons]
    refine ⟨hgxs, ⟨?_, fun y hy ↦ ?_, hgys⟩, fun x hx y hy ↦ ?_⟩
    · exact List.forall_mem_cons.mpr ⟨by simp only; omega, hga⟩
    · have := hys y hy
      simp only
      omega
    · rcases List.mem_cons.mp hy with rfl | hy
      · exact hxs x hx
      · rcases List.mem_cons.mp hy with rfl | hy
        · have := hxs x hx
          simp only
          omega
        · exact hgxy x hx y (List.mem_cons_of_mem _ hy)
  · obtain ⟨hlxs, ha, hlys⟩ := limitado_append.mp h.limite
    have hrest : |t - size - 24| = t - size - 24 := abs_of_pos (by omega)
    refine limitado_append.mpr ⟨hlxs, ha, ?_, ?_⟩
    · simp only [holeSize_eq, hrest] at ha ⊢
      omega
    · simp only [holeSize_eq, hrest, abs_neg, abs_of_pos hs, abs_of_pos (by omega : 0 < t)]
        at hlys ⊢
      convert hlys using 1
      ring

theorem inicial {lixo : ByteMemory} (hn : Inteiro n) (hpos : 0 ≤ n) (hb : 0 < base)
    (hend : base + tamanho n < 2 ^ 64) :
    Ordenado base (tamanho n) (inicial bytes lixo base n) [(base, tamanho n - holeSize)] :=
  have h := Unico.inicial hn hpos hb hend
  ⟨h.rep, h.livro, List.pairwise_singleton _ _, le_rfl, trivial⟩

theorem meuAloca {k : ℕ} {r : ℕ × ByteMemory} (htot : tot < 2 ^ 31) (hend : base + tot < 2 ^ 64)
    (h : Ordenado base tot S bs) (hok : Inteiro size) (hg : Cabe S (.aloca size))
    (hm : bytes.meuAloca k S.mem S.holeList size = .ok r) :
    r = (0, S.mem) ∨ r.1 ≠ 0 ∧ ∃ bs', Efeito bytes bs S.vivos (.aloca size) bs'
        ((r.1, size) :: S.vivos) ∧
      Ordenado base tot ⟨r.2, S.holeList, (r.1, size) :: S.vivos⟩ bs' := by
  rcases h.rep.meuAloca_cases hm with ⟨-, hr⟩ |
    ⟨xs, a, t, ys, rfl, hxs, ⟨rfl, rfl⟩ | ⟨hne, hlt, hdiv⟩⟩
  · exact Or.inl hr
  · obtain ⟨hpos, -⟩ := h.cabe hg hxs (Or.inl rfl)
    exact Or.inr (h.exato hend ⟨hpos, hok.2⟩)
  · obtain ⟨hpos, -, hcase⟩ := h.cabe hg hxs (Or.inr hlt)
    obtain ⟨ht, hys⟩ := hcase.resolve_left hne
    exact Or.inr (h.divide htot hend hpos ht hys hdiv)

/-- A step within the guard is a step of the block machine and keeps the headers in order. -/
theorem passo (htot : tot < 2 ^ 31) (hend : base + tot < 2 ^ 64) (h : Ordenado base tot S bs)
    (hg : Cabe S op) (hs : Passo bytes Inteiro S op S') :
    ∃ bs', Efeito bytes bs S.vivos op bs' S'.vivos ∧ Ordenado base tot S' bs' := by
  cases hs with
  | aloca hok hp hm =>
    rcases h.meuAloca htot hend hok hg hm with hr | ⟨-, h'⟩
    · exact absurd (Prod.mk.inj hr).1 hp
    · exact h'
  | recusa hok hm =>
    rcases h.meuAloca htot hend hok hg hm with hr | ⟨hnull, -⟩
    · cases hr
      exact ⟨bs, .recusa, h⟩
    · exact absurd rfl hnull
  | desaloca hp hm =>
    obtain ⟨bs', he, hrep, -⟩ := h.rep.solta acesso_bytes h.livro htot hp hm
    refine ⟨bs', he, hrep, h.livro.efeito he, h.gap.sublist he.sublist, ?_⟩
    obtain ⟨xs, ys, a, t, rfl, ht, rfl⟩ := he.of_desaloca
    exact solta_of_funde (P := Limitado base) limitado_funde (by simpa using ht) h.limite_neg

end Ordenado

/-! ## Runs -/

section Negativo

variable {n : ℤ} {base : ℕ} {S S' : Sistema ByteMemory}

/-- An arena asked for with a negative size has a single block that counts as occupied from the
start. Within the guard it serves no request. -/
theorem meuAloca_of_neg {size : ℤ} {k : ℕ} {r : ℕ × ByteMemory} (hn : n < 0)
    (hrep : Rep bytes Separados (· < 2 ^ 64) S.holeList S.mem [(base, n)])
    (hg : Cabe S (.aloca size)) (hm : bytes.meuAloca k S.mem S.holeList size = .ok r) :
    r = (0, S.mem) := by
  rcases hrep.meuAloca_cases hm with ⟨-, hr⟩ | ⟨xs, a, t, ys, hbs, -, hr⟩
  · exact hr
  obtain ⟨-, hx, -⟩ := eq_of_singleton_eq hbs
  cases hx
  have hlista : S.holeList = base := by
    obtain ⟨e, he, -⟩ := hrep.chain.dseg
    exact he
  have htam : bytes.tam S.mem base = n := hrep.tam_eq (base, n) (List.mem_singleton_self _)
  have ht : Memoria.Serve size n := hr.imp And.left fun hr ↦ hr.2.1
  -- the search stops at this block, and the guard asks it to be at least as large as the request
  obtain ⟨hpos, -, hcase⟩ :=
    hg [] base hlista (by simp) (hrep.ne_zero (by simp)) (htam.symm ▸ ht)
  rw [htam, holeSize_eq] at hcase
  rcases hcase with hcase | ⟨hcase, -⟩
  · omega
  · omega

theorem passo_of_neg {op : Op} (hn : n < 0)
    (hrep : Rep bytes Separados (· < 2 ^ 64) S.holeList S.mem [(base, n)]) (hv : S.vivos = [])
    (hg : Cabe S op) (hs : Passo bytes Inteiro S op S') : S' = S := by
  cases hs with
  | aloca _ hp hm => exact absurd (Prod.mk.inj (meuAloca_of_neg hn hrep hg hm)).1 hp
  | recusa _ hm =>
    cases meuAloca_of_neg hn hrep hg hm
    rfl
  | desaloca hp _ =>
    rw [hv] at hp
    exact absurd hp List.not_mem_nil

end Negativo

/-- The guard of a request that the block at `hole_list` already serves by a split. -/
theorem cabe_of_first {S : Sistema ByteMemory} {size t : ℤ} {nx : ℕ} (hs : 0 < size)
    (hs' : size + holeSize < 2 ^ 31) (htam : bytes.tam S.mem S.holeList = t)
    (hnext : bytes.next S.mem S.holeList = nx) (ht : size + 2 * holeSize ≤ t)
    (hnx : nx = 0 ∨ S.holeList + t - size ≤ nx) : Cabe S (.aloca size) := by
  rintro l a hseg hpre - -
  cases l with
  | nil =>
    obtain rfl : S.holeList = a := hseg
    rw [htam, hnext]
    exact ⟨hs, hs', Or.inr ⟨ht, hnx⟩⟩
  | cons b l =>
    obtain rfl : S.holeList = b := hseg.1
    refine absurd (Or.inr ?_) (hpre S.holeList List.mem_cons_self).2
    rw [holeSize_eq] at *
    rw [htam, wrap_of_inteiro ⟨by omega, by omega⟩]
    omega

/-- For every arena that `malloc` grants and every run of requests of any `int` size: if each
request that is served fits, then in every state the live pointers are pairwise different. -/
theorem vivos_nodup_everywhere {n : ℤ} {lixo : ByteMemory} {base : ℕ} {S : Sistema ByteMemory}
    {hist : List (Sistema ByteMemory × Op)} (hn : Inteiro n) (hb : 0 < base)
    (hpos : 0 ≤ tamanho n) (hend : base + tamanho n < 2 ^ 64)
    (tr : Trace (Passo bytes Inteiro) (inicial bytes lixo base n) hist S)
    (hg : Trace.Guarded Cabe hist) :
    Trace.Everywhere (fun S ↦ (S.vivos.map Prod.fst).Nodup) hist S := by
  have htot := tamanho_lt hn
  by_cases hnonneg : 0 ≤ n
  · refine (tr.everywhere_of_guard (I := fun S ↦ ∃ bs, Ordenado base (tamanho n) S bs)
      ⟨_, Ordenado.inicial hn hnonneg hb hend⟩ ?_ hg).imp ?_
    · rintro S op S' ⟨bs, h⟩ hg hs
      obtain ⟨bs', -, h'⟩ := h.passo htot hend hg hs
      exact ⟨bs', h'⟩
    · rintro S ⟨bs, h⟩
      exact h.livro.nodup acesso_bytes h.rep
  · -- a negative argument gives one block of negative size, which serves no guarded request
    have hrep := rep_inicial_neg lixo hn (not_le.mp hnonneg) hb (by omega)
    refine (tr.everywhere_of_guard (I := fun S ↦ S = inicial bytes lixo base n) rfl ?_ hg).imp ?_
    · rintro S op S' rfl hg hs
      exact passo_of_neg (not_le.mp hnonneg) hrep rfl hg hs
    · rintro S rfl
      exact List.nodup_nil

/-- Two splits of the same block. -/
theorem vivos_nodup_everywhere_two : ∃ hist S,
    Trace (Passo bytes Inteiro) (inicial bytes (fun _ ↦ 0) 4096 200) hist S ∧
    hist.map Prod.snd = [.aloca 12, .aloca 20] ∧
    Trace.Everywhere (fun S ↦ (S.vivos.map Prod.fst).Nodup) hist S := by
  have hrun : ((executa bytes Inteiro 8 (inicial bytes (fun _ ↦ 0) 4096 200) (.aloca 12)).bind
      fun S ↦ (executa bytes Inteiro 8 S (.aloca 20)).map fun _ ↦
        (S.holeList, bytes.tam S.mem S.holeList, bytes.next S.mem S.holeList)) =
      some (4096, 140, 4236) := by decide
  obtain ⟨S₁, hS₁, hrun⟩ := Option.bind_eq_some_iff.mp hrun
  obtain ⟨S₂, hS₂, hobs⟩ := Option.map_eq_some_iff.mp hrun
  simp only [Prod.mk.injEq] at hobs
  have hg₁ : Cabe (inicial bytes (fun _ ↦ 0) 4096 200) (.aloca 12) :=
    cabe_of_first (t := 176) (by decide) (by decide) (by decide) rfl (by decide)
      (Or.inl (by decide))
  have hg₂ : Cabe S₁ (.aloca 20) :=
    cabe_of_first (by decide) (by decide) hobs.2.1 hobs.2.2 (by decide)
      (Or.inr (by rw [hobs.1]; decide))
  have tr := (Trace.nil.snoc (passo_of_executa _ _ _ hS₁)).snoc (passo_of_executa _ _ _ hS₂)
  exact ⟨_, S₂, tr, rfl, vivos_nodup_everywhere (by decide) (by decide) (by decide) (by decide) tr
    (by simpa [Trace.Guarded] using ⟨hg₁, hg₂⟩)⟩

/-- A block of 12 bytes is taken, and a request for `-12` bytes returns it again. -/
theorem vivos_nodup_fails : ∃ S,
    execute (executa bytes Inteiro 8) (inicial bytes (fun _ ↦ 0) 4096 36)
      [.aloca 12, .aloca (-12)] = some S ∧
    Reachable (Passo bytes Inteiro) (inicial bytes (fun _ ↦ 0) 4096 36) S ∧
    S.vivos = [(4120, -12), (4120, 12)] ∧ ¬(S.vivos.map Prod.fst).Nodup := by
  have hrun : (execute (executa bytes Inteiro 8) (inicial bytes (fun _ ↦ 0) 4096 36)
      [.aloca 12, .aloca (-12)]).map (fun S ↦ S.vivos) = some [(4120, -12), (4120, 12)] := by
    decide
  obtain ⟨S, hS, hvivos⟩ := Option.map_eq_some_iff.mp hrun
  obtain ⟨hist, tr, -⟩ := exists_trace_of_execute passo_of_executa hS
  exact ⟨S, hS, ⟨hist, tr⟩, hvivos, by rw [hvivos]; decide⟩

end SistemasOperacionais.Mmu
