import SistemasOperacionais.GerenciaMemoria.Mmu.Calls

/-!
# The bookkeeping of `MMU.c`

With every header a record of its own, the calls follow the block machine as long as the sum `size +
hole_size` in the test of `meu_aloca` is an `int`. Such runs keep the list doubly linked, its sizes
adding up to the size of the arena, the occupied blocks equal to the live ones and free blocks
apart; when nothing is live the whole arena is one free block again.

A larger request makes the sum negative, so the first block of the list appears to be large enough
whatever its size is, and the block split off it claims more bytes than the arena has.
-/

namespace SistemasOperacionais.Mmu

open Foundations

/-! ## Steps over records -/

/-- The memory holds a list of blocks that satisfies everything the block machine maintains, and the
handles in use are below the next one to be given out. -/
structure Escriturado (tot : ℤ) (S : Sistema Registros) (bs : List (ℕ × ℤ)) : Prop where
  rep : Rep registros (fun _ _ ↦ True) (fun _ ↦ True) S.holeList S.mem bs
  novo : ∀ a ∈ bs.map Prod.fst, a < S.mem.novo
  livro : Livro registros tot bs S.vivos
  alternado : Alternado bs

/-- The request does not make `size + hole_size` overflow. -/
def NaoTransborda (_ : Sistema Registros) : Op → Prop
  | .aloca size => size + holeSize < 2 ^ 31
  | .desaloca _ => True

theorem novo_of_escritas {m m' : Registros} (h : registros.Escritas m m') : m'.novo = m.novo := by
  induction h with
  | refl => rfl
  | setTam a v _ ih => exact ih
  | setNext a v _ ih => exact ih
  | setPrev a v _ ih => exact ih

namespace Escriturado

variable {tot size t : ℤ} {S S' : Sistema Registros} {bs xs ys : List (ℕ × ℤ)} {a : ℕ} {op : Op}

theorem novo_pos (h : Escriturado tot S (xs ++ (a, t) :: ys)) : 0 < S.mem.novo :=
  Nat.zero_lt_of_lt (h.novo a (by simp))

theorem exists_divide (h : Escriturado tot S (xs ++ (a, t) :: ys)) (size : ℤ) :
    ∃ m, registros.divide S.mem a size = .ok (S.mem.novo, m) ∧ m.novo = S.mem.novo + 1 ∧
      Rep registros (fun _ _ ↦ True) (fun _ ↦ True) S.holeList m
        (xs ++ (a, wrap (t - size - holeSize)) :: (S.mem.novo, wrap (-size)) :: ys) := by
  have hnovo : S.mem.novo ∉ (xs ++ (a, t) :: ys).map Prod.fst :=
    fun hmem ↦ lt_irrefl _ (h.novo _ hmem)
  have hpos : registros.corte S.mem a size ≠ 0 := h.novo_pos.ne'
  obtain ⟨m, hm, hw, hrep⟩ := h.rep.divide acesso_registros hpos trivial hnovo
    (fun _ _ ↦ ⟨trivial, trivial⟩) trivial
  exact ⟨m, hm, novo_of_escritas hw, hrep⟩

theorem divide {r : ℕ × Registros} (h : Escriturado tot S (xs ++ (a, t) :: ys))
    (hr : registros.divide S.mem a size = .ok r) :
    r.1 = S.mem.novo ∧ r.2.novo = S.mem.novo + 1 ∧
      Rep registros (fun _ _ ↦ True) (fun _ ↦ True) S.holeList r.2
        (xs ++ (a, wrap (t - size - holeSize)) :: (S.mem.novo, wrap (-size)) :: ys) := by
  obtain ⟨m, hm, hnovo, hrep⟩ := h.exists_divide size
  obtain rfl := Except.ok.inj (hr.symm.trans hm)
  exact ⟨rfl, hnovo, hrep⟩

theorem efeito_divide {r : ℕ × Registros} (htot : tot < 2 ^ 31)
    (h : Escriturado tot S (xs ++ (a, t) :: ys)) (hs : Positivo size)
    (hg : size + holeSize < 2 ^ 31) (hlt : wrap (size + holeSize) < t)
    (hr : registros.divide S.mem a size = .ok r) :
    ∃ bs', Efeito registros (xs ++ (a, t) :: ys) S.vivos (.aloca size) bs'
        ((r.1, size) :: S.vivos) ∧
      Escriturado tot ⟨r.2, S.holeList, (r.1, size) :: S.vivos⟩ bs' := by
  obtain ⟨hc, hnovo, hrep⟩ := h.divide hr
  obtain ⟨hpos, -⟩ := hs
  have ht := h.livro.abs_tam_le (x := (a, t)) (by simp)
  have ht' := le_abs_self t
  simp only [holeSize_eq] at hg hlt ht
  rw [wrap_of_inteiro ⟨by omega, by omega⟩] at hlt
  rw [wrap_of_inteiro ⟨by rw [holeSize_eq]; omega, by rw [holeSize_eq]; omega⟩,
    wrap_of_inteiro (x := -size) ⟨by omega, by omega⟩, ← hc] at hrep
  have he : Efeito registros (xs ++ (a, t) :: ys) S.vivos (.aloca size)
      (xs ++ (a, t - size - holeSize) :: (r.1, -size) :: ys) ((r.1, size) :: S.vivos) :=
    .divide hpos hlt
  refine ⟨_, he, hrep, fun b hb ↦ ?_, h.livro.efeito he, h.alternado.efeito he⟩
  -- the new record is the only one that was not below `novo` before
  have hcases : b = r.1 ∨ b ∈ (xs ++ (a, t) :: ys).map Prod.fst := by
    simp only [List.map_append, List.map_cons, List.mem_append, List.mem_cons] at hb ⊢
    tauto
  rw [hnovo, Nat.lt_succ_iff]
  rcases hcases with rfl | hb
  · exact hc.le
  · exact (h.novo b hb).le

theorem passo (htot : tot < 2 ^ 31) (h : Escriturado tot S bs) (hg : NaoTransborda S op)
    (hs : Passo registros Positivo S op S') :
    ∃ bs', Efeito registros bs S.vivos op bs' S'.vivos ∧ Escriturado tot S' bs' := by
  cases hs with
  | aloca hok hp hm =>
    rcases h.rep.meuAloca_cases hm with ⟨-, hr⟩ |
      ⟨xs, a, t, ys, rfl, -, ⟨rfl, hr⟩ | ⟨-, hlt, hdiv⟩⟩
    · exact absurd (Prod.mk.inj hr).1 hp
    · cases hr
      obtain ⟨he, hrep⟩ := h.rep.exato acesso_registros hok
      refine ⟨_, he, hrep, fun b hb ↦ ?_, h.livro.efeito he, h.alternado.efeito he⟩
      exact h.novo b (by simpa using hb)
    · exact h.efeito_divide htot hok hg hlt hdiv
  | recusa hok hm =>
    rcases h.rep.meuAloca_cases hm with ⟨-, hr⟩ |
      ⟨xs, a, t, ys, rfl, -, ⟨rfl, hr⟩ | ⟨-, -, hdiv⟩⟩
    · cases hr
      exact ⟨bs, .recusa, h⟩
    · exact absurd (Prod.mk.inj hr).1.symm (h.rep.ne_zero (a := a) (by simp))
    · exact absurd (h.divide hdiv).1 h.novo_pos.ne
  | desaloca hp hm =>
    obtain ⟨bs', he, hrep, hw⟩ := h.rep.solta acesso_registros h.livro htot hp hm
    refine ⟨bs', he, hrep, fun b hb ↦ ?_, h.livro.efeito he, h.alternado.efeito he⟩
    exact (h.novo b (he.sublist.subset hb)).trans_eq (novo_of_escritas hw).symm

/-- **No call gets stuck**: requests of any positive size return, and so do releases of live
blocks. -/
theorem exists_passo (htot : tot < 2 ^ 31) (h : Escriturado tot S bs) :
    (∀ size, Positivo size → ∃ S', Passo registros Positivo S (.aloca size) S') ∧
      ∀ x ∈ S.vivos, ∃ S', Passo registros Positivo S (.desaloca x.1) S' := by
  constructor
  · intro size hs
    have hdiv : ∀ a ∈ bs.map Prod.fst, ∃ r, registros.divide S.mem a size = .ok r := by
      intro a ha
      obtain ⟨⟨a, t⟩, hx, rfl⟩ := List.mem_map.mp ha
      obtain ⟨xs, ys, rfl⟩ := List.append_of_mem hx
      obtain ⟨m, hm, -⟩ := h.exists_divide size
      exact ⟨_, hm⟩
    obtain ⟨⟨p, m⟩, hr⟩ := Memoria.alocaLoop_returns h.rep.chain.chain (Nat.lt_succ_self _) hdiv
    by_cases hp : p = 0
    · exact ⟨_, .recusa hs (hp ▸ hr)⟩
    · exact ⟨_, .aloca hs hp hr⟩
  · rintro ⟨p, size⟩ hx
    obtain ⟨a, ha, hs, rfl⟩ := mem_ocupados.mp (h.livro.vivos.mem_iff.mp hx)
    obtain ⟨xs, ys, rfl⟩ := List.append_of_mem ha
    obtain ⟨m, hm, -⟩ := h.rep.meuDesaloca acesso_registros (h.livro.total.trans_lt htot)
      (neg_neg_of_pos hs)
    exact ⟨_, .desaloca hx hm⟩

theorem inicial {n : ℤ} {lixo : Registros} (hn : holeSize < n) (hn' : n < 2 ^ 31) (ha : 0 < a)
    (hnovo : a < lixo.novo) :
    Escriturado n (inicial registros lixo a n) [(a, n - holeSize)] := by
  rw [holeSize_eq] at hn
  have htam : wrap (tamanho n - holeSize) = n - holeSize := by
    rw [tamanho, if_neg (by rw [holeSize_eq]; omega)]
    exact wrap_of_inteiro ⟨by rw [holeSize_eq]; omega, by rw [holeSize_eq]; omega⟩
  have hrep := rep_inicializaMemoria acesso_registros lixo n trivial trivial ha.ne'
  rw [htam] at hrep
  refine ⟨hrep, ?_, ⟨?_, ?_⟩, ⟨?_, List.isChain_singleton _⟩⟩
  · simpa [Mmu.inicial, Memoria.inicializaMemoria, registros] using hnovo
  · rw [soma_cons, soma_nil, holeSize_eq, abs_of_pos (by simp only; omega)]
    simp
  · rw [ocupados_cons_pos (by rw [holeSize_eq]; simp only; omega)]
    exact List.Perm.refl _
  · simp only [List.mem_singleton, forall_eq, holeSize_eq]
    omega

end Escriturado

/-! ## Coherent states -/

/-- The list `l` found by following `next` from `hole_list` accounts for `n` bytes: it is doubly
linked, its blocks with a negative `tam` are the live ones, no two free ones are neighbours, and
with nothing live it is a single free block. -/
structure Coerente (n : ℤ) (S : Sistema Registros) (l : List ℕ) : Prop where
  linked : DChain 0 (registros.next S.mem) (registros.prev S.mem) S.holeList l
  total : (l.map fun a ↦ |registros.tam S.mem a| + holeSize).sum = n
  vivos : ∀ p, p ∈ S.vivos.map Prod.fst ↔ p ∈ l ∧ registros.tam S.mem p < 0
  separado : l.IsChain fun a b ↦ ¬(0 < registros.tam S.mem a ∧ 0 < registros.tam S.mem b)
  vazio : S.vivos = [] → l = [S.holeList] ∧ registros.tam S.mem S.holeList = n - holeSize

section

variable {n : ℤ} {S S' : Sistema Registros} {bs : List (ℕ × ℤ)} {op : Op}

theorem soma_eq_of_rep {μ : Type} {M : Memoria μ} {R : ℕ → ℕ → Prop} {W : ℕ → Prop} {m : μ}
    {lista : ℕ} (h : Rep M R W lista m bs) :
    ((bs.map Prod.fst).map fun a ↦ |M.tam m a| + holeSize).sum = soma bs := by
  rw [List.map_map, soma]
  refine congrArg List.sum (List.map_congr_left fun x hx ↦ ?_)
  rw [Function.comp_apply, h.tam_eq x hx]

theorem Escriturado.coerente (hn : 0 < n) (h : Escriturado n S bs) :
    Coerente n S (bs.map Prod.fst) := by
  refine ⟨h.rep.chain, (soma_eq_of_rep h.rep).trans h.livro.total, fun p ↦ ?_, ?_, fun hv ↦ ?_⟩
  · rw [(h.livro.vivos.map Prod.fst).mem_iff, List.mem_map]
    constructor
    · rintro ⟨⟨p, s⟩, hp, rfl⟩
      obtain ⟨p, hmem, hs, rfl⟩ := mem_ocupados.mp hp
      have htam := h.rep.tam_eq _ hmem
      exact ⟨List.mem_map.mpr ⟨_, hmem, rfl⟩, by simp only [registros] at htam ⊢; omega⟩
    · rintro ⟨hp, hneg⟩
      obtain ⟨⟨p, t⟩, hmem, rfl⟩ := List.mem_map.mp hp
      rw [h.rep.tam_eq _ hmem] at hneg
      exact ⟨(p, -t), mem_ocupados.mpr ⟨p, by simpa using hmem, by simpa using hneg, rfl⟩, rfl⟩
  · rw [List.isChain_map]
    refine h.alternado.chain.imp_of_mem_imp fun x y hx hy hxy ↦ ?_
    rwa [h.rep.tam_eq x hx, h.rep.tam_eq y hy]
  · have hbs : bs ≠ [] := by
      rintro rfl
      exact hn.ne h.livro.total
    obtain ⟨a, rfl⟩ := h.alternado.eq_singleton (hv ▸ h.livro) hbs
    obtain ⟨e, rfl, -⟩ := h.rep.chain.dseg
    exact ⟨rfl, h.rep.tam_eq _ (List.mem_singleton_self _)⟩

/-- For a request that overflows, any block appears to be large enough. -/
theorem Escriturado.lt_of_overflow {size : ℤ} (hn : n < 2 ^ 31) (h : Escriturado n S bs)
    (hlo : 2 ^ 31 ≤ size + holeSize) (hhi : size < 2 ^ 31) {x : ℕ × ℤ} (hx : x ∈ bs) :
    x.2 ≠ size ∧ wrap (size + holeSize) < x.2 := by
  have ht := h.livro.abs_tam_le hx
  obtain ⟨hneg, hpos⟩ := abs_le.mp (le_refl |x.2|)
  rw [holeSize_eq] at *
  rw [wrap_of_overflow hlo (by omega)]
  exact ⟨by omega, by omega⟩

theorem Escriturado.not_coerente (hn0 : 0 < n) (hn : n < 2 ^ 31) (h : Escriturado n S bs)
    (hg : ¬NaoTransborda S op) (hs : Passo registros Positivo S op S') (l : List ℕ) :
    ¬Coerente n S' l := by
  cases hs with
  | desaloca => exact absurd trivial hg
  | recusa hok hm =>
    rw [NaoTransborda, not_lt] at hg
    rcases h.rep.meuAloca_cases hm with ⟨hall, -⟩ |
      ⟨xs, a, t, ys, rfl, -, ⟨-, hr⟩ | ⟨-, -, hdiv⟩⟩
    · -- the wrapped sum is below every size, so the first block serves the request
      obtain ⟨x, hx⟩ : ∃ x, x ∈ bs := List.exists_mem_of_ne_nil bs fun hnil ↦
        hn0.ne (by rw [← h.livro.total, hnil, soma_nil])
      exact absurd (Or.inr (h.lt_of_overflow hn hg hok.2 hx).2) (hall x hx)
    · exact absurd (Prod.mk.inj hr).1.symm (h.rep.ne_zero (a := a) (by simp))
    · exact absurd (h.divide hdiv).1 h.novo_pos.ne
  | @aloca size k p m hok hp hm =>
    rw [NaoTransborda, not_lt] at hg
    rcases h.rep.meuAloca_cases hm with ⟨-, hr⟩ |
      ⟨xs, a, t, ys, rfl, -, ⟨ht, -⟩ | ⟨-, -, hdiv⟩⟩
    · exact absurd (Prod.mk.inj hr).1 hp
    · exact absurd ht (h.lt_of_overflow hn hg hok.2 (x := (a, t)) (by simp)).1
    · obtain ⟨-, -, hrep⟩ := h.divide hdiv
      intro hc
      -- the new record alone is larger than the memory, so the sum cannot be `n`
      have hsoma := soma_eq_of_rep hrep
      rw [hrep.chain.chain.unique hc.linked.chain, hc.total] at hsoma
      simp only [soma_append, soma_cons] at hsoma
      have hxs := soma_nonneg xs
      have hys := soma_nonneg ys
      have hrest := abs_nonneg (wrap (t - size - holeSize))
      obtain ⟨hpos, hlt⟩ := hok
      rw [wrap_of_inteiro (x := -size) ⟨by omega, by omega⟩, abs_neg, abs_of_pos hpos] at hsoma
      rw [holeSize_eq] at *
      omega

end

/-- Memory before anything is written to it, with handle 1 given to the arena. -/
def memoriaVazia : Registros := ⟨fun _ ↦ ⟨0, 0, 0⟩, 2⟩

/-- For arenas larger than a header: the blocks stay coherent in every state of a run exactly when
no request of the run makes `size + hole_size` overflow. -/
theorem coerente_everywhere_iff {n : ℤ} {lixo : Registros} {a : ℕ} {S : Sistema Registros}
    {hist : List (Sistema Registros × Op)} (hn : holeSize < n) (hn' : n < 2 ^ 31) (ha : 0 < a)
    (hnovo : a < lixo.novo)
    (tr : Trace (Passo registros Positivo) (inicial registros lixo a n) hist S) :
    Trace.Everywhere (fun S ↦ ∃ l, Coerente n S l) hist S ↔ Trace.Guarded NaoTransborda hist := by
  have hpos : 0 < n := lt_trans (by rw [holeSize_eq]; norm_num) hn
  refine Trace.everywhere_iff (I := fun S ↦ ∃ bs, Escriturado n S bs)
    ⟨_, Escriturado.inicial hn hn' ha hnovo⟩ ?_ ?_ ?_ tr
  · rintro S ⟨bs, h⟩
    exact ⟨_, h.coerente hpos⟩
  · rintro S op S' ⟨bs, h⟩ hg hs
    obtain ⟨bs', -, h'⟩ := h.passo hn' hg hs
    exact ⟨bs', h'⟩
  · rintro S op S' ⟨bs, h⟩ hg hs ⟨l, hl⟩
    exact h.not_coerente hpos hn' hg hs l hl

/-- The calls of `main` on an arena of 100 bytes, and both blocks released at the end: the states
are coherent, and the last one has a single block of 76 bytes. -/
theorem coerente_everywhere_iff_main : ∃ hist S,
    Trace (Passo registros Positivo) (inicial registros memoriaVazia 1 100) hist S ∧
    hist.map Prod.snd =
      [.aloca 12, .aloca 12, .desaloca 3, .aloca 5, .desaloca 2, .desaloca 4] ∧
    S.vivos = [] ∧ Trace.Everywhere (fun S ↦ ∃ l, Coerente 100 S l) hist S := by
  have hrun : (execute (executa registros Positivo 8) (inicial registros memoriaVazia 1 100)
      [.aloca 12, .aloca 12, .desaloca 3, .aloca 5, .desaloca 2, .desaloca 4]).map
      (fun S ↦ S.vivos) = some [] := by decide
  obtain ⟨S, hS, hvivos⟩ := Option.map_eq_some_iff.mp hrun
  obtain ⟨hist, tr, hops⟩ := exists_trace_of_execute passo_of_executa hS
  refine ⟨hist, S, tr, hops, hvivos, (coerente_everywhere_iff (by decide) (by decide) (by decide)
    (by decide) tr).mpr fun x hx ↦ ?_⟩
  have hop : x.2 ∈ hist.map Prod.snd := List.mem_map_of_mem hx
  rw [hops] at hop
  simp only [List.mem_cons, List.not_mem_nil, or_false] at hop
  rcases hop with h | h | h | h | h | h <;> rw [h] <;> simp [NaoTransborda]

/-- A request for 2147483647 bytes on an arena of 100 is granted: `size + hole_size` comes out
negative, and the list then claims to hold blocks of 2147483595 and 2147483647 bytes. -/
theorem coerente_fails : ∃ S,
    executa registros Positivo 8 (inicial registros memoriaVazia 1 100) (.aloca 2147483647) =
      some S ∧
    Reachable (Passo registros Positivo) (inicial registros memoriaVazia 1 100) S ∧
    registros.tam S.mem 1 = -2147483595 ∧ registros.next S.mem 1 = 2 ∧
    registros.tam S.mem 2 = -2147483647 ∧ ∀ l, ¬Coerente 100 S l := by
  have hrun : (executa registros Positivo 8 (inicial registros memoriaVazia 1 100)
      (.aloca 2147483647)).map (fun S ↦ (registros.tam S.mem 1, registros.next S.mem 1,
        registros.tam S.mem 2)) = some (-2147483595, 2, -2147483647) := by decide
  obtain ⟨S, hS, hobs⟩ := Option.map_eq_some_iff.mp hrun
  simp only [Prod.mk.injEq] at hobs
  have hs := passo_of_executa _ _ _ hS
  refine ⟨S, hS, ⟨_, .snoc .nil hs⟩, hobs.1, hobs.2.1, hobs.2.2, fun l ↦ ?_⟩
  exact (Escriturado.inicial (by decide) (by decide) (by decide) (by decide)).not_coerente
    (by decide) (by decide) (by simp [NaoTransborda]) hs l

/-- **Every call returns**, as long as no request has overflowed. -/
theorem exists_passo_of_trace {n : ℤ} {lixo : Registros} {a : ℕ} {S : Sistema Registros}
    {hist : List (Sistema Registros × Op)} (hn : holeSize < n) (hn' : n < 2 ^ 31) (ha : 0 < a)
    (hnovo : a < lixo.novo) (hg : Trace.Guarded NaoTransborda hist)
    (tr : Trace (Passo registros Positivo) (inicial registros lixo a n) hist S) :
    (∀ size, Positivo size → ∃ S', Passo registros Positivo S (.aloca size) S') ∧
      ∀ x ∈ S.vivos, ∃ S', Passo registros Positivo S (.desaloca x.1) S' := by
  obtain ⟨bs, h⟩ := tr.invariant_of_guard (I := fun S ↦ ∃ bs, Escriturado n S bs)
    ⟨_, .inicial hn hn' ha hnovo⟩ (by
      rintro S op S' ⟨bs, h⟩ hg hs
      obtain ⟨bs', -, h'⟩ := h.passo hn' hg hs
      exact ⟨bs', h'⟩) hg
  exact h.exists_passo hn'

theorem exists_passo_of_trace_main : ∃ S,
    Reachable (Passo registros Positivo) (inicial registros memoriaVazia 1 100) S ∧
      ∃ S', Passo registros Positivo S (.desaloca 2) S' := by
  have hrun : (executa registros Positivo 8 (inicial registros memoriaVazia 1 100)
      (.aloca 12)).map (fun S ↦ S.vivos) = some [(2, 12)] := by decide
  obtain ⟨S, hS, hvivos⟩ := Option.map_eq_some_iff.mp hrun
  have tr := Trace.nil.snoc (passo_of_executa _ _ _ hS)
  exact ⟨S, ⟨_, tr⟩, (exists_passo_of_trace (by decide) (by decide) (by decide) (by decide)
    (by simp [Trace.Guarded, NaoTransborda]) tr).2 (2, 12) (by simp [hvivos])⟩

end SistemasOperacionais.Mmu
