import SistemasOperacionais.GerenciaMemoria.Runs

/-!
# Where `gmsimples.c` goes wrong

Three properties that one expects of the allocator fail, each for a reason of its own. A perfect fit
at the head of the free list drops the rest of the list, because `atual->prox` is overwritten before
`listaLivres` is advanced through it. Freeing scans the list by address only and runs into `NULL`
when no free block lies above. And sizes are kept in bytes while the address of a split-off block is
computed with a scaled pointer, so that block lands outside the arena early on.

For each of them the exact condition is given: on the state before the call, for the runs that keep
the property, or on the free list, for the pointers that can be freed.
-/

namespace SistemasOperacionais.Gm

open Foundations

/-! ## The head of the free list -/

namespace Representa

variable {ts u v : List Tile} {s : Estado} {n t : ℕ}

theorem livres_eq_cons (h : Representa ts s) (hne : s.listaLivres ≠ 0) :
    ∃ l, livres s.endBaseMemoria ts = s.listaLivres :: l := by
  have hl := mt h.chain.eq_nil_iff.mp hne
  obtain ⟨a, l, hal⟩ := List.exists_cons_of_ne_nil hl
  have hchain := h.chain
  rw [hal, Chain.cons_iff] at hchain
  exact ⟨l, by rw [hal, hchain.1]⟩

/-- The free block after a given one is `NULL` exactly when nothing further up is free. -/
theorem prox_eq_zero_iff (h : Representa (u ++ ⟨n, .livre⟩ :: v) s) :
    s.prox (fim s.endBaseMemoria u) = 0 ↔ ∀ x ∈ v, x.uso ≠ .livre := by
  have hne : ∀ a ∈ livres (fim s.endBaseMemoria u + (n + 16) * 16) v, a ≠ 0 := by
    intro a ha
    have := (bounds_of_mem_livres ha).1
    omega
  have hchain : Chain 0 s.prox (s.prox (fim s.endBaseMemoria u)) _ := ⟨h.lista_cut.2, hne⟩
  rw [← hchain.eq_nil_iff, livres_eq_nil_iff]

theorem primeiro_eq_head (h : Representa ts s) (hne : s.listaLivres ≠ 0)
    (hle : 16 + t ≤ s.tam s.listaLivres) :
    primeiro s t (livres s.endBaseMemoria ts) = some s.listaLivres := by
  obtain ⟨l, hl⟩ := h.livres_eq_cons hne
  rw [hl, ← List.nil_append (_ :: l)]
  exact primeiro_eq_some (by simp) hle

end Representa

/-! ## Lost blocks -/

/-- No memory is lost: every tile is live or on the free list, and when nothing is live the list is
the single block that `inicializa_mem` made. -/
def SemPerda (S : Sistema) : Prop :=
  (∀ b ∈ (mostraMem S.est).1, (∃ t, (b.1 + sizeofHeader, t) ∈ S.vivos) ∨
    ∃ l, ListaLivres S.est l ∧ b.1 ∈ l) ∧
  (S.vivos = [] → ListaLivres S.est [S.est.endBaseMemoria] ∧
    S.est.tam S.est.endBaseMemoria = tamMemoria - sizeofHeader)

/-- The request is not a perfect fit for a head of the free list that has a successor. -/
def NaoPerde (S : Sistema) : Op → Prop
  | .aloca t => ¬(S.est.listaLivres ≠ 0 ∧ S.est.tam S.est.listaLivres = t + sizeofHeader ∧
      S.est.prox S.est.listaLivres ≠ 0)
  | .libera _ => True

theorem perde_eq_self {ts : List Tile} (h : ∀ x ∈ ts, x.uso ≠ .livre) : perde ts = ts := by
  rw [perde]
  conv_rhs => rw [← List.map_id ts]
  exact List.map_congr_left fun x hx ↦ if_neg (h x hx)

theorem exists_perdido {ts : List Tile} (h : ¬∀ x ∈ ts, x.uso ≠ .livre) :
    ∃ x ∈ perde ts, x.uso = .perdido := by
  push Not at h
  obtain ⟨x, hx, hl⟩ := h
  exact ⟨⟨x.tam, .perdido⟩, List.mem_map.mpr ⟨x, hx, if_pos hl⟩, rfl⟩

theorem eq_singleton_of_livre {ts : List Tile} (h : ∀ x ∈ ts, x.uso = .livre)
    (hsep : Separado ts) (htotal : unidades ts = tamMemoria) : ts = [⟨10224, .livre⟩] := by
  match ts, h, hsep, htotal with
  | [], _, _, htotal => exact absurd htotal (by simp)
  | [⟨n, uso⟩], h, _, htotal =>
    obtain rfl : uso = .livre := h ⟨n, uso⟩ (by simp)
    simp only [unidades_cons, unidades_nil, tamMemoria_eq] at htotal
    obtain rfl : n = 10224 := by omega
    rfl
  | x :: y :: ts, h, hsep, _ =>
    exact absurd ⟨h x (by simp), h y (by simp)⟩ (List.isChain_cons_cons.mp hsep).1

theorem Invariante.semPerda {ts : List Tile} {S : Sistema} (h : Invariante ts S)
    (hts : ∀ x ∈ ts, x.uso ≠ .perdido) : SemPerda S := by
  refine ⟨?_, ?_⟩
  · intro b hb
    rw [h.represents.mostraMem h.total] at hb
    obtain ⟨⟨c, n, uso⟩, hc, rfl⟩ := List.mem_map.mp hb
    cases uso with
    | livre => exact Or.inr ⟨_, h.represents.chain, mem_livres.mpr ⟨n, hc⟩⟩
    | vivo t => exact Or.inl ⟨t, h.vivos.mem_iff.mpr (mem_alocados.mpr ⟨c, n, hc, rfl⟩)⟩
    | perdido =>
      obtain ⟨u, v, rfl, -⟩ := mem_blocos_iff.mp hc
      exact absurd rfl (hts ⟨n, .perdido⟩ (by simp))
  · intro hvivos
    have hlivre : ∀ x ∈ ts, x.uso = .livre := by
      rintro ⟨n, uso⟩ hx
      cases uso with
      | livre => rfl
      | vivo t =>
        obtain ⟨u, v, rfl⟩ := List.append_of_mem hx
        have hmem := h.vivos.mem_iff.mpr (mem_alocados.mpr ⟨_, n, mem_blocos_iff.mpr
          ⟨u, v, rfl, rfl⟩, rfl⟩)
        rw [hvivos] at hmem
        exact absurd hmem (by simp)
      | perdido => exact absurd rfl (hts _ hx)
    obtain rfl := eq_singleton_of_livre hlivre h.separado h.total
    exact ⟨h.represents.chain, h.represents.tam_fim (u := [])⟩

theorem Invariante.not_semPerda {ts : List Tile} {S : Sistema} {x : Tile} (h : Invariante ts S)
    (hx : x ∈ ts) (hp : x.uso = .perdido) : ¬SemPerda S := by
  intro hS
  obtain ⟨u, v, hts⟩ := List.append_of_mem hx
  have hb : (fim S.est.endBaseMemoria u, x) ∈ blocos S.est.endBaseMemoria ts :=
    mem_blocos_iff.mpr ⟨u, v, hts, rfl⟩
  have hmem : (fim S.est.endBaseMemoria u, x.tam) ∈ (mostraMem S.est).1 := by
    rw [h.represents.mostraMem h.total]
    exact List.mem_map.mpr ⟨_, hb, rfl⟩
  -- the tile at that address is the lost one, so it is neither live nor free
  rcases hS.1 _ hmem with ⟨t, hlive⟩ | ⟨l, hl, hfree⟩
  · obtain ⟨b, n, hbn, heq⟩ := mem_alocados.mp (h.vivos.mem_iff.mp hlive)
    have heqb := eq_of_mem_layout Tile.bytes_pos hbn hb (by simp at heq; exact heq.symm)
    rw [Prod.mk.injEq] at heqb
    rw [← heqb.2] at hp
    simp at hp
  · rw [← h.represents.chain.unique hl] at hfree
    obtain ⟨n, hn⟩ := mem_livres.mp hfree
    have heqb := eq_of_mem_layout Tile.bytes_pos hn hb rfl
    rw [Prod.mk.injEq] at heqb
    rw [← heqb.2] at hp
    simp at hp

theorem Efeito.ne_perdido {S : Sistema} {s' : Estado} {op : Op} {ts ts' : List Tile}
    (h : Efeito .gmsimples S.est s' op ts ts') (hrep : Representa ts S.est)
    (hts : ∀ x ∈ ts, x.uso ≠ .perdido) (hC : NaoPerde S op) : ∀ x ∈ ts', x.uso ≠ .perdido := by
  cases h with
  | recusa => exact hts
  | aloca u n v t hle hfirst =>
    have hu : ∀ x ∈ u, x.uso ≠ .perdido := fun x hx ↦ hts x (by simp [hx])
    have hv : ∀ x ∈ v, x.uso ≠ .perdido := fun x hx ↦ hts x (by simp [hx])
    intro x hx
    rcases ocupaTile_cases u n v t with ⟨-, heq⟩ | ⟨hn, hul, heq⟩ | ⟨-, -, heq⟩
    · rw [heq, List.mem_append, List.mem_cons, List.mem_cons] at hx
      rcases hx with hx | rfl | rfl | hx
      · exact hu x hx
      · simp
      · simp
      · exact hv x hx
    · -- a perfect fit at the head: the condition says that nothing followed it
      have hhead := hrep.listaLivres_eq_iff.mpr (livres_eq_nil_iff.mpr hul)
      have hend : S.est.prox (fim S.est.endBaseMemoria u) = 0 := by
        by_contra hne
        refine hC ⟨hhead ▸ (hrep.fim_pos u).ne', ?_, hhead ▸ hne⟩
        rw [← hhead, hrep.tam_fim, hn, sizeofHeader_eq, Nat.add_comm]
      rw [heq, perde_eq_self (hrep.prox_eq_zero_iff.mp hend), List.mem_append, List.mem_cons] at hx
      rcases hx with hx | rfl | hx
      · exact hu x hx
      · simp
      · exact hv x hx
    · rw [heq, List.mem_append, List.mem_cons] at hx
      rcases hx with hx | rfl | hx
      · exact hu x hx
      · simp
      · exact hv x hx
  | libera u n t v _ hf =>
    intro x hx hp
    have hx' := hf.mem_of_ne hx (by simp [hp])
    rw [List.mem_append, List.mem_cons] at hx'
    rcases hx' with hx' | rfl | hx'
    · exact hts x (by simp [hx']) hp
    · simp at hp
    · exact hts x (by simp [hx']) hp

theorem Efeito.exists_perdido {S : Sistema} {s' : Estado} {op : Op} {ts ts' : List Tile}
    (h : Efeito .gmsimples S.est s' op ts ts') (hrep : Representa ts S.est)
    (hC : ¬NaoPerde S op) : ∃ x ∈ ts', x.uso = .perdido := by
  cases h with
  | recusa _ t hnone =>
    obtain ⟨hne, htam, -⟩ := not_not.mp hC
    have hfirst := hrep.primeiro_eq_head (t := t) hne (by rw [htam, sizeofHeader_eq, Nat.add_comm])
    rw [hnone rfl] at hfirst
    exact absurd hfirst (by simp)
  | aloca u n v t hle hfirst =>
    obtain ⟨hne, htam, hprox⟩ := not_not.mp hC
    have hhead := hrep.primeiro_eq_head (t := t) hne (by rw [htam, sizeofHeader_eq, Nat.add_comm])
    rw [hfirst rfl, Option.some.injEq] at hhead
    rw [← hhead] at htam hprox
    have hul := livres_eq_nil_iff.mp (hrep.listaLivres_eq_iff.mp hhead)
    have hn : n = 16 + t := by rw [← hrep.tam_fim, htam, sizeofHeader_eq, Nat.add_comm]
    obtain ⟨x, hx, hp⟩ := Gm.exists_perdido (mt hrep.prox_eq_zero_iff.mpr hprox)
    refine ⟨x, ?_, hp⟩
    rw [ocupaTile, sizeofHeader_eq, if_pos hn, if_pos hul]
    simp [hx]
  | libera => exact absurd trivial hC

/-- **No memory is lost, exactly when no call takes the head of the free list as a perfect fit while
the head has a successor.** -/
theorem semPerda_everywhere_iff {lixo : ℕ → Header} {endBase : ℕ} {S : Sistema}
    {hist : List (Sistema × Op)} (hbase : 0 < endBase)
    (tr : Trace (Passo .gmsimples) (inicial lixo endBase) hist S) :
    Trace.Everywhere SemPerda hist S ↔ Trace.Guarded NaoPerde hist := by
  refine Trace.everywhere_iff
    (I := fun S ↦ ∃ ts, Invariante ts S ∧ ∀ x ∈ ts, x.uso ≠ .perdido)
    ⟨_, invariante_inicial lixo hbase, by simp⟩ ?_ ?_ ?_ tr
  · rintro S ⟨ts, hI, hts⟩
    exact hI.semPerda hts
  · rintro S op S' ⟨ts, hI, hts⟩ hC hp
    obtain ⟨ts', hE, hI', -⟩ := hI.passo hp
    exact ⟨ts', hI', hE.ne_perdido hI.represents hts hC⟩
  · rintro S op S' ⟨ts, hI, -⟩ hC hp
    obtain ⟨ts', hE, hI', -⟩ := hI.passo hp
    obtain ⟨x, hx, hperd⟩ := hE.exists_perdido hI.represents hC
    exact hI'.not_semPerda hx hperd

/-- The condition at a run of two allocations and a release. -/
theorem semPerda_everywhere_iff_release : ∃ hist S,
    Trace (Passo .gmsimples) (inicial (fun _ ↦ ⟨0, 0⟩) 16) hist S ∧
    hist.map Prod.snd = [.aloca 20, .aloca 5, .libera 32] ∧
    (Trace.Everywhere SemPerda hist S ↔ Trace.Guarded NaoPerde hist) := by
  obtain ⟨S, hS⟩ := Option.isSome_iff_exists.mp
    (by decide : (roda .gmsimples [.aloca 20, .aloca 5, .libera 32]).isSome)
  obtain ⟨hist, tr, hops⟩ := exists_trace_of_roda hS
  exact ⟨hist, S, tr, hops, semPerda_everywhere_iff (by decide) tr⟩

/-- Two blocks are allocated and the first is freed; a request for 4 bytes then fits that block
perfectly. The free list becomes empty and the block at 928, with all the rest of the arena, is
lost. -/
theorem semPerda_fails : ∃ S, roda .gmsimples [.aloca 20, .aloca 5, .libera 32, .aloca 4] = some S ∧
    Reachable (Passo .gmsimples) (inicial (fun _ ↦ ⟨0, 0⟩) 16) S ∧ ¬SemPerda S := by
  have hrun : (roda .gmsimples [.aloca 20, .aloca 5, .libera 32, .aloca 4]).map
      (fun S ↦ (S.est.listaLivres, S.vivos, (mostraMem S.est).1))
      = some (0, [(32, 4), (608, 5)], [(16, 20), (592, 5), (928, 10167)]) := by decide
  obtain ⟨S, hS, hobs⟩ := Option.map_eq_some_iff.mp hrun
  simp only [Prod.mk.injEq] at hobs
  obtain ⟨hist, tr, -⟩ := exists_trace_of_roda hS
  refine ⟨S, hS, ⟨hist, tr⟩, fun hsem ↦ ?_⟩
  rcases hsem.1 (928, 10167) (by simp [hobs.2.2]) with ⟨t, ht⟩ | ⟨l, hl, hmem⟩
  · simp [hobs.2.1] at ht
  · rw [hl.eq_nil_iff.mpr hobs.1] at hmem
    simp at hmem

/-! ## Pointers that cannot be freed -/

/-- Some free block lies above the pointer. -/
def TemLivreAcima (s : Estado) (p : ℕ) : Prop := ∃ l, ListaLivres s l ∧ ∃ a ∈ l, p < a

theorem Representa.temLivreAcima_iff {u v : List Tile} {s : Estado} {n t : ℕ}
    (h : Representa (u ++ ⟨n, .vivo t⟩ :: v) s) :
    TemLivreAcima s (fim s.endBaseMemoria u + 16) ↔
      livres (fim s.endBaseMemoria u + (n + 16) * 16) v ≠ [] := by
  have hl : livres s.endBaseMemoria (u ++ ⟨n, .vivo t⟩ :: v)
      = livres s.endBaseMemoria u ++ livres (fim s.endBaseMemoria u + (n + 16) * 16) v := by
    rw [livres_append, livres_cons_of_ne _ (by simp)]
  constructor
  · rintro ⟨l, hchain, a, ha, hlt⟩ hnil
    rw [← h.chain.unique hchain, hl, hnil, List.append_nil] at ha
    have := (bounds_of_mem_livres ha).2
    omega
  · intro hne
    obtain ⟨a, l, hal⟩ := List.exists_cons_of_ne_nil hne
    have ha : a ∈ livres (fim s.endBaseMemoria u + (n + 16) * 16) v := by
      rw [hal]
      exact List.mem_cons_self
    refine ⟨_, h.chain, a, ?_, ?_⟩
    · rw [hl]
      exact List.mem_append_right _ ha
    · have := (bounds_of_mem_livres ha).1
      omega

/-- **A live block can be freed exactly when a free block lies above it**; otherwise `meu_libera`
accesses a field through `NULL`. -/
theorem meuLibera_completes_iff {lixo : ℕ → Header} {endBase : ℕ} {S : Sistema} {p t : ℕ}
    (hbase : 0 < endBase) (h : Reachable (Passo .gmsimples) (inicial lixo endBase) S)
    (hp : (p, t) ∈ S.vivos) :
    ((∃ n s', meuLibera n S.est p = .ok s') ↔ TemLivreAcima S.est p) ∧
      ((∃ n, meuLibera n S.est p = .error .nulo) ↔ ¬TemLivreAcima S.est p) := by
  obtain ⟨ts, hI⟩ := exists_invariante hbase h
  obtain ⟨u, n, v, rfl, rfl⟩ := exists_cut_of_mem_alocados (hI.vivos.mem_iff.mp hp)
  have hrep := hI.represents
  rw [hrep.temLivreAcima_iff]
  refine ⟨Mescla.libera_returns_iff (M := simples) hrep hI.separado, ?_, ?_⟩
  · rintro ⟨m, hm⟩ hlv
    exact Mescla.libera_ne_nulo (M := simples) hrep hI.separado hlv m hm
  · intro hlv
    refine ⟨(livres S.est.endBaseMemoria u).length + 1, ?_⟩
    have herr := Mescla.libera_eq_error (M := simples) hrep (not_not.mp hlv)
      ((livres S.est.endBaseMemoria u).length + 1)
    rw [meuLibera_eq]
    exact herr.trans (by rw [if_neg (by simp [simples])])

/-- The condition at the first of two live blocks. -/
theorem meuLibera_completes_iff_first : ∃ S, roda .gmsimples [.aloca 20, .aloca 5] = some S ∧
    ((∃ n s', meuLibera n S.est 32 = .ok s') ↔ TemLivreAcima S.est 32) ∧
      ((∃ n, meuLibera n S.est 32 = .error .nulo) ↔ ¬TemLivreAcima S.est 32) := by
  have hrun : (roda .gmsimples [.aloca 20, .aloca 5]).map Sistema.vivos
      = some [(608, 5), (32, 20)] := by decide
  obtain ⟨S, hS, hvivos⟩ := Option.map_eq_some_iff.mp hrun
  obtain ⟨hist, tr, -⟩ := exists_trace_of_roda hS
  exact ⟨S, hS, meuLibera_completes_iff (by decide) ⟨hist, tr⟩ (t := 20) (by simp [hvivos])⟩

/-- A request that fits the whole arena perfectly empties the free list. The block it returns can
never be freed: the scan of `meu_libera` reads `prox` through `NULL` at once. -/
theorem meuLibera_faults : ∃ S, roda .gmsimples [.aloca 10208] = some S ∧
    Reachable (Passo .gmsimples) (inicial (fun _ ↦ ⟨0, 0⟩) 16) S ∧ (32, 10208) ∈ S.vivos ∧
    meuLibera 1 S.est 32 = .error .nulo ∧ ∀ n s', meuLibera n S.est 32 ≠ .ok s' := by
  have hrun : (roda .gmsimples [.aloca 10208]).map (fun S ↦ (S.est.listaLivres, S.vivos))
      = some (0, [(32, 10208)]) := by decide
  obtain ⟨S, hS, hobs⟩ := Option.map_eq_some_iff.mp hrun
  simp only [Prod.mk.injEq] at hobs
  obtain ⟨hist, tr, -⟩ := exists_trace_of_roda hS
  refine ⟨S, hS, ⟨hist, tr⟩, by simp [hobs.2], ?_, fun n s' ↦ ?_⟩
  · simp [meuLibera, liberaCom, hobs.1, avanca, Estado.lerProx, bind, Except.bind]
  · cases n <;> simp [meuLibera, liberaCom, hobs.1, avanca, Estado.lerProx, bind, Except.bind]

/-! ## Blocks outside the arena -/

/-- The `len` bytes at `a` are within the `tamMemoria` bytes obtained from `malloc`. -/
def NaArena (s : Estado) (a len : ℕ) : Prop :=
  s.endBaseMemoria ≤ a ∧ a + len ≤ s.endBaseMemoria + tamMemoria

/-- Every header written so far and every live payload is within the arena. -/
def Contido (S : Sistema) : Prop :=
  (∀ a ∈ S.est.escritas, NaArena S.est a sizeofHeader) ∧ ∀ x ∈ S.vivos, NaArena S.est x.1 x.2

/-- The first free block `a` that can serve the request leaves room, in bytes, for what is made of
it: for the payload when the fit is perfect, else for the block, scaled, and one more header. -/
def TemLugar (S : Sistema) : Op → Prop
  | .aloca t => ∀ l a, ListaLivres S.est l → primeiro S.est t l = some a →
      (S.est.tam a = sizeofHeader + t →
        a + sizeofHeader + t ≤ S.est.endBaseMemoria + tamMemoria) ∧
      (S.est.tam a ≠ sizeofHeader + t →
        somaPtr a (t + sizeofHeader) + sizeofHeader ≤ S.est.endBaseMemoria + tamMemoria)
  | .libera _ => True

/-- The headers of the tiles are within the arena. -/
def HeadersNaArena (s : Estado) (ts : List Tile) : Prop :=
  ∀ b ∈ (blocos s.endBaseMemoria ts).map Prod.fst, NaArena s b sizeofHeader

theorem Representa.temLugar_iff {u v : List Tile} {S : Sistema} {n t : ℕ}
    (h : Representa (u ++ ⟨n, .livre⟩ :: v) S.est)
    (hfirst : primeiro S.est t (livres S.est.endBaseMemoria (u ++ ⟨n, .livre⟩ :: v))
      = some (fim S.est.endBaseMemoria u)) :
    TemLugar S (.aloca t) ↔
      (n = 16 + t → fim S.est.endBaseMemoria u + 16 + t ≤ S.est.endBaseMemoria + 10240) ∧
      (n ≠ 16 + t →
        fim S.est.endBaseMemoria u + (t + 16) * 16 + 16 ≤ S.est.endBaseMemoria + 10240) := by
  have htam := h.tam_fim
  simp only [TemLugar, somaPtr, sizeofHeader_eq, tamMemoria_eq]
  constructor
  · intro hC
    have hroom := hC _ _ h.chain hfirst
    rwa [htam] at hroom
  · intro hroom l a hl ha
    rw [← h.chain.unique hl, hfirst, Option.some.injEq] at ha
    rwa [← ha, htam]

/-- Serving a request adds at most one header, that of the remainder. -/
theorem mem_blocos_ocupaTile {u v : List Tile} {a n t b : ℕ} (hle : 16 + t ≤ n)
    (hb : b ∈ (blocos a (ocupaTile u n v t)).map Prod.fst) :
    b ∈ (blocos a (u ++ ⟨n, .livre⟩ :: v)).map Prod.fst ∨
      (n ≠ 16 + t ∧ b = fim a u + (t + 16) * 16) := by
  rw [blocos_append, blocos_cons, List.map_append, List.map_cons]
  rcases ocupaTile_cases u n v t with ⟨hn, heq⟩ | ⟨-, -, heq⟩ | ⟨-, -, heq⟩
  · have hfim : fim a u + (t + 16) * 16 + (n - 16 - t + 16) * 16 = fim a u + (n + 16) * 16 := by
      omega
    rw [heq, blocos_append, blocos_cons, blocos_cons, List.map_append, List.map_cons,
      List.map_cons, List.mem_append, List.mem_cons, List.mem_cons] at hb
    simp only [hfim] at hb
    rcases hb with hb | rfl | rfl | hb
    · exact Or.inl (List.mem_append_left _ hb)
    · simp
    · exact Or.inr ⟨hn, rfl⟩
    · exact Or.inl (List.mem_append_right _ (List.mem_cons_of_mem _ hb))
  · rw [heq, blocos_append, blocos_cons, List.map_append, List.map_cons, List.mem_append,
      List.mem_cons] at hb
    rcases hb with hb | rfl | hb
    · exact Or.inl (List.mem_append_left _ hb)
    · simp
    · obtain ⟨c, hc, rfl⟩ := List.mem_map.mp hb
      obtain ⟨x, hx, -⟩ := exists_mem_blocos_of_perde hc
      exact Or.inl (List.mem_append_right _
        (List.mem_cons_of_mem _ (List.mem_map.mpr ⟨_, hx, rfl⟩)))
  · rw [heq, blocos_append, blocos_cons, List.map_append, List.map_cons] at hb
    exact Or.inl hb

theorem Efeito.headersNaArena {S : Sistema} {s' : Estado} {op : Op} {ts ts' : List Tile}
    (h : Efeito .gmsimples S.est s' op ts ts') (hrep : Representa ts S.est)
    (hts : HeadersNaArena S.est ts) (hC : TemLugar S op) : HeadersNaArena S.est ts' := by
  intro b hb
  cases h with
  | recusa => exact hts b hb
  | aloca u n v t hle hfirst =>
    rcases mem_blocos_ocupaTile hle hb with hb | ⟨hn, rfl⟩
    · exact hts b hb
    · have hroom := ((hrep.temLugar_iff (hfirst rfl)).mp hC).2 hn
      have hlo := (hts (fim S.est.endBaseMemoria u) (by simp)).1
      exact ⟨by omega, hroom⟩
  | libera u n t v _ hf =>
    refine hts b ?_
    simpa using hf.mem_blocos_fst hb

/-- The live payloads after a call: those before, and the one just handed out. -/
theorem Efeito.mem_alocados {s s' : Estado} {op : Op} {ts ts' : List Tile}
    (h : Efeito .gmsimples s s' op ts ts') {x : ℕ × ℕ}
    (hx : x ∈ alocados s.endBaseMemoria ts') : x ∈ alocados s.endBaseMemoria ts ∨
      ∃ u n v, ts = u ++ ⟨n, .livre⟩ :: v ∧ op = .aloca x.2 ∧
        x.1 = fim s.endBaseMemoria u + 16 ∧ 16 + x.2 ≤ n ∧
        primeiro s x.2 (livres s.endBaseMemoria ts) = some (fim s.endBaseMemoria u) := by
  cases h with
  | recusa => exact Or.inl hx
  | aloca u n v t hle hfirst =>
    rcases List.mem_cons.mp ((alocados_ocupaTile _ hle).mem_iff.mp hx) with rfl | hx
    · exact Or.inr ⟨u, n, v, rfl, rfl, rfl, hle, hfirst rfl⟩
    · exact Or.inl hx
  | libera u n t v _ hf =>
    rw [hf.alocados_eq, alocados_append, alocados_cons_livre] at hx
    refine Or.inl ?_
    rw [alocados_append, alocados_cons_vivo]
    rcases List.mem_append.mp hx with hx | hx
    · exact List.mem_append_left _ hx
    · exact List.mem_append_right _ (List.mem_cons_of_mem _ hx)

theorem Invariante.contido_passo {ts ts' : List Tile} {S S' : Sistema} {op : Op}
    (hI : Invariante ts S) (hI' : Invariante ts' S')
    (hE : Efeito .gmsimples S.est S'.est op ts ts')
    (hbase : S'.est.endBaseMemoria = S.est.endBaseMemoria)
    (hesc : ∀ b ∈ S'.est.escritas, b ∈ S.est.escritas ∨
      b ∈ (blocos S.est.endBaseMemoria ts).map Prod.fst ∨
      b ∈ (blocos S.est.endBaseMemoria ts').map Prod.fst)
    (hts : HeadersNaArena S.est ts) (hcont : Contido S) (hC : TemLugar S op) : Contido S' := by
  have hts' := hE.headersNaArena hI.represents hts hC
  have hcongr : ∀ a len, NaArena S'.est a len ↔ NaArena S.est a len := fun a len ↦ by
    rw [NaArena, NaArena, hbase]
  refine ⟨fun b hb ↦ ?_, fun x hx ↦ ?_⟩
  · rw [hcongr]
    rcases hesc b hb with hb | hb | hb
    · exact hcont.1 b hb
    · exact hts b hb
    · exact hts' b hb
  · rw [hcongr]
    have hx' := hI'.vivos.mem_iff.mp hx
    rw [hbase] at hx'
    rcases hE.mem_alocados hx' with hold | ⟨u, n, v, rfl, rfl, hp, hle, hfirst⟩
    · exact hcont.2 x (hI.vivos.mem_iff.mpr hold)
    · -- the new payload: bounded directly, or by the header of the remainder
      obtain ⟨hperfect, hsplit⟩ := (hI.represents.temLugar_iff hfirst).mp hC
      have hlo := (hts (fim S.est.endBaseMemoria u) (by simp)).1
      refine ⟨by omega, ?_⟩
      rw [tamMemoria_eq]
      by_cases hn : n = 16 + x.2
      · have := hperfect hn
        omega
      · have := hsplit hn
        omega

theorem Invariante.not_contido {ts ts' : List Tile} {S S' : Sistema} {op : Op}
    (hI : Invariante ts S) (hI' : Invariante ts' S')
    (hE : Efeito .gmsimples S.est S'.est op ts ts')
    (hbase : S'.est.endBaseMemoria = S.est.endBaseMemoria) (hC : ¬TemLugar S op) :
    ¬Contido S' := by
  intro hcont
  refine hC ?_
  cases hE with
  | recusa _ t hnone =>
    intro l a hl ha
    rw [← hI.represents.chain.unique hl, hnone rfl] at ha
    exact absurd ha (by simp)
  | aloca u n v t hle hfirst hnovo =>
    refine (hI.represents.temLugar_iff (hfirst rfl)).mpr ⟨fun _ ↦ ?_, fun hn ↦ ?_⟩
    · have hnew : (fim S.est.endBaseMemoria u + 16, t) ∈ S'.vivos := by
        rw [hI'.vivos.mem_iff, hbase, (alocados_ocupaTile _ hle).mem_iff]
        exact List.mem_cons_self
      have hin := (hcont.2 _ hnew).2
      rwa [hbase] at hin
    · have hin := (hcont.1 _ (hnovo hn)).2
      rwa [hbase] at hin
  | libera => exact trivial

/-- **The allocator stays within its arena, exactly when every request is served from a block that
leaves room for it in bytes.** -/
theorem contido_everywhere_iff {lixo : ℕ → Header} {endBase : ℕ} {S : Sistema}
    {hist : List (Sistema × Op)} (hbase : 0 < endBase)
    (tr : Trace (Passo .gmsimples) (inicial lixo endBase) hist S) :
    Trace.Everywhere Contido hist S ↔ Trace.Guarded TemLugar hist := by
  refine Trace.everywhere_iff
    (I := fun S ↦ ∃ ts, Invariante ts S ∧ HeadersNaArena S.est ts ∧ Contido S)
    ⟨_, invariante_inicial lixo hbase, ?_, ?_⟩ ?_ ?_ ?_ tr
  · intro b hb
    simp only [blocos_cons, blocos_nil, List.map_cons, List.map_nil, List.mem_singleton] at hb
    subst hb
    exact ⟨le_rfl, Nat.add_le_add_left (by decide) _⟩
  · refine ⟨fun a ha ↦ ?_, by simp [inicial]⟩
    simp only [inicial, inicializaMem, Estado.escritas_setProx, Estado.escritas_setTam,
      List.mem_cons, List.not_mem_nil, or_false, or_self] at ha
    subst ha
    exact ⟨le_rfl, Nat.add_le_add_left (by decide) _⟩
  · rintro S ⟨ts, -, -, hcont⟩
    exact hcont
  · rintro S op S' ⟨ts, hI, hts, hcont⟩ hC hp
    obtain ⟨ts', hE, hI', hbase', hesc⟩ := hI.passo hp
    refine ⟨ts', hI', ?_, hI.contido_passo hI' hE hbase' hesc hts hcont hC⟩
    intro b hb
    rw [hbase'] at hb
    have hin := hE.headersNaArena hI.represents hts hC b hb
    rwa [NaArena, ← hbase'] at hin
  · rintro S op S' ⟨ts, hI, -, -⟩ hC hp
    obtain ⟨ts', hE, hI', hbase', -⟩ := hI.passo hp
    exact hI.not_contido hI' hE hbase' hC

/-- The condition at a run of two small allocations. -/
theorem contido_everywhere_iff_two : ∃ hist S,
    Trace (Passo .gmsimples) (inicial (fun _ ↦ ⟨0, 0⟩) 16) hist S ∧
    hist.map Prod.snd = [.aloca 20, .aloca 5] ∧
    (Trace.Everywhere Contido hist S ↔ Trace.Guarded TemLugar hist) := by
  obtain ⟨S, hS⟩ := Option.isSome_iff_exists.mp
    (by decide : (roda .gmsimples [.aloca 20, .aloca 5]).isSome)
  obtain ⟨hist, tr, hops⟩ := exists_trace_of_roda hS
  exact ⟨hist, S, tr, hops, contido_everywhere_iff (by decide) tr⟩

/-- A first request for 1000 bytes already writes a header 16256 bytes past the start of an arena of
10240. -/
theorem contido_fails : ∃ S, roda .gmsimples [.aloca 1000] = some S ∧
    Reachable (Passo .gmsimples) (inicial (fun _ ↦ ⟨0, 0⟩) 16) S ∧
    S.est.endBaseMemoria + 16256 ∈ S.est.escritas ∧ ¬Contido S := by
  have hrun : (roda .gmsimples [.aloca 1000]).map
      (fun S ↦ (S.est.endBaseMemoria, decide (16272 ∈ S.est.escritas))) = some (16, true) := by
    decide
  obtain ⟨S, hS, hobs⟩ := Option.map_eq_some_iff.mp hrun
  simp only [Prod.mk.injEq, decide_eq_true_eq] at hobs
  obtain ⟨hist, tr, -⟩ := exists_trace_of_roda hS
  refine ⟨S, hS, ⟨hist, tr⟩, by rw [hobs.1]; exact hobs.2, fun hcont ↦ ?_⟩
  have hin := (hcont.1 _ hobs.2).2
  rw [hobs.1] at hin
  exact absurd hin (by simp)

end SistemasOperacionais.Gm
