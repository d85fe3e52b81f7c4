import SistemasOperacionais.GerenciaMemoria.Busca
import SistemasOperacionais.GerenciaMemoria.Libera
import Mathlib.Order.CompletePartialOrder

/-!
# Runs of the allocators

The invariant of a run says that the memory represents an arena of tiles that fills `tamMemoria`
units, has no two free neighbours, and whose live tiles are the live allocations. `Efeito` says
once what a call can do to the tiles, and `Invariante.passo` is the single place where calls of the
program are taken apart; the results about runs are case analyses over `Efeito`.
-/

namespace SistemasOperacionais.Gm

open Foundations

/-! ## The walk by size -/

/-- On a represented arena the walk of `mostra_mem` visits the tiles and stops exactly at the
end. -/
theorem mostraMemLoop_eq {s : Estado} {ts : List Tile} {m c a : ℕ} (hm : ts.length ≤ m)
    (htam : ∀ b ∈ blocos a ts, s.tam b.1 = b.2.tam) (hc : c + unidades ts = tamMemoria) :
    mostraMemLoop s m c a = ((blocos a ts).map fun b ↦ (b.1, b.2.tam), tamMemoria) := by
  induction ts generalizing m c a with
  | nil =>
    rw [unidades_nil, add_zero] at hc
    cases m with
    | zero => rw [mostraMemLoop, hc]; rfl
    | succ m => rw [mostraMemLoop, if_neg (by omega), hc]; rfl
  | cons x ts ih =>
    have hx : s.tam a = x.tam := htam (a, x) (by simp)
    have hrest : ∀ b ∈ blocos (a + (x.tam + 16) * 16) ts, s.tam b.1 = b.2.tam :=
      fun b hb ↦ htam b (by rw [blocos_cons]; exact List.mem_cons_of_mem _ hb)
    rw [unidades_cons] at hc
    rw [List.length_cons] at hm
    obtain ⟨m, rfl⟩ : ∃ k, m = k + 1 := ⟨m - 1, by omega⟩
    rw [mostraMemLoop, if_pos (by omega), hx, somaPtr, sizeofHeader_eq,
      ih (by omega) hrest (by omega), blocos_cons, List.map_cons]

theorem length_le_unidades (ts : List Tile) : ts.length ≤ unidades ts := by
  induction ts with
  | nil => simp
  | cons x ts ih =>
    rw [List.length_cons, unidades_cons]
    omega

theorem Representa.mostraMem {s : Estado} {ts : List Tile} (h : Representa ts s)
    (ht : unidades ts = tamMemoria) :
    mostraMem s = ((blocos s.endBaseMemoria ts).map fun b ↦ (b.1, b.2.tam), tamMemoria) :=
  mostraMemLoop_eq (ht ▸ length_le_unidades ts) h.tam_eq (by rw [zero_add, ht])

/-! ## The invariant -/

/-- The state of a run: it represents a full, separated arena whose live tiles are the live
allocations, each at least as large as the request. -/
structure Invariante (ts : List Tile) (S : Sistema) : Prop where
  represents : Representa ts S.est
  total : unidades ts = tamMemoria
  separado : Separado ts
  vivos : S.vivos.Perm (alocados S.est.endBaseMemoria ts)
  cabe : ∀ x ∈ ts, ∀ t, x.uso = .vivo t → t ≤ x.tam

theorem invariante_inicial (lixo : ℕ → Header) {endBase : ℕ} (h : 0 < endBase) :
    Invariante [⟨10224, .livre⟩] (inicial lixo endBase) := by
  refine ⟨⟨h, ?_, ?_⟩, rfl, List.IsChain.singleton _, List.Perm.refl _, by simp⟩
  · intro b hb
    rw [blocos_cons, blocos_nil, List.mem_singleton] at hb
    subst hb
    simp [inicial, inicializaMem]
  · refine ⟨rfl, ?_⟩
    simp [inicial, inicializaMem]

/-- What a call that takes `s` to `s'` can do to the tiles. A refused request does nothing; a served
one takes a free tile that is large enough, in `gmsimples.c` the first, and writes the header of the
remainder if there is one; a freed tile goes back to the free ones and free neighbours are fused. -/
inductive Efeito (prog : Programa) (s s' : Estado) : Op → List Tile → List Tile → Prop
  | recusa (ts : List Tile) (t : ℕ) :
      (prog = .gmsimples → primeiro s t (livres s.endBaseMemoria ts) = none) →
      Efeito prog s s' (.aloca t) ts ts
  | aloca (u : List Tile) (n : ℕ) (v : List Tile) (t : ℕ) : 16 + t ≤ n →
      (prog = .gmsimples → primeiro s t (livres s.endBaseMemoria (u ++ ⟨n, .livre⟩ :: v))
        = some (fim s.endBaseMemoria u)) →
      (n ≠ 16 + t → fim s.endBaseMemoria u + (t + 16) * 16 ∈ s'.escritas) →
      Efeito prog s s' (.aloca t) (u ++ ⟨n, .livre⟩ :: v) (ocupaTile u n v t)
  | libera (u : List Tile) (n t : ℕ) (v ts' : List Tile) :
      FundeVarias (u ++ ⟨n, .livre⟩ :: v) ts' →
      Efeito prog s s' (.libera (fim s.endBaseMemoria u + 16)) (u ++ ⟨n, .vivo t⟩ :: v) ts'

theorem Funde.mem_of_ne {ts ts' : List Tile} (h : Funde ts ts') {x : Tile} (hx : x ∈ ts')
    (hne : x.uso ≠ .livre) : x ∈ ts := by
  obtain ⟨u, k, n, v⟩ := h
  rw [List.mem_append, List.mem_cons] at hx
  rcases hx with hx | rfl | hx
  · exact List.mem_append_left _ hx
  · exact absurd rfl hne
  · simp [hx]

theorem FundeVarias.mem_of_ne {ts ts' : List Tile} (h : FundeVarias ts ts') {x : Tile}
    (hx : x ∈ ts') (hne : x.uso ≠ .livre) : x ∈ ts := by
  induction h with
  | refl => exact hx
  | tail _ hs ih => exact ih (hs.mem_of_ne hx hne)

theorem cabe_ocupaTile {u v : List Tile} {n t : ℕ}
    (h : ∀ x ∈ u ++ ⟨n, .livre⟩ :: v, ∀ t, x.uso = .vivo t → t ≤ x.tam) :
    ∀ x ∈ ocupaTile u n v t, ∀ t, x.uso = .vivo t → t ≤ x.tam := by
  have hu : ∀ x ∈ u, ∀ t, x.uso = .vivo t → t ≤ x.tam := fun x hx ↦ h x (by simp [hx])
  have hv : ∀ x ∈ v, ∀ t, x.uso = .vivo t → t ≤ x.tam := fun x hx ↦ h x (by simp [hx])
  have hperde : ∀ x ∈ perde v, ∀ t, x.uso = .vivo t → t ≤ x.tam := by
    intro x hx t hxt
    obtain ⟨y, hy, rfl⟩ := List.mem_map.mp hx
    by_cases hyl : y.uso = .livre
    · simp [hyl] at hxt
    · rw [if_neg hyl] at hxt ⊢
      exact hv y hy t hxt
  intro x hx t' hxt
  -- the new tile is as large as the request after a split and larger after a perfect fit
  rcases ocupaTile_cases u n v t with ⟨-, heq⟩ | ⟨hn, -, heq⟩ | ⟨hn, -, heq⟩
  · rw [heq, List.mem_append, List.mem_cons, List.mem_cons] at hx
    rcases hx with hx | rfl | rfl | hx
    · exact hu x hx t' hxt
    · simp only [Uso.vivo.injEq] at hxt
      exact hxt.ge
    · simp at hxt
    · exact hv x hx t' hxt
  · rw [heq, List.mem_append, List.mem_cons] at hx
    rcases hx with hx | rfl | hx
    · exact hu x hx t' hxt
    · simp only [Uso.vivo.injEq] at hxt
      simp only
      omega
    · exact hperde x hx t' hxt
  · rw [heq, List.mem_append, List.mem_cons] at hx
    rcases hx with hx | rfl | hx
    · exact hu x hx t' hxt
    · simp only [Uso.vivo.injEq] at hxt
      simp only
      omega
    · exact hv x hx t' hxt

theorem Invariante.servido {ts u v : List Tile} {S : Sistema} {s : Estado} {t p n : ℕ}
    (h : Invariante ts S) (hS : Servido ts t S.est (some p) s u n v) :
    Invariante (ocupaTile u n v t) ⟨s, (p, t) :: S.vivos⟩ := by
  obtain ⟨rfl, hle, hres, hrep, hbase, -, -⟩ := hS
  simp only [Option.some.injEq] at hres
  subst hres
  refine ⟨hrep, ?_, separado_ocupaTile h.separado, ?_, cabe_ocupaTile h.cabe⟩
  · rw [unidades_ocupaTile hle, h.total]
  · simp only [hbase]
    exact (h.vivos.cons _).trans (alocados_ocupaTile _ hle).symm

theorem Invariante.liberado {u v ts' : List Tile} {S : Sistema} {s : Estado} {n t : ℕ}
    (h : Invariante (u ++ ⟨n, .vivo t⟩ :: v) S) (hrep : Representa ts' s)
    (hf : FundeVarias (u ++ ⟨n, .livre⟩ :: v) ts') (hsep : Separado ts')
    (hbase : s.endBaseMemoria = S.est.endBaseMemoria) :
    Invariante ts' ⟨s, S.vivos.erase (fim S.est.endBaseMemoria u + 16, t)⟩ := by
  refine ⟨hrep, ?_, hsep, ?_, ?_⟩
  · rw [hf.unidades_eq, ← h.total]
    simp
  · have hperm := h.vivos
    rw [alocados_append, alocados_cons_vivo] at hperm
    have herase := (hperm.trans List.perm_middle).erase (fim S.est.endBaseMemoria u + 16, t)
    rw [List.erase_cons_head] at herase
    simp only [hbase]
    rw [hf.alocados_eq, alocados_append, alocados_cons_livre]
    exact herase
  · intro x hx t' hxt
    have hx' := hf.mem_of_ne hx (by simp [hxt])
    rw [List.mem_append, List.mem_cons] at hx'
    rcases hx' with hx' | rfl | hx'
    · exact h.cabe x (by simp [hx']) t' hxt
    · simp at hxt
    · exact h.cabe x (by simp [hx']) t' hxt

/-- **One call.** The invariant is kept, and the call does to the tiles what `Efeito` says. -/
theorem Invariante.passo {prog : Programa} {ts : List Tile} {S S' : Sistema} {op : Op}
    (h : Invariante ts S) (hp : Passo prog S op S') :
    ∃ ts', Efeito prog S.est S'.est op ts ts' ∧ Invariante ts' S' ∧
      S'.est.endBaseMemoria = S.est.endBaseMemoria ∧
      ∀ b ∈ S'.est.escritas, b ∈ S.est.escritas ∨
        b ∈ (blocos S.est.endBaseMemoria ts).map Prod.fst ∨
        b ∈ (blocos S.est.endBaseMemoria ts').map Prod.fst := by
  cases hp with
  | @aloca t m p s hok =>
    rcases meuAloca_cases h.represents hok with ⟨ho, -, -⟩ | ⟨u, n, v, hS, hfirst⟩
    · exact absurd ho (by simp)
    · obtain rfl := hS.cut
      refine ⟨ocupaTile u n v t, .aloca u n v t hS.fits hfirst hS.remainder, h.servido hS,
        hS.base_eq, fun b hb ↦ ?_⟩
      rcases hS.writes b hb with hb | hb
      · exact Or.inl hb
      · exact Or.inr (Or.inr hb)
  | @recusa t m s hok =>
    rcases meuAloca_cases h.represents hok with ⟨-, rfl, hnone⟩ | ⟨u, n, v, hS, -⟩
    · exact ⟨ts, .recusa ts t hnone, ⟨h.represents, h.total, h.separado, h.vivos, h.cabe⟩, rfl,
        fun b hb ↦ Or.inl hb⟩
    · exact absurd hS.result (by simp)
  | @libera p t m s hmem hok =>
    obtain ⟨u, n, v, rfl, rfl⟩ := exists_cut_of_mem_alocados (h.vivos.mem_iff.mp hmem)
    obtain ⟨ts', hrep, hf, hsep, hbase, hesc⟩ := exists_of_meuLibera h.represents h.separado hok
    refine ⟨ts', .libera u n t v ts' hf, h.liberado hrep hf hsep hbase, hbase, fun b hb ↦ ?_⟩
    rcases hesc b hb with hb | hb
    · exact Or.inl hb
    · refine Or.inr (Or.inl ?_)
      simpa using hb

theorem exists_invariante {prog : Programa} {lixo : ℕ → Header} {endBase : ℕ} {S : Sistema}
    (hbase : 0 < endBase) (h : Reachable (Passo prog) (inicial lixo endBase) S) :
    ∃ ts, Invariante ts S := by
  obtain ⟨hist, tr⟩ := h
  refine tr.invariant (I := fun S ↦ ∃ ts, Invariante ts S) ⟨_, invariante_inicial lixo hbase⟩
    fun ⟨ts, hI⟩ hp ↦ ?_
  obtain ⟨ts', -, hI', -⟩ := hI.passo hp
  exact ⟨ts', hI'⟩

/-! ## Executing the allocators -/

/-- A call with fuel `n`; `none` when it does not return or frees a pointer that is not live. -/
def executa (prog : Programa) (n : ℕ) (S : Sistema) : Op → Option Sistema
  | .aloca t =>
    match meuAloca prog n S.est t with
    | .ok (some p, s) => some ⟨s, (p, t) :: S.vivos⟩
    | .ok (none, s) => some ⟨s, S.vivos⟩
    | .error _ => none
  | .libera p =>
    match S.vivos.find? fun x ↦ x.1 = p, meuLibera n S.est p with
    | some x, .ok s => some ⟨s, S.vivos.erase x⟩
    | _, _ => none

theorem passo_of_executa {prog : Programa} {n : ℕ} (S : Sistema) (op : Op) (S' : Sistema)
    (h : executa prog n S op = some S') : Passo prog S op S' := by
  cases op with
  | aloca t =>
    rw [executa] at h
    split at h
    · rename_i p s hok
      exact Option.some.inj h ▸ Passo.aloca hok
    · rename_i s hok
      exact Option.some.inj h ▸ Passo.recusa hok
    · exact absurd h (by simp)
  | libera p =>
    rw [executa] at h
    split at h
    · rename_i x s hx hok
      obtain ⟨q, t⟩ := x
      have hq : q = p := by simpa using List.find?_some hx
      subst hq
      exact Option.some.inj h ▸ Passo.libera (List.mem_of_find?_eq_some hx) hok
    · exact absurd h (by simp)

/-- Run the calls `l` after `inicializa_mem`, with fuel enough for a handful of blocks. -/
def roda (prog : Programa) (l : List Op) : Option Sistema :=
  execute (executa prog 8) (inicial (fun _ ↦ ⟨0, 0⟩) 16) l

theorem exists_trace_of_roda {prog : Programa} {l : List Op} {S : Sistema}
    (h : roda prog l = some S) :
    ∃ hist, Trace (Passo prog) (inicial (fun _ ↦ ⟨0, 0⟩) 16) hist S ∧ hist.map Prod.snd = l :=
  exists_trace_of_execute passo_of_executa h

/-! ## The arena is tiled -/

/-- The blocks on the free list, from `listaLivres` along `prox` to `NULL`. -/
def ListaLivres (s : Estado) (l : List ℕ) : Prop := Chain 0 s.prox s.listaLivres l

theorem Representa.isChain_livres {ts : List Tile} {s : Estado} (h : Representa ts s)
    (hsep : Separado ts) : (livres s.endBaseMemoria ts).IsChain fun a b ↦
      somaPtr a (s.tam a + sizeofHeader) ≠ b := by
  refine List.Pairwise.isChain ?_
  have hgap := hsep.spaced (a := s.endBaseMemoria) |>.gap
  rw [List.pairwise_map] at hgap
  rw [livres, List.pairwise_map]
  refine hgap.imp_of_mem fun {x y} hx _ hxy ↦ ?_
  have htam : s.tam x.1 = x.2 := h.tam_eq _ (mem_buracos.mp hx)
  rw [somaPtr, htam, sizeofHeader_eq]
  simp only [extensao] at hxy
  omega

theorem Invariante.ne_of_mem_livres {ts : List Tile} {S : Sistema} (h : Invariante ts S)
    {x : ℕ × ℕ} (hx : x ∈ S.vivos) {a : ℕ} (ha : a ∈ livres S.est.endBaseMemoria ts) :
    x.1 ≠ a + sizeofHeader := by
  intro heq
  obtain ⟨b, n, hb, hp⟩ := mem_alocados.mp (h.vivos.mem_iff.mp hx)
  obtain ⟨m, hm⟩ := mem_livres.mp ha
  have hab : b = a := Nat.add_right_cancel (hp.symm.trans heq)
  have := eq_of_mem_layout Tile.bytes_pos hb hm hab
  simp at this

/-- **The arena stays tiled.** After any calls that return, the walk by size visits blocks that fill
exactly `tamMemoria`. Every live block and every free one is among them and none is both, the free
list is increasing, and no two of its neighbours touch. -/
theorem arena_tiled (prog : Programa) {lixo : ℕ → Header} {endBase : ℕ} {S : Sistema}
    (hbase : 0 < endBase) (h : Reachable (Passo prog) (inicial lixo endBase) S) :
    ∃ bs l, mostraMem S.est = (bs, tamMemoria) ∧ ListaLivres S.est l ∧
      (∀ x ∈ S.vivos, ∃ b ∈ bs, x.1 = b.1 + sizeofHeader) ∧
      (∀ a ∈ l, ∃ b ∈ bs, a = b.1) ∧
      (∀ x ∈ S.vivos, ∀ a ∈ l, x.1 ≠ a + sizeofHeader) ∧
      l.Pairwise (· < ·) ∧
      l.IsChain fun a b ↦ somaPtr a (S.est.tam a + sizeofHeader) ≠ b := by
  obtain ⟨ts, hI⟩ := exists_invariante hbase h
  refine ⟨_, livres S.est.endBaseMemoria ts, hI.represents.mostraMem hI.total,
    hI.represents.chain, ?_, ?_, fun x hx a ha ↦ hI.ne_of_mem_livres hx ha, pairwise_livres _ ts,
    hI.represents.isChain_livres hI.separado⟩
  · rintro ⟨p, t⟩ hx
    obtain ⟨b, n, hb, rfl⟩ := mem_alocados.mp (hI.vivos.mem_iff.mp hx)
    exact ⟨(b, n), List.mem_map.mpr ⟨_, hb, rfl⟩, rfl⟩
  · intro a ha
    obtain ⟨n, hn⟩ := mem_livres.mp ha
    exact ⟨(a, n), List.mem_map.mpr ⟨_, hn, rfl⟩, rfl⟩

/-- A run of `gmsimples.c` in which the first of two blocks is freed. -/
theorem arena_tiled_after_free : ∃ S, roda .gmsimples [.aloca 20, .aloca 5, .libera 32] = some S ∧
    ∃ bs l, mostraMem S.est = (bs, tamMemoria) ∧ ListaLivres S.est l ∧
      (∀ x ∈ S.vivos, ∃ b ∈ bs, x.1 = b.1 + sizeofHeader) ∧
      (∀ a ∈ l, ∃ b ∈ bs, a = b.1) ∧
      (∀ x ∈ S.vivos, ∀ a ∈ l, x.1 ≠ a + sizeofHeader) ∧
      l.Pairwise (· < ·) ∧
      l.IsChain fun a b ↦ somaPtr a (S.est.tam a + sizeofHeader) ≠ b := by
  obtain ⟨S, hS⟩ := Option.isSome_iff_exists.mp
    (by decide : (roda .gmsimples [.aloca 20, .aloca 5, .libera 32]).isSome)
  obtain ⟨hist, tr, -⟩ := exists_trace_of_roda hS
  exact ⟨S, hS, arena_tiled .gmsimples (by decide) ⟨hist, tr⟩⟩

/-! ## The users do not interfere -/

theorem Invariante.exists_tile {ts : List Tile} {S : Sistema} (h : Invariante ts S) {p t : ℕ}
    (hx : (p, t) ∈ S.vivos) : ∃ b x, (b, x) ∈ blocos S.est.endBaseMemoria ts ∧ p = b + 16 ∧
      t ≤ x.tam := by
  obtain ⟨b, n, hb, rfl⟩ := mem_alocados.mp (h.vivos.mem_iff.mp hx)
  obtain ⟨u, v, hts, -⟩ := mem_blocos_iff.mp hb
  exact ⟨b, _, hb, rfl, h.cabe _ (by simp [hts]) t rfl⟩

theorem pairwise_disjoint_alocados {ts : List Tile} (a : ℕ)
    (h : ∀ x ∈ ts, ∀ t, x.uso = .vivo t → t ≤ x.tam) : (alocados a ts).Pairwise fun x y ↦
      Disjoint (Set.Ico x.1 (x.1 + x.2)) (Set.Ico y.1 (y.1 + y.2)) := by
  rw [alocados, List.pairwise_filterMap]
  refine (pairwise_layout a ts).imp_of_mem fun {b c} hb _ hbc x hx y hy ↦ ?_
  obtain ⟨b, n, uso⟩ := b
  obtain ⟨c, m, uso'⟩ := c
  obtain ⟨rfl, hxp⟩ := alocacao_eq_some (b := (b, n)) hx
  obtain ⟨rfl, hyp⟩ := alocacao_eq_some (b := (c, m)) hy
  obtain ⟨u, v, hts, -⟩ := mem_blocos_iff.mp hb
  have ht : x.2 ≤ n := h ⟨n, .vivo x.2⟩ (by simp [hts]) x.2 rfl
  simp only [Tile.bytes_eq] at hbc hxp hyp
  rw [Set.disjoint_left]
  intro z hz hz'
  rw [Set.mem_Ico] at hz hz'
  omega

theorem Invariante.disjoint_header {ts : List Tile} {S : Sistema} (h : Invariante ts S)
    {x : ℕ × ℕ} (hx : x ∈ S.vivos) {b : ℕ × Tile} (hb : b ∈ blocos S.est.endBaseMemoria ts) :
    Disjoint (Set.Ico x.1 (x.1 + x.2)) (Set.Ico b.1 (b.1 + sizeofHeader)) := by
  obtain ⟨p, t⟩ := x
  obtain ⟨c, y, hc, rfl, ht⟩ := h.exists_tile hx
  have hcases := eq_or_apart_of_mem_layout hc hb
  simp only [Tile.bytes_eq] at hcases
  rw [Set.disjoint_left]
  intro z hz hz'
  simp only [Set.mem_Ico, sizeofHeader_eq] at hz hz'
  rcases hcases with rfl | hlt | hlt
  · omega
  · omega
  · omega

/-- The user stores something at the byte `q`: any header record that overlaps the byte may change,
in any way, and nothing else does. -/
structure EscritaUsuario (s : Estado) (q : ℕ) (s' : Estado) : Prop where
  listaLivres_eq : s'.listaLivres = s.listaLivres
  endBaseMemoria_eq : s'.endBaseMemoria = s.endBaseMemoria
  header_eq : ∀ a, q < a ∨ a + sizeofHeader ≤ q → s'.header a = s.header a

theorem Representa.congr {ts : List Tile} {s s' : Estado} (h : Representa ts s)
    (hlista : s'.listaLivres = s.listaLivres) (hbase : s'.endBaseMemoria = s.endBaseMemoria)
    (hheader : ∀ b ∈ blocos s.endBaseMemoria ts, s'.header b.1 = s.header b.1) :
    Representa ts s' := by
  refine ⟨hbase ▸ h.base_pos, ?_, ?_⟩
  · intro b hb
    rw [hbase] at hb
    rw [Estado.tam, hheader b hb]
    exact h.tam_eq b hb
  · rw [hlista, hbase]
    refine h.lista.congr fun a ha ↦ ?_
    obtain ⟨n, hn⟩ := mem_livres.mp ha
    rw [Estado.prox, hheader _ hn, Estado.prox]

/-- **Live allocations do not interfere.** The byte ranges of two live allocations are disjoint, no
range meets the header of a tile, and whatever a user stores inside a range leaves every header,
both walks and the globals as they were. -/
theorem payloads_apart {lixo : ℕ → Header} {endBase : ℕ} {S : Sistema} (hbase : 0 < endBase)
    (h : Reachable (Passo .gmsimples) (inicial lixo endBase) S) :
    (S.vivos.Pairwise fun x y ↦
      Disjoint (Set.Ico x.1 (x.1 + x.2)) (Set.Ico y.1 (y.1 + y.2))) ∧
    (∀ x ∈ S.vivos, ∀ b ∈ (mostraMem S.est).1,
      Disjoint (Set.Ico x.1 (x.1 + x.2)) (Set.Ico b.1 (b.1 + sizeofHeader))) ∧
    ∀ x ∈ S.vivos, ∀ q ∈ Set.Ico x.1 (x.1 + x.2), ∀ s', EscritaUsuario S.est q s' →
      mostraMem s' = mostraMem S.est ∧
      (∀ b ∈ (mostraMem S.est).1, s'.header b.1 = S.est.header b.1) ∧
      ∀ l, ListaLivres s' l ↔ ListaLivres S.est l := by
  obtain ⟨ts, hI⟩ := exists_invariante hbase h
  have hmem : ∀ b ∈ (mostraMem S.est).1, ∃ x, (b.1, x) ∈ blocos S.est.endBaseMemoria ts := by
    intro b hb
    rw [hI.represents.mostraMem hI.total] at hb
    obtain ⟨c, hc, rfl⟩ := List.mem_map.mp hb
    exact ⟨c.2, hc⟩
  refine ⟨?_, ?_, ?_⟩
  · rw [hI.vivos.pairwise_iff fun hxy ↦ hxy.symm]
    exact pairwise_disjoint_alocados _ hI.cabe
  · intro x hx b hb
    obtain ⟨y, hy⟩ := hmem b hb
    exact hI.disjoint_header hx hy
  · intro x hx q hq s' hw
    -- a store inside a payload touches no header, so the state still represents the tiles
    have hkeep : ∀ b ∈ blocos S.est.endBaseMemoria ts, s'.header b.1 = S.est.header b.1 := by
      intro b hb
      refine hw.header_eq b.1 ?_
      have hnot := Set.disjoint_left.mp (hI.disjoint_header hx hb) hq
      rw [Set.mem_Ico] at hnot
      omega
    have hrep := hI.represents.congr hw.listaLivres_eq hw.endBaseMemoria_eq hkeep
    refine ⟨?_, ?_, ?_⟩
    · rw [hrep.mostraMem hI.total, hI.represents.mostraMem hI.total, hw.endBaseMemoria_eq]
    · intro b hb
      obtain ⟨y, hy⟩ := hmem b hb
      exact hkeep _ hy
    · have hchain := hrep.chain
      rw [hw.endBaseMemoria_eq] at hchain
      intro l
      constructor
      · intro hl
        exact hchain.unique hl ▸ hI.represents.chain
      · intro hl
        exact hI.represents.chain.unique hl ▸ hchain

/-- Two live allocations of 20 and 5 bytes. -/
theorem payloads_apart_two : ∃ S, roda .gmsimples [.aloca 20, .aloca 5] = some S ∧
    (S.vivos.Pairwise fun x y ↦
      Disjoint (Set.Ico x.1 (x.1 + x.2)) (Set.Ico y.1 (y.1 + y.2))) ∧
    ∀ x ∈ S.vivos, ∀ b ∈ (mostraMem S.est).1,
      Disjoint (Set.Ico x.1 (x.1 + x.2)) (Set.Ico b.1 (b.1 + sizeofHeader)) := by
  obtain ⟨S, hS⟩ := Option.isSome_iff_exists.mp
    (by decide : (roda .gmsimples [.aloca 20, .aloca 5]).isSome)
  obtain ⟨hist, tr, -⟩ := exists_trace_of_roda hS
  have happly := payloads_apart (by decide) ⟨hist, tr⟩
  exact ⟨S, hS, happly.1, happly.2.1⟩

end SistemasOperacionais.Gm
