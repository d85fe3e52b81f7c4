import SistemasOperacionais.GerenciaMemoria.Mmu.Calls
import Mathlib.Order.CompletePartialOrder

/-!
# The layout of `MMU.c`

A block of size `T` at `a` occupies the bytes from `a` to `a + hole_size + T`. To cut `size` bytes
off its end `meu_aloca` puts the new header at `a + T - size - hole_size`, which forgets the header
of the block itself and is `hole_size` too low: the old block is left with the size `T - size -
hole_size` and should end `hole_size` bytes later. So the first split of a run already breaks the
layout, and the layout is kept exactly by the runs that never split.
-/

namespace SistemasOperacionais.Mmu

open Foundations

/-! ## Laid out states -/

/-- The bytes of the header at `a`. -/
def cabecalho (a : ℕ) : Set ℤ := Set.Ico (a : ℤ) (a + holeSize)

/-- The bytes the user may write to. -/
def conteudo (x : ℕ × ℤ) : Set ℤ := Set.Ico (x.1 : ℤ) (x.1 + x.2)

/-- The list `l` found by following `next` from `hole_list` fills the `tot` bytes from `base`: each
block starts where the one before it ends, and headers and live contents do not overlap. -/
structure Leiaute (base : ℕ) (tot : ℤ) (S : Sistema ByteMemory) (l : List ℕ) : Prop where
  linked : Chain 0 (bytes.next S.mem) S.holeList l
  contiguo : l.IsChain fun a b : ℕ ↦ (b : ℤ) = a + holeSize + |bytes.tam S.mem a|
  fim : ∀ a : ℕ, a ∈ l.getLast? → (a : ℤ) + holeSize + |bytes.tam S.mem a| = base + tot
  dentro : ∀ r ∈ l.map cabecalho ++ S.vivos.map conteudo, r ⊆ Set.Ico (base : ℤ) (base + tot)
  disjuntos : (l.map cabecalho ++ S.vivos.map conteudo).Pairwise Disjoint

/-- The request does not split the block at `hole_list`. -/
def NaoDivide (S : Sistema ByteMemory) : Op → Prop
  | .aloca size => bytes.tam S.mem S.holeList = size ∨
      bytes.tam S.mem S.holeList ≤ wrap (size + holeSize)
  | .desaloca _ => True

/-- The arena is a single block. -/
structure Unico (base : ℕ) (tot : ℤ) (S : Sistema ByteMemory) (t : ℤ) : Prop where
  rep : Rep bytes Separados (· < 2 ^ 64) S.holeList S.mem [(base, t)]
  livro : Livro bytes tot [(base, t)] S.vivos

theorem tamanho_eq {n : ℤ} (h : Inteiro n) : tamanho n = if n < 24 then 24 + n else n := by
  obtain ⟨hlo, hhi⟩ := h
  rw [tamanho, holeSize_eq]
  split
  · exact wrap_of_inteiro ⟨by omega, by omega⟩
  · rfl

theorem tamanho_lt {n : ℤ} (h : Inteiro n) : tamanho n < 2 ^ 31 := by
  rw [tamanho_eq h]
  obtain ⟨-, hhi⟩ := h
  split <;> omega

namespace Unico

variable {base : ℕ} {tot t n : ℤ} {S S' : Sistema ByteMemory} {op : Op}

theorem holeList_eq (h : Unico base tot S t) : S.holeList = base := by
  obtain ⟨e, he, -⟩ := h.rep.chain.dseg
  exact he

theorem total (h : Unico base tot S t) : |t| + holeSize = tot := by
  have := h.livro.total
  rwa [soma_cons, soma_nil, add_zero] at this

theorem tam_eq (h : Unico base tot S t) : bytes.tam S.mem S.holeList = t := by
  rw [h.holeList_eq]
  exact h.rep.tam_eq (base, t) (List.mem_singleton_self _)

theorem inicial {lixo : ByteMemory} (hn : Inteiro n) (hpos : 0 ≤ n) (hb : 0 < base)
    (hend : base + tamanho n < 2 ^ 64) :
    Unico base (tamanho n) (inicial bytes lixo base n) (tamanho n - holeSize) := by
  have hlt := tamanho_lt hn
  have hge : 24 ≤ tamanho n := by
    rw [tamanho_eq hn]
    split <;> omega
  have hnonneg : 0 ≤ tamanho n - holeSize := by
    rw [holeSize_eq]
    omega
  have hword : base < 2 ^ 64 := by omega
  have htam : wrap (tamanho n - holeSize) = tamanho n - holeSize :=
    wrap_of_inteiro ⟨by omega, by rw [holeSize_eq]; omega⟩
  have hrep := rep_inicializaMemoria acesso_bytes lixo n (Or.inl rfl) hword hb.ne'
  rw [htam] at hrep
  refine ⟨hrep, ?_, ?_⟩
  · rw [soma_cons, soma_nil, abs_of_nonneg hnonneg]
    ring
  · rw [ocupados_cons_pos hnonneg]
    exact List.Perm.refl _

theorem avanca_eq (h : Unico base tot S t) (hend : base + tot < 2 ^ 64) :
    bytes.avanca base = base + 24 := by
  have htot := h.total
  have habs := abs_nonneg t
  simp only [bytes, endereco, holeSize_eq] at htot ⊢
  omega

/-- A request that does not split: it is refused, or it takes the block as a whole. -/
theorem meuAloca {k : ℕ} {size : ℤ} {r : ℕ × ByteMemory} (h : Unico base tot S t)
    (hg : NaoDivide S (.aloca size)) (hm : bytes.meuAloca k S.mem S.holeList size = .ok r) :
    r = (0, S.mem) ∨ t = size ∧ r = (bytes.avanca base, bytes.setTam S.mem base (wrap (-t))) := by
  rcases h.rep.meuAloca_cases hm with ⟨-, hr⟩ | ⟨xs, a, u, ys, hbs, -, hr⟩
  · exact Or.inl hr
  obtain ⟨rfl, hx, rfl⟩ := eq_of_singleton_eq hbs
  cases hx
  rcases hr with ⟨rfl, hr⟩ | ⟨hne, hlt, -⟩
  · exact Or.inr ⟨rfl, hr⟩
  · rw [NaoDivide, h.tam_eq] at hg
    exact absurd hlt (not_lt.mpr (hg.resolve_left hne))

theorem passo (htot : tot < 2 ^ 31) (hend : base + tot < 2 ^ 64) (h : Unico base tot S t)
    (hg : NaoDivide S op) (hs : Passo bytes Positivo S op S') : ∃ t', Unico base tot S' t' := by
  cases hs with
  | aloca hok hp hm =>
    rcases h.meuAloca hg hm with hr | ⟨rfl, hr⟩
    · exact absurd (Prod.mk.inj hr).1 hp
    · cases hr
      have hrep := h.rep
      rw [← List.nil_append [(base, t)]] at hrep
      obtain ⟨he, hrep⟩ := hrep.exato acesso_bytes hok
      exact ⟨_, hrep, h.livro.efeito he⟩
  | recusa hok hm =>
    rcases h.meuAloca hg hm with hr | ⟨rfl, hr⟩
    · cases hr
      exact ⟨t, h⟩
    · -- the address of the contents is not `NULL`
      have hnull := (Prod.mk.inj hr).1
      rw [h.avanca_eq hend] at hnull
      omega
  | desaloca hp hm =>
    obtain ⟨bs', he, hrep, -⟩ := h.rep.solta acesso_bytes h.livro htot hp hm
    have hlivro := h.livro.efeito he
    obtain ⟨xs, ys, a, u, hbs, -, rfl⟩ := he.of_desaloca
    obtain ⟨rfl, hx, rfl⟩ := eq_of_singleton_eq hbs
    cases hx
    exact ⟨-t, hrep, hlivro⟩

theorem next_eq (h : Unico base tot S t) : bytes.next S.mem base = 0 := by
  obtain ⟨e, -, -, he, -⟩ := h.rep.chain.dseg
  exact he

theorem vivos_eq (h : Unico base tot S t) (hend : base + tot < 2 ^ 64) :
    S.vivos = [] ∨ t < 0 ∧ S.vivos = [(base + 24, -t)] := by
  have hviv := h.livro.vivos
  rcases lt_or_ge t 0 with ht | ht
  · rw [ocupados_cons_neg ht, h.avanca_eq hend] at hviv
    exact Or.inr ⟨ht, List.perm_singleton.mp hviv⟩
  · rw [ocupados_cons_pos ht] at hviv
    exact Or.inl (List.perm_nil.mp hviv)

theorem leiaute (h : Unico base tot S t) (hend : base + tot < 2 ^ 64) :
    Leiaute base tot S [base] := by
  have htot := h.total
  have htam := h.tam_eq
  have habs := neg_le_abs t
  have habs' := abs_nonneg t
  rw [h.holeList_eq] at htam
  rw [holeSize_eq] at htot
  have hcab : cabecalho base ⊆ Set.Ico (base : ℤ) (base + tot) :=
    Set.Ico_subset_Ico le_rfl (by rw [holeSize_eq]; omega)
  refine ⟨h.rep.chain.chain, List.isChain_singleton _, ?_, ?_, ?_⟩
  · intro a ha
    obtain rfl := Option.mem_some_iff.mp (List.getLast?_singleton ▸ ha)
    rw [htam, holeSize_eq]
    omega
  · rcases h.vivos_eq hend with hv | ⟨-, hv⟩
    · simpa [hv] using hcab
    · have hcont : conteudo (base + 24, -t) ⊆ Set.Ico (base : ℤ) (base + tot) :=
        Set.Ico_subset_Ico (by push_cast; omega) (by push_cast; omega)
      simpa [hv] using ⟨hcab, hcont⟩
  · rcases h.vivos_eq hend with hv | ⟨-, hv⟩
    · simp [hv]
    · have hdisj : Disjoint (cabecalho base) (conteudo (base + 24, -t)) := by
        refine Set.disjoint_left.mpr fun x hx hx' ↦ ?_
        have hlo : ((base + 24 : ℕ) : ℤ) ≤ x := hx'.1
        have hhi : x < base + holeSize := hx.2
        rw [holeSize_eq] at hhi
        omega
      simpa [hv] using hdisj

end Unico

theorem corte_bytes (m : ByteMemory) (a : ℕ) (size : ℤ) :
    bytes.corte m a size = endereco (a + bytes.tam m a - size - holeSize) := by
  have hcorta : bytes.corta m a (bytes.tam m a) size =
      (endereco (a + bytes.tam m a - size - holeSize), m) := by simp only [bytes]
  rw [Memoria.corte, hcorta]

/-- What is certain after the last block of the list was split, wherever the new header went: the
list continues there, and if it went elsewhere the old block has the size left. -/
theorem divide_bytes {m m' : ByteMemory} {a q : ℕ} {size : ℤ} (ha : a ≠ 0)
    (hn : bytes.next m a = 0) (h : bytes.divide m a size = .ok (q, m')) :
    bytes.corte m a size ≠ 0 ∧ bytes.next m' a = bytes.corte m a size ∧
      (a + 24 ≤ bytes.corte m a size →
        bytes.tam m' a = wrap (bytes.tam m a - size - holeSize)) := by
  have hc := Memoria.corte_ne_zero_of_divide ha h
  have hword : bytes.corte m a size < 2 ^ 64 := by
    rw [corte_bytes, endereco]
    omega
  have haa : Separados a a := Or.inl rfl
  rw [Memoria.divide_eq ha hc, hn] at h
  obtain ⟨-, rfl⟩ := Prod.mk.inj (Except.ok.inj h)
  rw [Memoria.ligaPrev, if_neg (not_not.mpr rfl)]
  refine ⟨hc, ?_, fun hle ↦ ?_⟩
  · rw [acesso_bytes.next_setTam haa, Memoria.ligado, acesso_bytes.next_setNext haa hword,
      if_pos rfl]
  · have hca : Separados (bytes.corte m a size) a := Or.inr (Or.inr hle)
    rw [acesso_bytes.tam_setTam haa (inteiro_wrap _), if_pos rfl, Memoria.ligado,
      acesso_bytes.tam_setNext haa, acesso_bytes.tam_setPrev hca, acesso_bytes.tam_setNext hca,
      acesso_bytes.tam_setTam hca (inteiro_wrap _), if_neg (by omega), acesso_bytes.tam_corta]

/-- The arithmetic of the defect: inside the arena, the new header is never where the block that was
left ends. -/
theorem endereco_ne {base : ℕ} {tot t size : ℤ} (htot : tot < 2 ^ 31)
    (ht : |t| + holeSize = tot) (hs : Positivo size)
    (hin : (endereco (base + t - size - holeSize) : ℤ) < base + tot) :
    (endereco (base + t - size - holeSize) : ℤ) ≠
      base + holeSize + |wrap (t - size - holeSize)| := by
  intro heq
  obtain ⟨hpos, hlt⟩ := hs
  have hlo := neg_abs_le t
  have hhi := le_abs_self t
  have habs := abs_nonneg (wrap (t - size - holeSize))
  rw [holeSize_eq] at *
  have hw : t - size - 24 = 24 + |wrap (t - size - 24)| := by
    rw [endereco] at heq hin
    omega
  have hge : 0 < t - size - 24 := by omega
  rw [wrap_of_inteiro ⟨by omega, by omega⟩, abs_of_pos hge] at hw
  omega

/-- **Any split breaks the layout.** -/
theorem Unico.not_leiaute_of_divide {base q : ℕ} {tot t size : ℤ} {S : Sistema ByteMemory}
    {m : ByteMemory} {vivos : List (ℕ × ℤ)} (htot : tot < 2 ^ 31) (h : Unico base tot S t)
    (hs : Positivo size) (hdiv : bytes.divide S.mem base size = .ok (q, m)) (l : List ℕ) :
    ¬Leiaute base tot ⟨m, S.holeList, vivos⟩ l := by
  intro hl
  have hb0 : base ≠ 0 := h.rep.ne_zero (by simp)
  obtain ⟨hc0, hnext, hleft⟩ := divide_bytes hb0 h.next_eq hdiv
  -- the list has at least the block that was split and the new one
  have hlink := hl.linked
  simp only [h.holeList_eq] at hlink
  obtain ⟨l, rfl⟩ := hlink.exists_cons hb0
  obtain ⟨-, -, hlink⟩ := Chain.cons_iff.mp hlink
  rw [hnext] at hlink
  obtain ⟨l, rfl⟩ := hlink.exists_cons hc0
  have hcont := (List.isChain_cons_cons.mp hl.contiguo).1
  have hin : bytes.corte S.mem base size < base + tot := by
    have hmem : (bytes.corte S.mem base size : ℤ) ∈ cabecalho (bytes.corte S.mem base size) :=
      ⟨le_rfl, by rw [holeSize_eq]; omega⟩
    exact (hl.dentro _ (by simp) hmem).2
  -- the second starts where the first ends, so its header is elsewhere
  have hge : base + 24 ≤ bytes.corte S.mem base size := by
    have := abs_nonneg (bytes.tam m base)
    simp only [holeSize_eq] at hcont
    omega
  have htam : bytes.tam S.mem base = t := h.holeList_eq ▸ h.tam_eq
  simp only [hleft hge] at hcont
  rw [corte_bytes, htam] at hcont hin
  exact endereco_ne htot h.total hs hin hcont

theorem Unico.divide_of_meuAloca {base n : ℕ} {tot t size : ℤ} {S : Sistema ByteMemory}
    {r : ℕ × ByteMemory} (h : Unico base tot S t) (hg : ¬NaoDivide S (.aloca size))
    (hm : bytes.meuAloca n S.mem S.holeList size = .ok r) :
    bytes.divide S.mem base size = .ok r := by
  rw [NaoDivide, h.tam_eq, not_or, not_le] at hg
  rcases h.rep.meuAloca_cases hm with ⟨hall, -⟩ | ⟨xs, a, u, ys, hbs, -, hr⟩
  · exact absurd (Or.inr hg.2) (hall (base, t) (List.mem_singleton_self _))
  obtain ⟨-, hx, -⟩ := eq_of_singleton_eq hbs
  cases hx
  rcases hr with ⟨ht, -⟩ | ⟨-, -, hdiv⟩
  · exact absurd ht hg.1
  · exact hdiv

theorem Unico.not_leiaute {base : ℕ} {tot t : ℤ} {S S' : Sistema ByteMemory} {op : Op}
    (htot : tot < 2 ^ 31) (h : Unico base tot S t) (hg : ¬NaoDivide S op)
    (hs : Passo bytes Positivo S op S') (l : List ℕ) : ¬Leiaute base tot S' l := by
  cases hs with
  | desaloca => exact absurd trivial hg
  | recusa hok hm => exact h.not_leiaute_of_divide htot hok (h.divide_of_meuAloca hg hm) l
  | aloca hok _ hm => exact h.not_leiaute_of_divide htot hok (h.divide_of_meuAloca hg hm) l

/-- An arena asked for with a negative size starts with that size in its only block. -/
theorem rep_inicial_neg {n : ℤ} {base : ℕ} (lixo : ByteMemory) (hn : Inteiro n) (hneg : n < 0)
    (hb : 0 < base) (hb' : base < 2 ^ 64) :
    Rep bytes Separados (· < 2 ^ 64) base (inicial bytes lixo base n).mem [(base, n)] := by
  have hrep := rep_inicializaMemoria acesso_bytes lixo n (Or.inl rfl) hb' hb.ne'
  have htam : wrap (tamanho n - holeSize) = n := by
    rw [tamanho_eq hn, if_pos (by omega), holeSize_eq, add_sub_cancel_left, wrap_of_inteiro hn]
  rwa [htam] at hrep

theorem not_leiaute_inicial {n : ℤ} {lixo : ByteMemory} {base : ℕ} (hn : Inteiro n) (hneg : n < 0)
    (hb : 0 < base) (hb' : base < 2 ^ 64) (l : List ℕ) :
    ¬Leiaute base (tamanho n) (inicial bytes lixo base n) l := by
  intro hl
  have hrep := rep_inicial_neg lixo hn hneg hb hb'
  obtain rfl := hl.linked.unique hrep.chain.chain
  have hfim := hl.fim base rfl
  rw [hrep.tam_eq (base, n) (List.mem_singleton_self _), tamanho_eq hn, if_pos (by omega),
    holeSize_eq, abs_of_neg hneg] at hfim
  omega

/-- For every arena that `malloc` grants: the layout is kept in every state of a run exactly when
the size given to `inicializa_memoria` is not negative and no request of the run splits a block. -/
theorem leiaute_everywhere_iff {n : ℤ} {lixo : ByteMemory} {base : ℕ} {S : Sistema ByteMemory}
    {hist : List (Sistema ByteMemory × Op)} (hn : Inteiro n) (hb : 0 < base)
    (hpos : 0 ≤ tamanho n) (hend : base + tamanho n < 2 ^ 64)
    (tr : Trace (Passo bytes Positivo) (inicial bytes lixo base n) hist S) :
    Trace.Everywhere (fun S ↦ ∃ l, Leiaute base (tamanho n) S l) hist S ↔
      0 ≤ n ∧ Trace.Guarded NaoDivide hist := by
  have htot := tamanho_lt hn
  by_cases hnonneg : 0 ≤ n
  · rw [and_iff_right hnonneg]
    refine Trace.everywhere_iff (I := fun S ↦ ∃ t, Unico base (tamanho n) S t)
      ⟨_, Unico.inicial hn hnonneg hb hend⟩ ?_ ?_ ?_ tr
    · rintro S ⟨t, h⟩
      exact ⟨_, h.leiaute hend⟩
    · rintro S op S' ⟨t, h⟩ hg hs
      exact h.passo htot hend hg hs
    · rintro S op S' ⟨t, h⟩ hg hs ⟨l, hl⟩
      exact h.not_leiaute htot hg hs l hl
  · refine ⟨fun hall ↦ ?_, fun h ↦ absurd h.1 hnonneg⟩
    obtain ⟨l, hl⟩ := hall.start tr
    exact absurd hl (not_leiaute_inicial hn (by omega) hb (by omega) l)

/-- A block taken as a whole, released and taken again. -/
theorem leiaute_everywhere_iff_whole : ∃ hist S,
    Trace (Passo bytes Positivo) (inicial bytes (fun _ ↦ 0) 4096 100) hist S ∧
    hist.map Prod.snd = [.aloca 76, .desaloca 4120, .aloca 76] ∧
    (Trace.Everywhere (fun S ↦ ∃ l, Leiaute 4096 (tamanho 100) S l) hist S ↔
      0 ≤ (100 : ℤ) ∧ Trace.Guarded NaoDivide hist) := by
  have hrun : (execute (executa bytes Positivo 8) (inicial bytes (fun _ ↦ 0) 4096 100)
      [.aloca 76, .desaloca 4120, .aloca 76]).isSome := by decide
  obtain ⟨S, hS⟩ := Option.isSome_iff_exists.mp hrun
  obtain ⟨hist, tr, hops⟩ := exists_trace_of_execute passo_of_executa hS
  exact ⟨hist, S, tr, hops,
    leiaute_everywhere_iff (by decide) (by decide) (by decide) (by decide) tr⟩

/-- The first call of `main`, `meu_aloca(12)` on an arena of 100 bytes: the block of 40 bytes at
4096 ends at 4160, and the next block starts at 4136. -/
theorem leiaute_fails : ∃ S,
    executa bytes Positivo 8 (inicial bytes (fun _ ↦ 0) 4096 100) (.aloca 12) = some S ∧
    Reachable (Passo bytes Positivo) (inicial bytes (fun _ ↦ 0) 4096 100) S ∧
    bytes.tam S.mem 4096 = 40 ∧ bytes.next S.mem 4096 = 4136 ∧
    ∀ l, ¬Leiaute 4096 (tamanho 100) S l := by
  have hrun : (executa bytes Positivo 8 (inicial bytes (fun _ ↦ 0) 4096 100)
      (.aloca 12)).map (fun S ↦ (bytes.tam S.mem 4096, bytes.next S.mem 4096)) =
      some (40, 4136) := by decide
  obtain ⟨S, hS, hobs⟩ := Option.map_eq_some_iff.mp hrun
  simp only [Prod.mk.injEq] at hobs
  have hs := passo_of_executa _ _ _ hS
  refine ⟨S, hS, ⟨_, .snoc .nil hs⟩, hobs.1, hobs.2, fun l ↦ ?_⟩
  have h : Unico 4096 (tamanho 100) (inicial bytes (fun _ ↦ 0) 4096 100)
      (tamanho 100 - holeSize) :=
    Unico.inicial (by decide) (by decide) (by decide) (by decide)
  refine h.not_leiaute (by decide) ?_ hs l
  rw [NaoDivide, h.tam_eq]
  decide

end SistemasOperacionais.Mmu
