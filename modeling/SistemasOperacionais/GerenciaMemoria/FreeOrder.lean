import SistemasOperacionais.GerenciaMemoria.Runs

/-!
# The order of frees does not matter

Freeing adds the extent of a block to the bytes covered by the free list, whatever is merged on the
way. So two orders of freeing the same blocks end with free lists that cover the same bytes. A
separated arena leaves only one way to cover a set of bytes, which makes the two lists equal.
-/

namespace SistemasOperacionais.Gm

open Foundations

/-- The bytes of the live tile whose user holds `p`, its header included. -/
def extensaoViva (a : ℕ) (ts : List Tile) (p : ℕ) : Set ℕ :=
  {x | ∃ b n t, (b, ⟨n, .vivo t⟩) ∈ blocos a ts ∧ p = b + 16 ∧ b ≤ x ∧ x < b + (n + 16) * 16}

/-- The bytes covered by the free tiles and by the live tiles with pointers in `Q`: what the free
list covers once `Q` has been freed. -/
def coberto (a : ℕ) (ts : List Tile) (Q : Set ℕ) : Set ℕ :=
  cover ((buracos a ts).map extensao) ∪ ⋃ p ∈ Q, extensaoViva a ts p

theorem coberto_empty (a : ℕ) (ts : List Tile) :
    coberto a ts ∅ = cover ((buracos a ts).map extensao) := by
  simp [coberto]

theorem Funde.mem_blocos_iff_of_ne {ts ts' : List Tile} (h : Funde ts ts') {a b : ℕ} {x : Tile}
    (hx : x.uso ≠ .livre) : (b, x) ∈ blocos a ts' ↔ (b, x) ∈ blocos a ts := by
  obtain ⟨u, k, n, v⟩ := h
  have hshift : fim a u + (k + 16) * 16 + (n + 16) * 16 = fim a u + (k + 16 + n + 16) * 16 := by
    ring
  have hne : ∀ c m, (b, x) ≠ (c, ⟨m, .livre⟩) := by
    intro c m heq
    rw [Prod.mk.injEq] at heq
    exact hx (by rw [heq.2])
  simp only [blocos_append, blocos_cons, List.mem_append, List.mem_cons, hshift, hne, false_or]

theorem FundeVarias.mem_blocos_iff_of_ne {ts ts' : List Tile} (h : FundeVarias ts ts') {a b : ℕ}
    {x : Tile} (hx : x.uso ≠ .livre) : (b, x) ∈ blocos a ts' ↔ (b, x) ∈ blocos a ts := by
  induction h with
  | refl => rfl
  | tail _ hs ih => rw [hs.mem_blocos_iff_of_ne hx, ih]

theorem mem_blocos_livre_iff {u v : List Tile} {a n t b m t' : ℕ} :
    (b, ⟨m, .vivo t'⟩) ∈ blocos a (u ++ ⟨n, .livre⟩ :: v) ↔
      (b, ⟨m, .vivo t'⟩) ∈ blocos a (u ++ ⟨n, .vivo t⟩ :: v) ∧ b ≠ fim a u := by
  constructor
  · intro hb
    rcases mem_blocos_cut hb with ⟨hb, hlt⟩ | heq | ⟨hb, hge⟩
    · exact ⟨mem_blocos_left hb, hlt.ne⟩
    · simp at heq
    · refine ⟨mem_blocos_right hb, ?_⟩
      simp only at hge
      omega
  · rintro ⟨hb, hne⟩
    rcases mem_blocos_cut hb with ⟨hb, -⟩ | heq | ⟨hb, -⟩
    · exact mem_blocos_left hb
    · exact absurd (congrArg Prod.fst heq) hne
    · exact mem_blocos_right hb

theorem mem_extensaoViva_cut {u v : List Tile} {a n t x : ℕ} :
    x ∈ extensaoViva a (u ++ ⟨n, .vivo t⟩ :: v) (fim a u + 16) ↔
      fim a u ≤ x ∧ x < fim a u + (n + 16) * 16 := by
  have hmem : (fim a u, ⟨n, .vivo t⟩) ∈ blocos a (u ++ ⟨n, .vivo t⟩ :: v) :=
    mem_blocos_iff.mpr ⟨u, v, rfl, rfl⟩
  constructor
  · rintro ⟨b, m, t', hb, hp, hx⟩
    have hbu : b = fim a u := (Nat.add_right_cancel hp).symm
    have heq := eq_of_mem_layout Tile.bytes_pos hb hmem hbu
    simp only [Prod.mk.injEq, Tile.mk.injEq] at heq
    rwa [heq.1, heq.2.1] at hx
  · rintro hx
    exact ⟨_, n, t, hmem, rfl, hx⟩

theorem extensaoViva_libera {u v ts' : List Tile} {a n t q : ℕ}
    (hf : FundeVarias (u ++ ⟨n, .livre⟩ :: v) ts') : extensaoViva a ts' q
      = if q = fim a u + 16 then ∅ else extensaoViva a (u ++ ⟨n, .vivo t⟩ :: v) q := by
  ext x
  simp only [extensaoViva, Set.mem_ofPred_eq]
  by_cases hq : q = fim a u + 16
  · rw [if_pos hq, Set.mem_empty_iff_false, iff_false]
    rintro ⟨b, m, t', hb, hp, -⟩
    rw [hf.mem_blocos_iff_of_ne (by simp), mem_blocos_livre_iff (t := t)] at hb
    omega
  · rw [if_neg hq]
    constructor
    · rintro ⟨b, m, t', hb, hp, hx⟩
      rw [hf.mem_blocos_iff_of_ne (by simp), mem_blocos_livre_iff (t := t)] at hb
      exact ⟨b, m, t', hb.1, hp, hx⟩
    · rintro ⟨b, m, t', hb, hp, hx⟩
      refine ⟨b, m, t', ?_, hp, hx⟩
      rw [hf.mem_blocos_iff_of_ne (by simp), mem_blocos_livre_iff (t := t)]
      exact ⟨hb, by omega⟩

/-- **One call of `meu_libera`** moves its block from the blocks to be freed to the free ones. -/
theorem coberto_libera {u v ts' : List Tile} {a n t : ℕ} {Q : Set ℕ}
    (hf : FundeVarias (u ++ ⟨n, .livre⟩ :: v) ts') :
    coberto a ts' Q = coberto a (u ++ ⟨n, .vivo t⟩ :: v) (insert (fim a u + 16) Q) := by
  -- merging does not change what the holes cover, so only the freed block is new
  have hcover : cover ((buracos a ts').map extensao)
      = cover ((buracos a (u ++ ⟨n, .vivo t⟩ :: v)).map extensao)
        ∪ extensaoViva a (u ++ ⟨n, .vivo t⟩ :: v) (fim a u + 16) := by
    rw [hf.cover_eq]
    ext x
    rw [Set.mem_union, mem_extensaoViva_cut, buracos_append, buracos_append, buracos_cons_livre,
      buracos_cons_of_ne _ (by simp)]
    simp only [mem_cover, List.map_append, List.map_cons, List.mem_append, List.mem_cons]
    constructor
    · rintro ⟨i, hi | rfl | hi, hx⟩
      · exact Or.inl ⟨i, Or.inl hi, hx⟩
      · exact Or.inr hx
      · exact Or.inl ⟨i, Or.inr hi, hx⟩
    · rintro (⟨i, hi | hi, hx⟩ | hx)
      · exact ⟨i, Or.inl hi, hx⟩
      · exact ⟨i, Or.inr (Or.inr hi), hx⟩
      · exact ⟨_, Or.inr (Or.inl rfl), hx⟩
  rw [coberto, coberto, hcover, Set.biUnion_insert, Set.union_assoc]
  congr 1
  ext x
  simp only [Set.mem_union, Set.mem_iUnion, extensaoViva_libera (t := t) hf, exists_prop]
  constructor
  · rintro (hx | ⟨q, hq, hx⟩)
    · exact Or.inl hx
    · split at hx
      · exact absurd hx (Set.notMem_empty x)
      · exact Or.inr ⟨q, hq, hx⟩
  · rintro (hx | ⟨q, hq, hx⟩)
    · exact Or.inl hx
    · by_cases heq : q = fim a u + 16
      · exact Or.inl (heq ▸ hx)
      · exact Or.inr ⟨q, hq, by rwa [if_neg heq]⟩

/-- **A run of frees.** -/
theorem Invariante.coberto_eq {S S' : Sistema} {hist : List (Sistema × Op)} {ts : List Tile}
    (hI : Invariante ts S) (tr : Trace (Passo .gmsimples) S hist S')
    (hops : ∀ op ∈ hist.map Prod.snd, ∃ p, op = .libera p) :
    ∃ ts', Invariante ts' S' ∧ S'.est.endBaseMemoria = S.est.endBaseMemoria ∧
      ∀ Q, coberto S.est.endBaseMemoria ts' Q
        = coberto S.est.endBaseMemoria ts (Q ∪ {p | .libera p ∈ hist.map Prod.snd}) := by
  induction tr with
  | nil => exact ⟨ts, hI, rfl, fun Q ↦ by simp⟩
  | snoc tr hp ih =>
    rename_i hist S₁ S₂ op
    rw [List.map_append, List.map_cons, List.map_nil] at hops
    obtain ⟨ts₁, hI₁, hbase₁, hcob⟩ := ih fun op hop ↦ hops op (List.mem_append_left _ hop)
    obtain ⟨p, rfl⟩ := hops op (by simp)
    obtain ⟨ts₂, hE, hI₂, hbase₂, -⟩ := hI₁.passo hp
    refine ⟨ts₂, hI₂, hbase₂.trans hbase₁, fun Q ↦ ?_⟩
    generalize hop : Op.libera p = op at hE
    cases hE with
    | recusa => exact absurd hop (by simp)
    | aloca => exact absurd hop (by simp)
    | libera u n t v _ hf =>
      obtain rfl : p = fim S₁.est.endBaseMemoria u + 16 := by simpa using hop
      rw [hbase₁] at *
      rw [coberto_libera (t := t) hf, hcob]
      congr 1
      ext q
      simp [or_assoc, or_comm]

theorem extensao_injective : Function.Injective extensao := by
  rintro ⟨b, n⟩ ⟨c, m⟩ h
  simp only [extensao, Prod.mk.injEq] at h ⊢
  omega

/-- **The order of frees does not matter.** From any state of a run, freeing the same blocks in two
orders, when both complete, leaves the same addresses on the free list, with the same sizes. -/
theorem free_list_of_perm {lixo : ℕ → Header} {endBase : ℕ} {S S₁ S₂ : Sistema} {ps qs : List ℕ}
    {h₁ h₂ : List (Sistema × Op)} (hbase : 0 < endBase)
    (h : Reachable (Passo .gmsimples) (inicial lixo endBase) S) (hperm : ps.Perm qs)
    (t₁ : Trace (Passo .gmsimples) S h₁ S₁) (hops₁ : h₁.map Prod.snd = ps.map .libera)
    (t₂ : Trace (Passo .gmsimples) S h₂ S₂) (hops₂ : h₂.map Prod.snd = qs.map .libera) :
    ∃ l, ListaLivres S₁.est l ∧ ListaLivres S₂.est l ∧ ∀ a ∈ l, S₁.est.tam a = S₂.est.tam a := by
  obtain ⟨ts, hI⟩ := exists_invariante hbase h
  have hlib : ∀ rs : List ℕ, ∀ op ∈ rs.map Op.libera, ∃ p, op = .libera p := by
    intro rs op hop
    obtain ⟨p, -, rfl⟩ := List.mem_map.mp hop
    exact ⟨p, rfl⟩
  obtain ⟨ts₁, hI₁, hb₁, hcob₁⟩ := hI.coberto_eq t₁ (hops₁ ▸ hlib ps)
  obtain ⟨ts₂, hI₂, hb₂, hcob₂⟩ := hI.coberto_eq t₂ (hops₂ ▸ hlib qs)
  -- both runs free the same set of blocks, so they cover the same addresses
  have hset : {p | Op.libera p ∈ h₁.map Prod.snd} = {p | Op.libera p ∈ h₂.map Prod.snd} := by
    ext p
    rw [Set.mem_ofPred_eq, Set.mem_ofPred_eq, hops₁, hops₂, (hperm.map Op.libera).mem_iff]
  have hcover : cover ((buracos S.est.endBaseMemoria ts₁).map extensao)
      = cover ((buracos S.est.endBaseMemoria ts₂).map extensao) := by
    rw [← coberto_empty, ← coberto_empty, hcob₁, hcob₂, hset]
  -- holes that never touch are determined by what they cover
  have hholes : buracos S.est.endBaseMemoria ts₁ = buracos S.est.endBaseMemoria ts₂ :=
    extensao_injective.list_map (hI₁.separado.spaced.eq_of_cover_eq hI₂.separado.spaced hcover)
  have hlivres : livres S.est.endBaseMemoria ts₁ = livres S.est.endBaseMemoria ts₂ := by
    rw [livres, hholes, livres]
  have hc₁ := hI₁.represents.chain
  have hc₂ := hI₂.represents.chain
  rw [hb₁] at hc₁
  rw [hb₂, ← hlivres] at hc₂
  refine ⟨_, hc₁, hc₂, fun a ha ↦ ?_⟩
  obtain ⟨n, hn⟩ := mem_livres.mp ha
  have hn₂ := mem_buracos.mp (hholes ▸ mem_buracos.mpr hn)
  have htam₁ := hI₁.represents.tam_eq _ (hb₁ ▸ hn)
  have htam₂ := hI₂.represents.tam_eq _ (hb₂ ▸ hn₂)
  exact htam₁.trans htam₂.symm

/-- Two adjacent blocks freed in both orders. -/
theorem free_list_of_swap : ∃ S S₁ S₂,
    roda .gmsimples [.aloca 20, .aloca 5, .aloca 7] = some S ∧
    execute (executa .gmsimples 8) S [.libera 32, .libera 608] = some S₁ ∧
    execute (executa .gmsimples 8) S [.libera 608, .libera 32] = some S₂ ∧
    ∃ l, ListaLivres S₁.est l ∧ ListaLivres S₂.est l ∧
      ∀ a ∈ l, S₁.est.tam a = S₂.est.tam a := by
  obtain ⟨S, hS⟩ := Option.isSome_iff_exists.mp
    (by decide : (roda .gmsimples [.aloca 20, .aloca 5, .aloca 7]).isSome)
  have hrun : ((roda .gmsimples [.aloca 20, .aloca 5, .aloca 7]).map fun S ↦
      ((execute (executa .gmsimples 8) S [.libera 32, .libera 608]).isSome,
        (execute (executa .gmsimples 8) S [.libera 608, .libera 32]).isSome))
      = some (true, true) := by decide
  rw [hS, Option.map_some, Option.some.injEq, Prod.mk.injEq] at hrun
  obtain ⟨S₁, hS₁⟩ := Option.isSome_iff_exists.mp hrun.1
  obtain ⟨S₂, hS₂⟩ := Option.isSome_iff_exists.mp hrun.2
  obtain ⟨hist, tr, -⟩ := exists_trace_of_roda hS
  obtain ⟨h₁, t₁, hops₁⟩ := exists_trace_of_execute passo_of_executa hS₁
  obtain ⟨h₂, t₂, hops₂⟩ := exists_trace_of_execute passo_of_executa hS₂
  exact ⟨S, S₁, S₂, hS, hS₁, hS₂, free_list_of_perm (by decide) ⟨hist, tr⟩
    (List.Perm.swap 608 32 []) t₁ hops₁ t₂ hops₂⟩

end SistemasOperacionais.Gm
