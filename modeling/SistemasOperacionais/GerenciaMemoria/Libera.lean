import SistemasOperacionais.GerenciaMemoria.Refinement

/-!
# Freeing a block

`meu_libera` inserts the block at its place in the free list and tries to merge it with the free
blocks on both sides. On tiles: the block is put back to use `livre` and free neighbours are fused.

The scan for the insertion place stops at the first free block above the one being freed, and has no
other way to stop. If there is none it walks off the end of the list, so the call returns exactly
when some free block lies above; both directions are proved here.
-/

namespace SistemasOperacionais.Gm

open Foundations

/-! ## Merging -/

/-- The state a successful `merge` leaves. -/
def fundido (s : Estado) (anterior posterior : ℕ) : Estado :=
  (s.setProx anterior (s.prox posterior)).setTam anterior
    (16 + s.tam anterior + s.tam posterior)

/-- The adjacency test of `merge`, for two headers a whole number of units apart. -/
theorem difPtr_sub_eq_zero_iff (p k m : ℕ) :
    difPtr (p + m * 16) p - (k : ℤ) - (sizeofHeader : ℕ) = 0 ↔ m = k + 16 := by
  have hdif : difPtr (p + m * 16) p = m := by
    rw [difPtr, sizeofHeader_eq]
    push_cast
    omega
  rw [hdif, sizeofHeader_eq]
  omega

theorem merge_of_adjacent {s : Estado} {p k : ℕ} (hp : p ≠ 0) (hk : s.tam p = k) :
    merge s p (p + (k + 16) * 16) = .ok (true, fundido s p (p + (k + 16) * 16)) := by
  have hq : p + (k + 16) * 16 ≠ 0 := by omega
  rw [merge, Estado.lerTam_of_ne hp, hk]
  simp only [bind, Except.bind]
  rw [if_pos ((difPtr_sub_eq_zero_iff p k (k + 16)).mpr rfl), Estado.lerProx_of_ne hq]
  simp only
  rw [Estado.escreveProx_of_ne _ hp]
  simp only
  rw [Estado.lerTam_of_ne hp, Estado.lerTam_of_ne hq]
  simp only
  rw [Estado.escreveTam_of_ne _ hp]
  simp [fundido, hk, pure, Except.pure]

theorem merge_of_apart {s : Estado} {p k m : ℕ} (hp : p ≠ 0) (hk : s.tam p = k)
    (hm : m ≠ k + 16) : merge s p (p + m * 16) = .ok (false, s) := by
  rw [merge, Estado.lerTam_of_ne hp, hk]
  simp only [bind, Except.bind]
  rw [if_neg (mt (difPtr_sub_eq_zero_iff p k m).mp hm)]
  rfl

namespace Representa

variable {u v : List Tile} {s : Estado} {n t : ℕ}

theorem fundido {k : ℕ} (h : Representa (u ++ ⟨k, .livre⟩ :: ⟨n, .livre⟩ :: v) s) :
    Representa (u ++ ⟨k + 16 + n, .livre⟩ :: v)
      (fundido s (fim s.endBaseMemoria u) (fim s.endBaseMemoria u + (k + 16) * 16)) := by
  obtain ⟨hu, hv⟩ := h.lista_cut
  have hk := h.tam_fim
  set a := s.endBaseMemoria with ha
  set e := fim a u with he
  have hn : s.tam (e + (k + 16) * 16) = n :=
    h.tam_eq (e + (k + 16) * 16, ⟨n, .livre⟩) (by simp [← ha, ← he])
  set s' := Gm.fundido s e (e + (k + 16) * 16) with hs'
  have hbase : s'.endBaseMemoria = a := by simp [hs', Gm.fundido, ha]
  have htam : ∀ q, s'.tam q = if q = e then k + 16 + n else s.tam q := by
    intro q
    simp only [hs', Gm.fundido, Estado.tam_setTam, Estado.tam_setProx, hk, hn]
    congr 1
    omega
  have hprox : ∀ q, s'.prox q = if q = e then s.prox (e + (k + 16) * 16) else s.prox q := by
    intro q
    simp [hs', Gm.fundido]
  have hfim : e + (k + 16) * 16 + (n + 16) * 16 = e + (k + 16 + n + 16) * 16 := by ring
  refine ⟨hbase ▸ h.base_pos, ?_, ?_⟩
  · intro b hb
    rw [hbase] at hb
    rw [htam]
    -- the two headers become one; the tiles on either side keep theirs
    rcases mem_blocos_cut hb with ⟨hb, hlt⟩ | rfl | ⟨hb, hge⟩
    · rw [if_neg (by omega)]
      exact h.tam_eq b (mem_blocos_left hb)
    · rw [if_pos rfl]
    · simp only at hb hge
      have hmem : b ∈ blocos (e + (k + 16) * 16) (⟨n, .livre⟩ :: v) := by
        rw [blocos_cons, List.mem_cons]
        right
        rw [hfim]
        exact hb
      rw [if_neg (by omega)]
      exact h.tam_eq b (mem_blocos_right hmem)
  · rw [hbase, livres_append, livres_cons_livre, ← he]
    rw [livres_cons_livre, seg_cons, hfim] at hv
    -- the free blocks before `e` still lead to it, and `e` leads where the second block did
    refine seg_append.mpr ⟨e, ?_, rfl, ?_⟩
    · refine (hu.congr fun b hb ↦ ?_ : Seg s'.prox s.listaLivres (livres a u) e)
      have := (bounds_of_mem_livres hb).2
      rw [hprox, if_neg (by omega)]
    · rw [hprox, if_pos rfl]
      refine hv.2.congr fun b hb ↦ ?_
      have := (bounds_of_mem_livres hb).1
      rw [hprox, if_neg (by omega)]

end Representa

/-! ## The insertion scan -/

/-- The scan passes the free blocks below `e` and then looks at where they lead: past the end of the
list it faults, otherwise it stops there. -/
theorem avanca_eq {s : Estado} {l : List ℕ} {e p r ant m : ℕ}
    (hs : Seg s.prox p l r) (hl : ∀ b ∈ l, b ≠ 0 ∧ b < e) (he : 0 < e) (hr : r = 0 ∨ e ≤ r) :
    avanca s e m ant p = if m ≤ l.length then .error .combustivel
      else if r = 0 then .error .nulo else .ok (l.getLastD ant, r) := by
  -- induction on the blocks still to pass, with the fuel and the predecessor free
  induction l generalizing p ant m with
  | nil =>
    rw [seg_nil] at hs
    subst hs
    cases m with
    | zero => rfl
    | succ m =>
      rw [if_neg (by simp : ¬m + 1 ≤ ([] : List ℕ).length), avanca]
      rcases hr with rfl | hr
      · -- `NULL` is below every block, so the scan goes on and reads its `prox`
        rw [if_pos he, if_pos rfl]
        rfl
      · rw [if_neg (by omega), if_neg (by omega), List.getLastD_nil]
  | cons c l ih =>
    obtain ⟨rfl, hs⟩ := hs
    obtain ⟨hp0, hpe⟩ := hl p List.mem_cons_self
    cases m with
    | zero => rfl
    | succ m =>
      rw [avanca, if_pos hpe, Estado.lerProx_of_ne hp0]
      simp only [bind, Except.bind]
      rw [ih hs fun b hb ↦ hl b (List.mem_cons_of_mem _ hb), List.getLastD_cons,
        List.length_cons]
      simp only [Nat.add_le_add_iff_right]

/-! ## Inserting the block -/

namespace Representa

variable {u v : List Tile} {s : Estado} {n t : ℕ}

theorem lista_cut_of_ne {x : Tile} (hx : x.uso ≠ .livre) (h : Representa (u ++ x :: v) s) :
    ∃ r, Seg s.prox s.listaLivres (livres s.endBaseMemoria u) r ∧
      Seg s.prox r (livres (fim s.endBaseMemoria u + (x.tam + 16) * 16) v) 0 := by
  have hl := h.lista
  rw [livres_append, livres_cons_of_ne _ hx] at hl
  exact seg_append.mp hl

theorem prox_antes {r : ℕ} (hu : Seg s.prox s.listaLivres (livres s.endBaseMemoria u) r)
    (hl : livres s.endBaseMemoria u ≠ []) : s.prox (antes s.endBaseMemoria u) = r := by
  rcases (livres s.endBaseMemoria u).eq_nil_or_concat with h | ⟨l, c, h⟩
  · exact absurd h hl
  · rw [h, List.concat_eq_append] at hu
    rw [antes, h, List.concat_eq_append, List.getLastD_concat]
    exact hu.next_last

theorem insere_head (h : Representa (u ++ ⟨n, .vivo t⟩ :: v) s)
    (hl : livres s.endBaseMemoria u = []) :
    Representa (u ++ ⟨n, .livre⟩ :: v)
      ((s.setProx (fim s.endBaseMemoria u) s.listaLivres).comLista (fim s.endBaseMemoria u)) := by
  obtain ⟨r, hu, hv⟩ := h.lista_cut_of_ne (by simp)
  rw [hl, seg_nil] at hu
  refine ⟨h.base_pos, fun b hb ↦ ?_, ?_⟩
  · rw [Estado.tam_comLista, Estado.tam_setProx]
    exact h.tam_eq_reuse b hb
  · change Seg _ (fim s.endBaseMemoria u) (livres s.endBaseMemoria (u ++ ⟨n, .livre⟩ :: v)) 0
    rw [livres_append, livres_cons_livre, hl]
    refine ⟨rfl, ?_⟩
    rw [Estado.prox_comLista, Estado.prox_setProx, if_pos rfl, hu]
    refine hv.congr fun b hb ↦ ?_
    have := (bounds_of_mem_livres hb).1
    rw [Estado.prox_comLista, Estado.prox_setProx, if_neg (by simp only at this; omega)]

theorem insere_inner (h : Representa (u ++ ⟨n, .vivo t⟩ :: v) s)
    (hl : livres s.endBaseMemoria u ≠ []) :
    Representa (u ++ ⟨n, .livre⟩ :: v)
      ((s.setProx (fim s.endBaseMemoria u) (s.prox (antes s.endBaseMemoria u))).setProx
        (antes s.endBaseMemoria u) (fim s.endBaseMemoria u)) := by
  obtain ⟨r, hu, hv⟩ := h.lista_cut_of_ne (by simp)
  have hant := antes_lt hl
  rw [prox_antes hu hl]
  refine ⟨h.base_pos, fun b hb ↦ ?_, ?_⟩
  · rw [Estado.tam_setProx, Estado.tam_setProx]
    exact h.tam_eq_reuse b hb
  · change Seg _ _ (livres s.endBaseMemoria (u ++ ⟨n, .livre⟩ :: v)) 0
    rw [livres_append, livres_cons_livre]
    refine seg_append.mpr ⟨fim s.endBaseMemoria u, ?_, rfl, ?_⟩
    · refine seg_redirect hu (fun b hb hbne ↦ ?_) (fun _ ↦ ?_) ?_
      · have := (bounds_of_mem_livres hb).2
        rw [Estado.prox_setProx, if_neg hbne, Estado.prox_setProx, if_neg (by omega)]
      · rw [Estado.prox_setProx, if_pos rfl]
      · rw [if_neg hl]
        rfl
    · rw [Estado.prox_setProx, if_neg (by omega), Estado.prox_setProx, if_pos rfl]
      refine hv.congr fun b hb ↦ ?_
      have := (bounds_of_mem_livres hb).1
      simp only at this
      rw [Estado.prox_setProx, if_neg (by omega), Estado.prox_setProx, if_neg (by omega)]

end Representa

/-! ## The branches of `meu_libera` -/

section Scan

variable {u v : List Tile} {s : Estado} {n t : ℕ}

theorem avanca_listaLivres (h : Representa (u ++ ⟨n, .vivo t⟩ :: v) s) {r : ℕ}
    (hu : Seg s.prox s.listaLivres (livres s.endBaseMemoria u) r)
    (hv : Seg s.prox r (livres (fim s.endBaseMemoria u + (n + 16) * 16) v) 0) (m : ℕ) :
    avanca s (fim s.endBaseMemoria u) m s.listaLivres s.listaLivres
      = if m ≤ (livres s.endBaseMemoria u).length then .error .combustivel
        else if r = 0 then .error .nulo
        else .ok ((livres s.endBaseMemoria u).getLastD s.listaLivres, r) := by
  have hbase := h.base_pos
  refine avanca_eq hu (fun b hb ↦ ?_) (h.fim_pos u) ?_
  · have := bounds_of_mem_livres hb
    exact ⟨by omega, this.2⟩
  · cases hl : livres (fim s.endBaseMemoria u + (n + 16) * 16) v with
    | nil =>
      rw [hl] at hv
      exact Or.inl hv
    | cons c l =>
      have hc : c ∈ livres (fim s.endBaseMemoria u + (n + 16) * 16) v := by simp [hl]
      have := (bounds_of_mem_livres hc).1
      rw [hl] at hv
      have := hv.1
      right
      omega

theorem fim_lt_listaLivres_iff (h : Representa (u ++ ⟨n, .vivo t⟩ :: v) s) :
    fim s.endBaseMemoria u < s.listaLivres ↔ livres s.endBaseMemoria u = [] ∧
      livres (fim s.endBaseMemoria u + (n + 16) * 16) v ≠ [] := by
  obtain ⟨r, hu, hv⟩ := h.lista_cut_of_ne (by simp)
  simp only at hv
  -- the head is the first free block of `u`, otherwise that of `v`, otherwise `NULL`
  cases hlu : livres s.endBaseMemoria u with
  | cons c l =>
    have hc : c ∈ livres s.endBaseMemoria u := by simp [hlu]
    have := (bounds_of_mem_livres hc).2
    rw [hlu] at hu
    have := hu.1
    simp only [reduceCtorEq, false_and, iff_false]
    omega
  | nil =>
    rw [hlu, seg_nil] at hu
    rw [hu]
    cases hlv : livres (fim s.endBaseMemoria u + (n + 16) * 16) v with
    | nil =>
      rw [hlv, seg_nil] at hv
      simp [hv]
    | cons c l =>
      have hc : c ∈ livres (fim s.endBaseMemoria u + (n + 16) * 16) v := by simp [hlv]
      have := (bounds_of_mem_livres hc).1
      rw [hlv] at hv
      have := hv.1
      simp only [ne_eq, reduceCtorEq, not_false_eq_true, and_self, iff_true]
      omega

end Scan

/-! ## `meu_libera`, for any `merge` that does its work -/

/-- The globals `σ` of a program, its `merge`, and what `Rep ts x` asks of the globals besides the
representation of the tiles `ts`. The fields say what `meu_libera` needs: putting a block back to
the free ones is compatible with the other globals, and `merge` fuses two free blocks when they are
neighbours and does nothing when they are not. -/
structure Mescla (σ : Type) where
  est : σ → Estado
  com : σ → Estado → σ
  merge : σ → ℕ → ℕ → Except Falha (Bool × σ)
  Rep : List Tile → σ → Prop
  representa : ∀ {ts x}, Rep ts x → Representa ts (est x)
  est_com : ∀ x s, est (com x s) = s
  rep_com : ∀ {u v n t x s}, Rep (u ++ ⟨n, .vivo t⟩ :: v) x → Representa (u ++ ⟨n, .livre⟩ :: v) s →
    s.endBaseMemoria = (est x).endBaseMemoria → Rep (u ++ ⟨n, .livre⟩ :: v) (com x s)
  merge_adjacent : ∀ {u v k n x}, Rep (u ++ ⟨k, .livre⟩ :: ⟨n, .livre⟩ :: v) x →
    ∃ x', merge x (fim (est x).endBaseMemoria u)
        (fim (est x).endBaseMemoria u + (k + 16) * 16) = .ok (true, x') ∧
      Rep (u ++ ⟨k + 16 + n, .livre⟩ :: v) x' ∧
      (est x').endBaseMemoria = (est x).endBaseMemoria ∧
      ∀ c ∈ (est x').escritas, c ∈ (est x).escritas ∨ c = fim (est x).endBaseMemoria u
  merge_apart : ∀ {x p k m}, p ≠ 0 → (est x).tam p = k → m ≠ k + 16 →
    merge x p (p + m * 16) = .ok (false, x)

namespace Mescla

variable {σ : Type} (M : Mescla σ)

/-- `meu_libera` of the program. -/
def libera (n : ℕ) (x : σ) (ponteiro : ℕ) : Except Falha σ :=
  liberaCom M.est M.com M.merge n x ponteiro

/-- `x'` represents the arena `ts` after free neighbours were fused, with no two of them left, and
only headers of tiles were written on the way from `x`. -/
def Fundido (ts : List Tile) (x x' : σ) : Prop :=
  ∃ ts', M.Rep ts' x' ∧ FundeVarias ts ts' ∧ Separado ts' ∧
    (M.est x').endBaseMemoria = (M.est x).endBaseMemoria ∧
    ∀ c ∈ (M.est x').escritas, c ∈ (M.est x).escritas ∨
      c ∈ (blocos (M.est x).endBaseMemoria ts).map Prod.fst

variable {M} {u v w : List Tile} {x x' : σ} {n m t : ℕ}

/-- Steps before the fusions: they write headers of tiles and may fuse some tiles themselves. -/
theorem Fundido.prepend {ts₀ ts : List Tile} {x₀ : σ} (h : M.Fundido ts x x')
    (hf : FundeVarias ts₀ ts) (hbase : (M.est x).endBaseMemoria = (M.est x₀).endBaseMemoria)
    (hesc : ∀ c ∈ (M.est x).escritas, c ∈ (M.est x₀).escritas ∨
      c ∈ (blocos (M.est x₀).endBaseMemoria ts₀).map Prod.fst) : M.Fundido ts₀ x₀ x' := by
  obtain ⟨ts', hr, hf', hsep, hbase', hesc'⟩ := h
  refine ⟨ts', hr, hf.trans hf', hsep, hbase'.trans hbase, fun c hc ↦ ?_⟩
  rcases hesc' c hc with hc | hc
  · exact hesc c hc
  · rw [hbase] at hc
    exact Or.inr (hf.mem_blocos_fst hc)

/-- The last `merge` of `meu_libera`, with the next free block. Whether or not it succeeds, the free
block at the end of `u` is then followed by a tile that is not free. -/
theorem exists_merge_fundido (h : M.Rep (u ++ ⟨n, .livre⟩ :: (w ++ ⟨m, .livre⟩ :: v)) x)
    (hu : Separado u) (hlast : ∀ y ∈ u.getLast?, y.uso ≠ .livre) (hw : ∀ y ∈ w, y.uso ≠ .livre)
    (hsep : Separado (w ++ ⟨m, .livre⟩ :: v)) :
    ∃ b x', M.merge x (fim (M.est x).endBaseMemoria u)
        (fim (fim (M.est x).endBaseMemoria u + (n + 16) * 16) w) = .ok (b, x') ∧
      M.Fundido (u ++ ⟨n, .livre⟩ :: (w ++ ⟨m, .livre⟩ :: v)) x x' := by
  have hrep := M.representa h
  have hpos : fim (M.est x).endBaseMemoria u ≠ 0 := (hrep.fim_pos u).ne'
  -- the blocks touch exactly when no tile lies between them
  cases w with
  | nil =>
    obtain ⟨-, hv, hx⟩ := separado_append_cons_iff.mp hsep
    obtain ⟨x', hm, hr, hbase, hesc⟩ := M.merge_adjacent h
    refine ⟨true, x', hm, _, hr, Relation.ReflTransGen.single (Funde.mk u n m v),
      separado_append_cons_iff.mpr ⟨hu, hv, fun _ ↦ ⟨hlast, (hx rfl).2⟩⟩, hbase, fun c hc ↦ ?_⟩
    rcases hesc c hc with hc | rfl
    · exact Or.inl hc
    · right
      simp
  | cons y w =>
    have hfim : fim (fim (M.est x).endBaseMemoria u + (n + 16) * 16) (y :: w)
        = fim (M.est x).endBaseMemoria u + (n + 16 + unidades (y :: w)) * 16 := by
      rw [fim_eq (fim (M.est x).endBaseMemoria u + (n + 16) * 16)]
      ring
    have happart : n + 16 + unidades (y :: w) ≠ n + 16 := by
      rw [unidades_cons]
      omega
    have hhead : ∀ z ∈ (y :: w ++ ⟨m, .livre⟩ :: v).head?, z.uso ≠ .livre := by
      intro z hz
      rw [List.cons_append, List.head?_cons, Option.mem_some_iff] at hz
      exact hz ▸ hw y List.mem_cons_self
    refine ⟨false, x, ?_, _, h, Relation.ReflTransGen.refl,
      separado_append_cons_iff.mpr ⟨hu, hsep, fun _ ↦ ⟨hlast, hhead⟩⟩, rfl, fun c hc ↦ Or.inl hc⟩
    rw [hfim]
    exact M.merge_apart hpos hrep.tam_fim happart

/-- The two merges of `meu_libera` after an insertion between two free blocks. The first succeeds
when the tile just before is free; the second starts at the block that then contains the freed
one. -/
theorem exists_merges_fundido (h : M.Rep (u ++ ⟨n, .livre⟩ :: (w ++ ⟨m, .livre⟩ :: v)) x)
    (hu : Separado u) (hlu : livres (M.est x).endBaseMemoria u ≠ [])
    (hw : ∀ y ∈ w, y.uso ≠ .livre) (hsep : Separado (w ++ ⟨m, .livre⟩ :: v)) :
    ∃ b x₁ b' x', M.merge x (antes (M.est x).endBaseMemoria u) (fim (M.est x).endBaseMemoria u)
        = .ok (b, x₁) ∧
      (if b then M.merge x₁ (antes (M.est x).endBaseMemoria u)
          (fim (fim (M.est x).endBaseMemoria u + (n + 16) * 16) w)
        else M.merge x₁ (fim (M.est x).endBaseMemoria u)
          (fim (fim (M.est x).endBaseMemoria u + (n + 16) * 16) w)) = .ok (b', x') ∧
      M.Fundido (u ++ ⟨n, .livre⟩ :: (w ++ ⟨m, .livre⟩ :: v)) x x' := by
  have hrep := M.representa h
  set a := (M.est x).endBaseMemoria with ha
  obtain ⟨l, c, hl⟩ := (List.eq_nil_or_concat _).resolve_left hlu
  have hant : antes a u = c := by
    rw [antes, hl, List.concat_eq_append, List.getLastD_concat]
  -- `u` is cut at its last free tile; `w₀` is what lies between it and the freed block
  obtain ⟨u₁, k, w₀, rfl, hu₁, -, hlw⟩ := exists_cut_of_livres (hl.trans List.concat_eq_append)
  rw [hant, ← hu₁]
  have hpos : fim a u₁ ≠ 0 := (hrep.fim_pos u₁).ne'
  obtain ⟨hsu₁, -, hk⟩ := separado_append_cons_iff.mp hu
  have htam : (M.est x).tam (fim a u₁) = k :=
    hrep.tam_eq (fim a u₁, ⟨k, .livre⟩) (by simp [← ha])
  cases w₀ with
  | nil =>
    have h' : M.Rep (u₁ ++ ⟨k, .livre⟩ :: ⟨n, .livre⟩ :: (w ++ ⟨m, .livre⟩ :: v)) x := by
      simpa using h
    have hfim : fim a u₁ + (k + 16) * 16 + (n + 16) * 16 = fim a u₁ + (k + 16 + n + 16) * 16 := by
      ring
    -- the first merge succeeds, so the second is made from the block before
    obtain ⟨x₁, hm₁, hr, hbase, hesc⟩ := M.merge_adjacent h'
    obtain ⟨b', x', hm, hF⟩ := exists_merge_fundido hr hsu₁ (hk rfl).1 hw hsep
    rw [hbase] at hm
    rw [fim_append, fim_cons, fim_nil]
    refine ⟨true, x₁, b', x', hm₁, ?_, hF.prepend ?_ hbase fun z hz ↦ ?_⟩
    · rw [if_pos rfl, hfim]
      exact hm
    · rw [List.append_assoc]
      exact Relation.ReflTransGen.single (Funde.mk u₁ k n _)
    · rcases hesc z hz with hz | rfl
      · exact Or.inl hz
      · right
        simp
  | cons y w₀ =>
    have hfim : fim a (u₁ ++ ⟨k, .livre⟩ :: y :: w₀)
        = fim a u₁ + (k + 16 + unidades (y :: w₀)) * 16 := by
      rw [fim_append, fim_cons, fim_eq (fim a u₁ + (k + 16) * 16)]
      ring
    have happart : k + 16 + unidades (y :: w₀) ≠ k + 16 := by
      rw [unidades_cons]
      omega
    -- nothing was merged before the freed block, since the tile just before it is not free
    have hlast : ∀ z ∈ (u₁ ++ ⟨k, .livre⟩ :: y :: w₀).getLast?, z.uso ≠ .livre := by
      intro z hz
      rw [List.getLast?_append_of_ne_nil _ (by simp), List.getLast?_cons_cons] at hz
      exact livres_eq_nil_iff.mp hlw z (List.mem_of_mem_getLast? hz)
    obtain ⟨b', x', hm, hF⟩ := exists_merge_fundido h hu hlast hw hsep
    refine ⟨false, x, b', x', ?_, ?_, hF⟩
    · rw [hfim]
      exact M.merge_apart hpos htam happart
    · rw [if_neg (by simp)]
      exact hm

/-- Freeing above every free block: the scan runs off the end of the list. -/
theorem libera_eq_error (h : M.Rep (u ++ ⟨n, .vivo t⟩ :: v) x)
    (hv : livres (fim (M.est x).endBaseMemoria u + (n + 16) * 16) v = []) (k : ℕ) :
    M.libera k x (fim (M.est x).endBaseMemoria u + 16) =
      .error (if k ≤ (livres (M.est x).endBaseMemoria u).length then .combustivel else .nulo) := by
  have hrep := M.representa h
  obtain ⟨r, hu, hr⟩ := hrep.lista_cut_of_ne (by simp)
  have hr0 : r = 0 := by
    simp only at hr
    rwa [hv] at hr
  have hscan := avanca_listaLivres hrep hu hr k
  rw [libera, liberaCom, sizeofHeader_eq, Nat.add_sub_cancel]
  simp only
  rw [if_neg (by rw [fim_lt_listaLivres_iff hrep]; exact fun hc ↦ hc.2 hv), hscan]
  by_cases hk : k ≤ (livres (M.est x).endBaseMemoria u).length
  · rw [if_pos hk, if_pos hk]
    rfl
  · rw [if_neg hk, if_pos hr0, if_neg hk]
    rfl

theorem libera_head (h : M.Rep (u ++ ⟨n, .vivo t⟩ :: v) x)
    (hsep : Separado (u ++ ⟨n, .vivo t⟩ :: v)) (hlu : livres (M.est x).endBaseMemoria u = [])
    (hlv : livres (fim (M.est x).endBaseMemoria u + (n + 16) * 16) v ≠ []) :
    ∃ x', (∀ k, M.libera k x (fim (M.est x).endBaseMemoria u + 16) = .ok x') ∧
      M.Fundido (u ++ ⟨n, .livre⟩ :: v) x x' := by
  have hrep := M.representa h
  obtain ⟨hsu, hsv⟩ := (separado_append_cons_of_ne (by simp)).mp hsep
  have hpos : fim (M.est x).endBaseMemoria u ≠ 0 := (hrep.fim_pos u).ne'
  obtain ⟨r, hu, hv⟩ := hrep.lista_cut_of_ne (by simp)
  rw [hlu, seg_nil] at hu
  obtain ⟨c, l, hl⟩ := List.exists_cons_of_ne_nil hlv
  obtain ⟨w, m, v', rfl, hw, hlw, -⟩ := exists_cut_of_livres (hl.trans (List.nil_append _).symm)
  have hc : (M.est x).listaLivres = c := by
    simp only at hv
    rw [hl] at hv
    exact hu.trans hv.1
  have hlast : ∀ y ∈ u.getLast?, y.uso ≠ .livre := fun y hy ↦
    livres_eq_nil_iff.mp hlu y (List.mem_of_mem_getLast? hy)
  -- the state after the insertion, from which the only merge of this branch is made
  set s₁ := ((M.est x).setProx (fim (M.est x).endBaseMemoria u) (M.est x).listaLivres).comLista
    (fim (M.est x).endBaseMemoria u) with hs₁
  have hest : M.est (M.com x s₁) = s₁ := M.est_com x s₁
  obtain ⟨b, x', hm, hF⟩ := exists_merge_fundido (M.rep_com h (hrep.insere_head hlu) rfl) hsu hlast
    (livres_eq_nil_iff.mp hlw) hsv
  have hprox : s₁.lerProx (fim (M.est x).endBaseMemoria u) = .ok c := by
    rw [Estado.lerProx_of_ne hpos, hs₁, Estado.prox_comLista, Estado.prox_setProx, if_pos rfl, hc]
  have hmerge : M.merge (M.com x s₁) (fim (M.est x).endBaseMemoria u) c = .ok (b, x') := by
    rw [← hs₁, hest] at hm
    rw [← hw]
    exact hm
  refine ⟨x', fun k ↦ ?_, hF.prepend Relation.ReflTransGen.refl (by rw [← hs₁, hest]; rfl)
    fun z hz ↦ ?_⟩
  · rw [libera, liberaCom, sizeofHeader_eq, Nat.add_sub_cancel]
    simp only
    rw [if_pos ((fim_lt_listaLivres_iff hrep).mpr ⟨hlu, hlv⟩), Estado.escreveProx_of_ne _ hpos]
    simp only [bind, Except.bind]
    rw [← Estado.comLista, ← hs₁, hprox]
    simp only [hmerge]
    rfl
  · rw [← hs₁, hest] at hz
    change z ∈ fim (M.est x).endBaseMemoria u :: (M.est x).escritas at hz
    rcases List.mem_cons.mp hz with rfl | hz
    · right
      simp
    · exact Or.inl hz

theorem libera_inner (h : M.Rep (u ++ ⟨n, .vivo t⟩ :: v) x)
    (hsep : Separado (u ++ ⟨n, .vivo t⟩ :: v)) (hlu : livres (M.est x).endBaseMemoria u ≠ [])
    (hlv : livres (fim (M.est x).endBaseMemoria u + (n + 16) * 16) v ≠ []) :
    ∃ x', (∀ k, M.libera k x (fim (M.est x).endBaseMemoria u + 16)
        = if k ≤ (livres (M.est x).endBaseMemoria u).length then .error .combustivel else .ok x') ∧
      M.Fundido (u ++ ⟨n, .livre⟩ :: v) x x' := by
  have hrep := M.representa h
  obtain ⟨hsu, hsv⟩ := (separado_append_cons_of_ne (by simp)).mp hsep
  set s := M.est x with hs
  have hpos : fim s.endBaseMemoria u ≠ 0 := (hrep.fim_pos u).ne'
  have hant0 : antes s.endBaseMemoria u ≠ 0 := hrep.antes_pos u
  obtain ⟨r, hu, hv⟩ := hrep.lista_cut_of_ne (by simp)
  have hscan := avanca_listaLivres hrep hu hv
  obtain ⟨c, l, hl⟩ := List.exists_cons_of_ne_nil hlv
  obtain ⟨w, m, v', rfl, hw, hlw, -⟩ := exists_cut_of_livres (hl.trans (List.nil_append _).symm)
  -- the scan stops at the first free block above
  have hr : r = c := by
    simp only at hv
    rw [hl] at hv
    exact hv.1
  have hc0 : c ≠ 0 := by
    have := (bounds_of_mem_livres (by rw [hl]; exact List.mem_cons_self :
      c ∈ livres (fim s.endBaseMemoria u + (n + 16) * 16) (w ++ ⟨m, .livre⟩ :: v'))).1
    omega
  have hlast : (livres s.endBaseMemoria u).getLastD s.listaLivres = antes s.endBaseMemoria u := by
    rw [antes, List.getLastD_eq_getLast?, List.getLastD_eq_getLast?,
      List.getLast?_eq_some_getLast hlu, Option.getD_some, Option.getD_some]
  set s₁ := (s.setProx (fim s.endBaseMemoria u) (s.prox (antes s.endBaseMemoria u))).setProx
    (antes s.endBaseMemoria u) (fim s.endBaseMemoria u) with hs₁
  have hest : M.est (M.com x s₁) = s₁ := M.est_com x s₁
  have hbase₁ : s₁.endBaseMemoria = s.endBaseMemoria := rfl
  obtain ⟨b, x₂, b', x', hm₁, hm₂, hF⟩ := exists_merges_fundido
    (M.rep_com h (hrep.insere_inner hlu) rfl) hsu (by rw [← hs₁, hest]; exact hlu)
    (livres_eq_nil_iff.mp hlw) hsv
  rw [← hs₁, hest, hbase₁] at hm₁ hm₂
  rw [hw] at hm₂
  refine ⟨x', fun k ↦ ?_, hF.prepend Relation.ReflTransGen.refl (by rw [← hs₁, hest, hbase₁])
    fun z hz ↦ ?_⟩
  · rw [libera, liberaCom, sizeofHeader_eq, Nat.add_sub_cancel]
    simp only [← hs]
    rw [if_neg (by rw [fim_lt_listaLivres_iff hrep]; exact fun hc ↦ hlu hc.1), hscan]
    by_cases hk : k ≤ (livres s.endBaseMemoria u).length
    · rw [if_pos hk, if_pos hk]
      rfl
    · rw [if_neg hk, if_neg hk, hr, if_neg hc0, hlast]
      simp only [bind, Except.bind]
      rw [Estado.lerProx_of_ne hant0]
      simp only
      rw [Estado.escreveProx_of_ne _ hpos]
      simp only
      rw [Estado.escreveProx_of_ne _ hant0, ← hs₁]
      simp only [hm₁]
      cases b with
      | false =>
        rw [if_neg Bool.false_ne_true] at hm₂
        simp only [Bool.false_eq_true, if_false, hm₂]
        rfl
      | true =>
        rw [if_pos rfl] at hm₂
        simp only [if_true, hm₂]
        rfl
  · rw [← hs₁, hest] at hz
    -- the insertion writes the header before and that of the freed block
    change z ∈ antes s.endBaseMemoria u :: fim s.endBaseMemoria u :: s.escritas at hz
    rcases List.mem_cons.mp hz with rfl | hz
    · obtain ⟨j, hj⟩ := mem_livres.mp (antes_mem hlu)
      exact Or.inr (List.mem_map.mpr ⟨_, mem_blocos_left hj, rfl⟩)
    rcases List.mem_cons.mp hz with rfl | hz
    · right
      simp [← hs]
    · exact Or.inl hz

/-- **When a block can be freed.** `meu_libera` returns exactly when some free block lies above. -/
theorem libera_returns_iff (h : M.Rep (u ++ ⟨n, .vivo t⟩ :: v) x)
    (hsep : Separado (u ++ ⟨n, .vivo t⟩ :: v)) :
    (∃ k x', M.libera k x (fim (M.est x).endBaseMemoria u + 16) = .ok x') ↔
      livres (fim (M.est x).endBaseMemoria u + (n + 16) * 16) v ≠ [] := by
  constructor
  · rintro ⟨k, x', hok⟩ hlv
    rw [libera_eq_error h hlv] at hok
    exact absurd hok (by simp)
  · intro hlv
    by_cases hlu : livres (M.est x).endBaseMemoria u = []
    · obtain ⟨x', hok, -⟩ := libera_head h hsep hlu hlv
      exact ⟨0, x', hok 0⟩
    · obtain ⟨x', hok, -⟩ := libera_inner h hsep hlu hlv
      exact ⟨(livres (M.est x).endBaseMemoria u).length + 1, x', by rw [hok, if_neg (by omega)]⟩

/-- **What freeing does.** -/
theorem fundido_of_libera (h : M.Rep (u ++ ⟨n, .vivo t⟩ :: v) x)
    (hsep : Separado (u ++ ⟨n, .vivo t⟩ :: v)) {k : ℕ}
    (hok : M.libera k x (fim (M.est x).endBaseMemoria u + 16) = .ok x') :
    M.Fundido (u ++ ⟨n, .livre⟩ :: v) x x' := by
  have hlv := (libera_returns_iff h hsep).mp ⟨k, x', hok⟩
  by_cases hlu : livres (M.est x).endBaseMemoria u = []
  · obtain ⟨x'', hok', hF⟩ := libera_head h hsep hlu hlv
    rw [hok', Except.ok.injEq] at hok
    exact hok ▸ hF
  · obtain ⟨x'', hok', hF⟩ := libera_inner h hsep hlu hlv
    rw [hok'] at hok
    by_cases hk : k ≤ (livres (M.est x).endBaseMemoria u).length
    · rw [if_pos hk] at hok
      exact absurd hok (by simp)
    · rw [if_neg hk, Except.ok.injEq] at hok
      exact hok ▸ hF

theorem libera_ne_nulo (h : M.Rep (u ++ ⟨n, .vivo t⟩ :: v) x)
    (hsep : Separado (u ++ ⟨n, .vivo t⟩ :: v))
    (hlv : livres (fim (M.est x).endBaseMemoria u + (n + 16) * 16) v ≠ []) (k : ℕ) :
    M.libera k x (fim (M.est x).endBaseMemoria u + 16) ≠ .error .nulo := by
  by_cases hlu : livres (M.est x).endBaseMemoria u = []
  · obtain ⟨x', hok, -⟩ := libera_head h hsep hlu hlv
    rw [hok]
    simp
  · obtain ⟨x', hok, -⟩ := libera_inner h hsep hlu hlv
    rw [hok]
    split <;> simp

end Mescla

/-- `gmsimples.c` and `gm (falta next).c` keep nothing besides `Estado`. -/
def simples : Mescla Estado where
  est := id
  com _ s := s
  merge := merge
  Rep := Representa
  representa h := h
  est_com _ _ := rfl
  rep_com _ h _ := h
  merge_adjacent := by
    intro u v k n s h
    refine ⟨_, merge_of_adjacent (h.fim_pos u).ne' h.tam_fim, h.fundido, by simp [fundido], ?_⟩
    intro c hc
    simp only [id_eq, fundido, Estado.escritas_setTam, Estado.escritas_setProx,
      List.mem_cons] at hc
    tauto
  merge_apart := merge_of_apart

theorem meuLibera_eq (n : ℕ) (s : Estado) (p : ℕ) : meuLibera n s p = simples.libera n s p := rfl

theorem exists_of_meuLibera {u v : List Tile} {s s' : Estado} {n t k : ℕ}
    (h : Representa (u ++ ⟨n, .vivo t⟩ :: v) s) (hsep : Separado (u ++ ⟨n, .vivo t⟩ :: v))
    (hok : meuLibera k s (fim s.endBaseMemoria u + 16) = .ok s') :
    ∃ ts', Representa ts' s' ∧ FundeVarias (u ++ ⟨n, .livre⟩ :: v) ts' ∧ Separado ts' ∧
      s'.endBaseMemoria = s.endBaseMemoria ∧
      ∀ c ∈ s'.escritas, c ∈ s.escritas ∨
        c ∈ (blocos s.endBaseMemoria (u ++ ⟨n, .livre⟩ :: v)).map Prod.fst :=
  Mescla.fundido_of_libera (M := simples) h hsep hok

end SistemasOperacionais.Gm
