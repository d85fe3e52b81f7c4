import SistemasOperacionais.GerenciaMemoria.Refinement

/-!
# Choosing a hole, and allocating from it

The three searches walk the free list with a pair `anterior`, `atual`. What the code after them
relies on is the same for all three: the block found is on the list, is large enough, and
`anterior` is the block before it, or the block itself at the head. `Escolha` states this, and
`meuAloca_cases` turns it into what an allocation does to the tiles.
-/

namespace SistemasOperacionais.Gm

open Foundations

/-- `alvo` is a block of the list `l` that can serve a request of `t`, and `ant` is the block before
it, or `alvo` itself when it comes first. -/
def Escolha (s : Estado) (l : List ℕ) (t ant alvo : ℕ) : Prop :=
  ∃ pre post, l = pre ++ alvo :: post ∧ ant = pre.getLastD alvo ∧ 16 + t ≤ s.tam alvo

section Busca

variable {s : Estado} {t : ℕ}

/-- The search of `gmsimples.c` stops at the first block that is large enough. -/
theorem procura_cases {m p ant x y : ℕ} {l : List ℕ} (hc : Chain 0 s.prox p l)
    (h : procura s t m ant p = .ok (x, y)) :
    (y = 0 ∧ ∀ b ∈ l, s.tam b < 16 + t) ∨
      ∃ pre post, l = pre ++ y :: post ∧ x = pre.getLastD ant ∧
        (∀ b ∈ pre, s.tam b < 16 + t) ∧ 16 + t ≤ s.tam y := by
  induction m generalizing p ant l with
  | zero => exact absurd h (by simp [procura])
  | succ m ih =>
    cases l with
    | nil =>
      rw [procura, if_pos (hc.eq_nil_iff.mp rfl)] at h
      simp only [Except.ok.injEq, Prod.mk.injEq] at h
      exact Or.inl ⟨h.2 ▸ hc.eq_nil_iff.mp rfl, by simp⟩
    | cons b l =>
      obtain ⟨rfl, hp, hc⟩ := Chain.cons_iff.mp hc
      rw [procura, if_neg hp, Estado.lerTam_of_ne hp, sizeofHeader_eq] at h
      simp only [bind, Except.bind] at h
      by_cases hlt : s.tam p < t + 16
      · rw [if_pos hlt, Estado.lerProx_of_ne hp] at h
        -- the block passed becomes the predecessor the rest of the search starts from
        rcases ih hc h with ⟨hy, hall⟩ | ⟨pre, post, rfl, hx, hpre, hy⟩
        · refine Or.inl ⟨hy, fun b hb ↦ ?_⟩
          rcases List.mem_cons.mp hb with rfl | hb
          · omega
          · exact hall b hb
        · refine Or.inr ⟨p :: pre, post, rfl, by rw [hx, List.getLastD_cons], fun b hb ↦ ?_, hy⟩
          rcases List.mem_cons.mp hb with rfl | hb
          · omega
          · exact hpre b hb
      · rw [if_neg hlt] at h
        simp only [Except.ok.injEq, Prod.mk.injEq] at h
        obtain ⟨rfl, rfl⟩ := h
        exact Or.inr ⟨[], l, rfl, rfl, by simp, by omega⟩

/-- A walk along the list `L` that has passed the blocks of `done`: it stands at `p`, the block
before is `ant`, and `l` lies ahead. -/
structure Percurso (s : Estado) (L done l : List ℕ) (ant p : ℕ) : Prop where
  chain : Chain 0 s.prox p l
  eq : L = done ++ l
  ant : ∀ b ∈ l.head?, ant = done.getLastD b

theorem Percurso.inicio {p : ℕ} {l : List ℕ} (hc : Chain 0 s.prox p l) :
    Percurso s l [] l p p := by
  refine ⟨hc, rfl, fun b hb ↦ ?_⟩
  cases l with
  | nil => simp at hb
  | cons c l =>
    rw [List.head?_cons, Option.mem_some_iff] at hb
    rw [List.getLastD_nil, ← hb]
    exact hc.seg.1

theorem Percurso.avanca {L done l : List ℕ} {ant p b : ℕ} (h : Percurso s L done (b :: l) ant p) :
    p = b ∧ p ≠ 0 ∧ Percurso s L (done ++ [p]) l p (s.prox p) := by
  obtain ⟨rfl, hp, hc⟩ := Chain.cons_iff.mp h.chain
  refine ⟨rfl, hp, hc, ?_, fun c _ ↦ by simp⟩
  rw [h.eq, List.append_assoc, List.singleton_append]

/-- The loop of `worstFit` keeps a valid choice once it has one. -/
theorem worstFitLoop_cases {L done l : List ℕ} {m am mm ant p am' mm' : ℕ} {mt mt' : ℤ}
    (hw : Percurso s L done l ant p) (hcand : mt = -1 ∨ Escolha s L t am mm)
    (h : worstFitLoop s t m am mm mt ant p = .ok (am', mm', mt')) :
    mt' = -1 ∨ Escolha s L t am' mm' := by
  induction m generalizing done l p am mm mt ant with
  | zero => exact absurd h (by simp [worstFitLoop])
  | succ m ih =>
    cases l with
    | nil =>
      rw [worstFitLoop, if_pos (hw.chain.eq_nil_iff.mp rfl)] at h
      simp only [Except.ok.injEq, Prod.mk.injEq] at h
      obtain ⟨rfl, rfl, rfl⟩ := h
      exact hcand
    | cons b l =>
      obtain ⟨rfl, hp, hw'⟩ := hw.avanca
      rw [worstFitLoop, if_neg hp, Estado.lerTam_of_ne hp, Estado.lerProx_of_ne hp,
        sizeofHeader_eq] at h
      simp only [bind, Except.bind] at h
      by_cases hlt : s.tam p < t + 16
      · rw [if_pos hlt] at h
        exact ih hw' hcand h
      · rw [if_neg hlt] at h
        -- a block that fits replaces the choice only when it is larger than it
        by_cases hgt : (s.tam p : ℤ) > mt
        · rw [if_pos hgt] at h
          refine ih hw' (Or.inr ⟨done, l, hw.eq, hw.ant p rfl, by omega⟩) h
        · rw [if_neg hgt] at h
          exact ih hw' hcand h

theorem bestFitLoop_cases {L done l : List ℕ} {m am mm ant p am' mm' : ℕ} {found found' : Bool}
    (hw : Percurso s L done l ant p) (hcand : found = false ∨ Escolha s L t am mm)
    (h : bestFitLoop s t m am mm found ant p = .ok (am', mm', found')) :
    found' = false ∨ Escolha s L t am' mm' := by
  induction m generalizing done l p am mm found ant with
  | zero => exact absurd h (by simp [bestFitLoop])
  | succ m ih =>
    cases l with
    | nil =>
      rw [bestFitLoop, if_pos (hw.chain.eq_nil_iff.mp rfl)] at h
      simp only [Except.ok.injEq, Prod.mk.injEq] at h
      obtain ⟨rfl, rfl, rfl⟩ := h
      exact hcand
    | cons b l =>
      obtain ⟨rfl, hp, hw'⟩ := hw.avanca
      rw [bestFitLoop, if_neg hp, Estado.lerTam_of_ne hp, Estado.lerProx_of_ne hp,
        sizeofHeader_eq] at h
      simp only [bind, Except.bind] at h
      by_cases hlt : s.tam p < t + 16
      · rw [if_pos hlt] at h
        exact ih hw' hcand h
      · have hnew : Escolha s L t ant p := ⟨done, l, hw.eq, hw.ant p rfl, by omega⟩
        rw [if_neg hlt] at h
        cases found with
        | false =>
          simp only [Bool.not_false, if_true] at h
          exact ih hw' (Or.inr hnew) h
        | true =>
          simp only [Bool.not_true, Bool.false_eq_true, if_false] at h
          -- the choice so far is read again, and the new block replaces it or not
          cases hm : s.lerTam mm with
          | error f =>
            rw [hm] at h
            exact absurd h (by simp)
          | ok k =>
            rw [hm] at h
            simp only at h
            split at h
            · exact ih hw' (Or.inr hnew) h
            · exact ih hw' hcand h

theorem escolhe_cases {prog : Programa} {l : List ℕ} {m x y : ℕ}
    (hc : Chain 0 s.prox s.listaLivres l) (h : escolhe prog m s t = .ok (x, y)) :
    y = 0 ∨ Escolha s l t x y := by
  have hw := Percurso.inicio hc
  cases prog with
  | gmsimples =>
    rcases procura_cases hc h with ⟨hy, -⟩ | ⟨pre, post, rfl, hx, -, hy⟩
    · exact Or.inl hy
    · refine Or.inr ⟨pre, post, rfl, ?_, hy⟩
      cases pre with
      | nil => exact hx.trans hc.seg.1
      | cons c pre => rw [hx, List.getLastD_cons, List.getLastD_cons]
  | bestFit =>
    rw [escolhe, bestFit] at h
    cases hloop : bestFitLoop s t m s.listaLivres s.listaLivres false s.listaLivres
        s.listaLivres with
    | error f =>
      rw [hloop] at h
      exact absurd h (by simp [bind, Except.bind])
    | ok r =>
      obtain ⟨am, mm, found⟩ := r
      have hr := bestFitLoop_cases hw (Or.inl rfl) hloop
      rw [hloop] at h
      cases found with
      | false =>
        simp [bind, Except.bind, pure, Except.pure] at h
        exact Or.inl h.2.symm
      | true =>
        simp [bind, Except.bind, pure, Except.pure] at h
        obtain ⟨rfl, rfl⟩ := h
        exact Or.inr (hr.resolve_left (by simp))
  | worstFit =>
    rw [escolhe, worstFit] at h
    cases hloop : worstFitLoop s t m s.listaLivres s.listaLivres (-1) s.listaLivres
        s.listaLivres with
    | error f =>
      rw [hloop] at h
      exact absurd h (by simp [bind, Except.bind])
    | ok r =>
      obtain ⟨am, mm, mt⟩ := r
      have hr := worstFitLoop_cases hw (Or.inl rfl) hloop
      rw [hloop] at h
      by_cases hmt : mt = -1
      · simp [bind, Except.bind, pure, Except.pure, hmt] at h
        exact Or.inl h.2.symm
      · simp [bind, Except.bind, pure, Except.pure, hmt] at h
        obtain ⟨rfl, rfl⟩ := h
        exact Or.inr (hr.resolve_left hmt)

end Busca

/-! ## `meu_aloca` -/

section Aloca

variable {s s' : Estado} {ts : List Tile} {t m : ℕ}

/-- An allocation served from the free tile `⟨n, livre⟩` between `u` and `v`. -/
structure Servido (ts : List Tile) (t : ℕ) (s : Estado) (o : Option ℕ) (s' : Estado)
    (u : List Tile) (n : ℕ) (v : List Tile) : Prop where
  cut : ts = u ++ ⟨n, .livre⟩ :: v
  fits : 16 + t ≤ n
  result : o = some (fim s.endBaseMemoria u + 16)
  represents : Representa (ocupaTile u n v t) s'
  base_eq : s'.endBaseMemoria = s.endBaseMemoria
  remainder : n ≠ 16 + t → fim s.endBaseMemoria u + (t + 16) * 16 ∈ s'.escritas
  writes : ∀ b ∈ s'.escritas, b ∈ s.escritas ∨
    b ∈ (blocos s.endBaseMemoria (ocupaTile u n v t)).map Prod.fst

theorem exists_servido {x y p : ℕ} (h : Representa ts s)
    (he : Escolha s (livres s.endBaseMemoria ts) t x y) (hok : ocupa s x y t = .ok (p, s')) :
    ∃ u n v, Servido ts t s (some p) s' u n v ∧ fim s.endBaseMemoria u = y := by
  obtain ⟨pre, post, hl, hx, hy⟩ := he
  obtain ⟨u, n, v, rfl, hu, hpre, -⟩ := exists_cut_of_livres hl
  have hn : s.tam y = n := hu ▸ h.tam_fim
  have hant : x = antes s.endBaseMemoria u := by rw [hx, antes, hpre, hu]
  obtain ⟨s'', hocupa, hrep, hbase, hnovo, hesc⟩ := h.ocupa (t := t) (hn ▸ hy)
  rw [hant, ← hu, hocupa, Except.ok.injEq, Prod.mk.injEq] at hok
  obtain ⟨rfl, rfl⟩ := hok
  exact ⟨u, n, v, ⟨rfl, hn ▸ hy, rfl, hrep, hbase, hnovo, hesc⟩, hu⟩

/-- The first block of a list of free blocks that can serve a request of `t`. -/
def primeiro (s : Estado) (t : ℕ) (l : List ℕ) : Option ℕ := l.find? fun b ↦ 16 + t ≤ s.tam b

theorem primeiro_eq_none {l : List ℕ} (h : ∀ b ∈ l, s.tam b < 16 + t) : primeiro s t l = none := by
  rw [primeiro, List.find?_eq_none]
  intro b hb
  have := h b hb
  simpa using this

theorem primeiro_eq_some {pre post : List ℕ} {b : ℕ} (hpre : ∀ c ∈ pre, s.tam c < 16 + t)
    (hb : 16 + t ≤ s.tam b) : primeiro s t (pre ++ b :: post) = some b := by
  have hnone := primeiro_eq_none hpre
  rw [primeiro] at hnone
  rw [primeiro, List.find?_append, hnone, Option.none_or,
    List.find?_cons_of_pos (by simpa using hb)]

theorem primeiro_of_procura {l : List ℕ} {x y : ℕ} (hc : Chain 0 s.prox s.listaLivres l)
    (h : escolhe .gmsimples m s t = .ok (x, y)) :
    primeiro s t l = if y = 0 then none else some y := by
  rcases procura_cases hc h with ⟨rfl, hall⟩ | ⟨pre, post, rfl, -, hpre, hy⟩
  · rw [if_pos rfl, primeiro_eq_none hall]
  · rw [if_neg (hc.ne_null y (by simp)), primeiro_eq_some hpre hy]

/-- **What an allocation does**, for all three programs; `gmsimples.c` serves it from the first
block that is large enough. -/
theorem meuAloca_cases {prog : Programa} {o : Option ℕ} (h : Representa ts s)
    (hok : meuAloca prog m s t = .ok (o, s')) :
    (o = none ∧ s' = s ∧
      (prog = .gmsimples → primeiro s t (livres s.endBaseMemoria ts) = none)) ∨
    ∃ u n v, Servido ts t s o s' u n v ∧ (prog = .gmsimples →
      primeiro s t (livres s.endBaseMemoria ts) = some (fim s.endBaseMemoria u)) := by
  rw [meuAloca] at hok
  cases hesc : escolhe prog m s t with
  | error f =>
    rw [hesc] at hok
    exact absurd hok (by simp [bind, Except.bind])
  | ok r =>
    obtain ⟨x, y⟩ := r
    have hfirst : prog = .gmsimples → primeiro s t (livres s.endBaseMemoria ts)
        = if y = 0 then none else some y := by
      rintro rfl
      exact primeiro_of_procura h.chain hesc
    rw [hesc] at hok
    simp only [bind, Except.bind] at hok
    by_cases hy : y = 0
    · rw [if_pos hy] at hok hfirst
      simp only [pure, Except.pure, Except.ok.injEq, Prod.mk.injEq] at hok
      exact Or.inl ⟨hok.1.symm, hok.2.symm, hfirst⟩
    · rw [if_neg hy] at hok hfirst
      -- the block found is a free tile, and `ocupa` takes it
      have hE := (escolhe_cases h.chain hesc).resolve_left hy
      cases hoc : ocupa s x y t with
      | error f =>
        rw [hoc] at hok
        exact absurd hok (by simp)
      | ok r =>
        obtain ⟨p, s''⟩ := r
        rw [hoc] at hok
        simp only [pure, Except.pure, Except.ok.injEq, Prod.mk.injEq] at hok
        obtain ⟨rfl, rfl⟩ := hok
        obtain ⟨u, n, v, hS, rfl⟩ := exists_servido h hE hoc
        exact Or.inr ⟨u, n, v, hS, hfirst⟩

end Aloca

end SistemasOperacionais.Gm
