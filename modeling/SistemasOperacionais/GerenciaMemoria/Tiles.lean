import SistemasOperacionais.Foundations.Layout
import SistemasOperacionais.GerenciaMemoria.Gm

/-!
# The arena as a list of tiles

The abstract view of the arena: a list of tiles laid out from `endBaseMemoria`, each with its `tam`
and what it is being used for. A tile of size `tam` takes `tam + sizeof(struct header)` units of
`sizeof(struct header)` bytes, which is what the scaled pointer arithmetic of the programs makes of
it.

Three of the properties one wants of an allocator hold by construction here. The tiles follow each
other without gaps, a tile has one use and so is never both live and free, and the free tiles are
listed in increasing order of address. What remains to be maintained is that no two neighbours are
both free, the predicate `Separado`.

A tile can also be lost: neither live nor on the free list. `meu_aloca` creates such tiles when it
takes the head of the list as a perfect fit, and the model has to be able to say so.
-/

namespace SistemasOperacionais.Gm

open Foundations

/-- What a tile is used for; a live tile remembers the length that was requested. -/
inductive Uso
  | livre
  | vivo (pedido : ℕ)
  | perdido
  deriving DecidableEq, Repr

structure Tile where
  tam : ℕ
  uso : Uso
  deriving DecidableEq, Repr

/-- The distance in bytes from the header of a tile to the next one. -/
def Tile.bytes (x : Tile) : ℕ := (x.tam + sizeofHeader) * sizeofHeader

theorem Tile.bytes_eq (x : Tile) : x.bytes = (x.tam + 16) * 16 := rfl

theorem Tile.bytes_pos (x : Tile) : 0 < x.bytes := by
  rw [bytes_eq]
  omega

/-- The address just past a list of tiles. -/
def fim (a : ℕ) (ts : List Tile) : ℕ := stop Tile.bytes a ts

/-- The tiles with their addresses. -/
def blocos (a : ℕ) (ts : List Tile) : List (ℕ × Tile) := layout Tile.bytes a ts

@[simp] theorem fim_nil (a : ℕ) : fim a [] = a := rfl

@[simp] theorem fim_cons (a : ℕ) (x : Tile) (ts : List Tile) :
    fim a (x :: ts) = fim (a + (x.tam + 16) * 16) ts := rfl

@[simp] theorem fim_append (a : ℕ) (u v : List Tile) : fim a (u ++ v) = fim (fim a u) v :=
  stop_append a u v

@[simp] theorem blocos_nil (a : ℕ) : blocos a [] = [] := rfl

@[simp] theorem blocos_cons (a : ℕ) (x : Tile) (ts : List Tile) :
    blocos a (x :: ts) = (a, x) :: blocos (a + (x.tam + 16) * 16) ts := rfl

@[simp] theorem blocos_append (a : ℕ) (u v : List Tile) :
    blocos a (u ++ v) = blocos a u ++ blocos (fim a u) v := layout_append a u v

theorem mem_blocos_iff {a b : ℕ} {x : Tile} {ts : List Tile} :
    (b, x) ∈ blocos a ts ↔ ∃ u v, ts = u ++ x :: v ∧ b = fim a u := mem_layout_iff

theorem bounds_of_mem_blocos {a : ℕ} {b : ℕ × Tile} {ts : List Tile} (h : b ∈ blocos a ts) :
    a ≤ b.1 ∧ b.1 + (b.2.tam + 16) * 16 ≤ fim a ts := bounds_of_mem_layout h

theorem mem_blocos_cut {u v : List Tile} {a : ℕ} {x : Tile} {b : ℕ × Tile}
    (h : b ∈ blocos a (u ++ x :: v)) :
    (b ∈ blocos a u ∧ b.1 < fim a u) ∨ b = (fim a u, x) ∨
      (b ∈ blocos (fim a u + (x.tam + 16) * 16) v ∧ fim a u + (x.tam + 16) * 16 ≤ b.1) := by
  rw [blocos_append, blocos_cons, List.mem_append, List.mem_cons] at h
  rcases h with h | h | h
  · have := (bounds_of_mem_blocos h).2
    exact Or.inl ⟨h, by omega⟩
  · exact Or.inr (Or.inl h)
  · exact Or.inr (Or.inr ⟨h, (bounds_of_mem_blocos h).1⟩)

theorem mem_blocos_left {u v : List Tile} {a : ℕ} {b : ℕ × Tile} (h : b ∈ blocos a u) :
    b ∈ blocos a (u ++ v) := by
  rw [blocos_append]
  exact List.mem_append_left _ h

theorem mem_blocos_right {u v : List Tile} {a : ℕ} {x : Tile} {b : ℕ × Tile}
    (h : b ∈ blocos (fim a u + (x.tam + 16) * 16) v) : b ∈ blocos a (u ++ x :: v) := by
  rw [blocos_append, blocos_cons]
  exact List.mem_append_right _ (List.mem_cons_of_mem _ h)

/-- The length of a list of tiles in units of `struct header`. -/
def unidades (ts : List Tile) : ℕ := (ts.map fun x ↦ x.tam + sizeofHeader).sum

@[simp] theorem unidades_nil : unidades [] = 0 := rfl

@[simp] theorem unidades_cons (x : Tile) (ts : List Tile) :
    unidades (x :: ts) = x.tam + 16 + unidades ts := rfl

@[simp] theorem unidades_append (u v : List Tile) :
    unidades (u ++ v) = unidades u + unidades v := by
  rw [unidades, unidades, unidades, List.map_append, List.sum_append]

/-- Addresses stay at multiples of `sizeof(struct header)` from the start. -/
theorem fim_eq (a : ℕ) (ts : List Tile) : fim a ts = a + unidades ts * 16 := by
  induction ts generalizing a with
  | nil => rfl
  | cons x ts ih =>
    rw [fim_cons, ih, unidades_cons]
    ring

/-! ## Holes and allocations -/

/-- A free tile, as the pair of its address and its `tam`. -/
def buraco (b : ℕ × Tile) : Option (ℕ × ℕ) :=
  if b.2.uso = .livre then some (b.1, b.2.tam) else none

/-- The free tiles in order of address. -/
def buracos (a : ℕ) (ts : List Tile) : List (ℕ × ℕ) := (blocos a ts).filterMap buraco

/-- The addresses of the free tiles. -/
def livres (a : ℕ) (ts : List Tile) : List ℕ := (buracos a ts).map Prod.fst

/-- A live tile, as the pointer its user holds and the length requested. -/
def alocacao (b : ℕ × Tile) : Option (ℕ × ℕ) :=
  match b.2.uso with
  | .vivo t => some (b.1 + sizeofHeader, t)
  | _ => none

/-- The live allocations in order of address. -/
def alocados (a : ℕ) (ts : List Tile) : List (ℕ × ℕ) := (blocos a ts).filterMap alocacao

theorem buracos_append (a : ℕ) (u v : List Tile) :
    buracos a (u ++ v) = buracos a u ++ buracos (fim a u) v := by
  rw [buracos, blocos_append, List.filterMap_append, buracos, buracos]

theorem livres_append (a : ℕ) (u v : List Tile) :
    livres a (u ++ v) = livres a u ++ livres (fim a u) v := by
  rw [livres, buracos_append, List.map_append, livres, livres]

theorem alocados_append (a : ℕ) (u v : List Tile) :
    alocados a (u ++ v) = alocados a u ++ alocados (fim a u) v := by
  rw [alocados, blocos_append, List.filterMap_append, alocados, alocados]

@[simp] theorem livres_nil (a : ℕ) : livres a [] = [] := rfl

@[simp] theorem livres_cons_livre (a n : ℕ) (ts : List Tile) :
    livres a (⟨n, .livre⟩ :: ts) = a :: livres (a + (n + 16) * 16) ts := rfl

theorem livres_cons_of_ne (a : ℕ) {x : Tile} (hx : x.uso ≠ .livre) (ts : List Tile) :
    livres a (x :: ts) = livres (a + (x.tam + 16) * 16) ts := by
  simp [livres, buracos, buraco, hx]

@[simp] theorem buracos_nil (a : ℕ) : buracos a [] = [] := rfl

@[simp] theorem buracos_cons_livre (a n : ℕ) (ts : List Tile) :
    buracos a (⟨n, .livre⟩ :: ts) = (a, n) :: buracos (a + (n + 16) * 16) ts := rfl

theorem buracos_cons_of_ne (a : ℕ) {x : Tile} (hx : x.uso ≠ .livre) (ts : List Tile) :
    buracos a (x :: ts) = buracos (a + (x.tam + 16) * 16) ts := by
  simp [buracos, buraco, hx]

@[simp] theorem alocados_nil (a : ℕ) : alocados a [] = [] := rfl

@[simp] theorem alocados_cons_vivo (a n t : ℕ) (ts : List Tile) :
    alocados a (⟨n, .vivo t⟩ :: ts) = (a + 16, t) :: alocados (a + (n + 16) * 16) ts := rfl

@[simp] theorem alocados_cons_livre (a n : ℕ) (ts : List Tile) :
    alocados a (⟨n, .livre⟩ :: ts) = alocados (a + (n + 16) * 16) ts := rfl

theorem mem_buracos {a b n : ℕ} {ts : List Tile} :
    (b, n) ∈ buracos a ts ↔ (b, ⟨n, .livre⟩) ∈ blocos a ts := by
  rw [buracos, List.mem_filterMap]
  constructor
  · rintro ⟨⟨c, m, uso⟩, hmem, hb⟩
    cases uso <;> simp [buraco] at hb
    obtain ⟨rfl, rfl⟩ := hb
    exact hmem
  · intro h
    exact ⟨_, h, rfl⟩

theorem mem_livres {a b : ℕ} {ts : List Tile} :
    b ∈ livres a ts ↔ ∃ n, (b, ⟨n, .livre⟩) ∈ blocos a ts := by
  simp [livres, mem_buracos]

theorem alocacao_eq_some {b x : ℕ × ℕ} {uso : Uso}
    (h : alocacao (b.1, ⟨b.2, uso⟩) = some x) : uso = .vivo x.2 ∧ x.1 = b.1 + 16 := by
  cases uso <;> simp only [alocacao, reduceCtorEq, Option.some.injEq] at h
  exact ⟨by rw [← h], by rw [← h]; rfl⟩

theorem mem_alocados {a p t : ℕ} {ts : List Tile} :
    (p, t) ∈ alocados a ts ↔ ∃ b n, (b, ⟨n, .vivo t⟩) ∈ blocos a ts ∧ p = b + 16 := by
  rw [alocados, List.mem_filterMap]
  constructor
  · rintro ⟨⟨c, m, uso⟩, hmem, hb⟩
    obtain ⟨rfl, hp⟩ := alocacao_eq_some (b := (c, m)) hb
    exact ⟨c, m, hmem, hp⟩
  · rintro ⟨b, n, hmem, rfl⟩
    exact ⟨_, hmem, rfl⟩

theorem bounds_of_mem_livres {a b : ℕ} {ts : List Tile} (h : b ∈ livres a ts) :
    a ≤ b ∧ b < fim a ts := by
  obtain ⟨n, hn⟩ := mem_livres.mp h
  obtain ⟨hlo, hhi⟩ := bounds_of_mem_blocos hn
  simp only at hlo hhi
  exact ⟨hlo, by omega⟩

theorem pairwise_livres (a : ℕ) (ts : List Tile) : (livres a ts).Pairwise (· < ·) := by
  induction ts generalizing a with
  | nil => exact List.Pairwise.nil
  | cons x ts ih =>
    by_cases hx : x.uso = .livre
    · obtain ⟨n, uso⟩ := x
      simp only at hx
      subst hx
      rw [livres_cons_livre, List.pairwise_cons]
      refine ⟨fun b hb ↦ ?_, ih _⟩
      have := (bounds_of_mem_livres hb).1
      omega
    · rw [livres_cons_of_ne a hx]
      exact ih _

/-- Finding a free tile in the list of tiles: it cuts the tiles where it cuts the free list. -/
theorem exists_cut_of_livres {a b : ℕ} {ts : List Tile} {pre post : List ℕ}
    (h : livres a ts = pre ++ b :: post) :
    ∃ u n v, ts = u ++ ⟨n, .livre⟩ :: v ∧ fim a u = b ∧ livres a u = pre ∧
      livres (b + (n + 16) * 16) v = post := by
  induction ts generalizing a pre with
  | nil => simp at h
  | cons x ts ih =>
    by_cases hx : x.uso = .livre
    · obtain ⟨n, uso⟩ := x
      simp only at hx
      subst hx
      rw [livres_cons_livre] at h
      cases pre with
      | nil =>
        rw [List.nil_append, List.cons.injEq] at h
        obtain ⟨rfl, rfl⟩ := h
        exact ⟨[], n, ts, rfl, rfl, rfl, rfl⟩
      | cons c pre =>
        rw [List.cons_append, List.cons.injEq] at h
        obtain ⟨rfl, h⟩ := h
        obtain ⟨u, m, v, rfl, hb, hpre, hpost⟩ := ih h
        exact ⟨⟨n, .livre⟩ :: u, m, v, rfl, hb, by rw [livres_cons_livre, hpre], hpost⟩
    · rw [livres_cons_of_ne a hx] at h
      obtain ⟨u, m, v, rfl, hb, hpre, hpost⟩ := ih h
      exact ⟨x :: u, m, v, rfl, hb, by rw [livres_cons_of_ne a hx, hpre], hpost⟩

theorem exists_cut_of_mem_alocados {a p t : ℕ} {ts : List Tile} (h : (p, t) ∈ alocados a ts) :
    ∃ u n v, ts = u ++ ⟨n, .vivo t⟩ :: v ∧ p = fim a u + 16 := by
  obtain ⟨b, n, hb, rfl⟩ := mem_alocados.mp h
  obtain ⟨u, v, rfl, rfl⟩ := mem_blocos_iff.mp hb
  exact ⟨u, n, v, rfl, rfl⟩

theorem livres_eq_nil_iff {a : ℕ} {ts : List Tile} :
    livres a ts = [] ↔ ∀ x ∈ ts, x.uso ≠ .livre := by
  induction ts generalizing a with
  | nil => simp
  | cons x ts ih =>
    by_cases hx : x.uso = .livre
    · obtain ⟨n, uso⟩ := x
      simp only at hx
      subst hx
      simp
    · rw [livres_cons_of_ne a hx, ih]
      simp [hx]

/-- The free tile before the end of `u`, or that end when there is none: the value of the pointer
`anterior` when `meu_aloca` stands at a free tile. -/
def antes (a : ℕ) (u : List Tile) : ℕ := (livres a u).getLastD (fim a u)

theorem antes_of_nil {a : ℕ} {u : List Tile} (h : livres a u = []) : antes a u = fim a u := by
  rw [antes, h, List.getLastD_nil]

theorem antes_mem {a : ℕ} {u : List Tile} (h : livres a u ≠ []) : antes a u ∈ livres a u := by
  rw [antes, List.getLastD_eq_getLast?, List.getLast?_eq_some_getLast h, Option.getD_some]
  exact List.getLast_mem h

theorem antes_lt {a : ℕ} {u : List Tile} (h : livres a u ≠ []) : antes a u < fim a u :=
  (bounds_of_mem_livres (antes_mem h)).2

theorem antes_le (a : ℕ) (u : List Tile) : antes a u ≤ fim a u := by
  by_cases h : livres a u = []
  · exact (antes_of_nil h).le
  · exact (antes_lt h).le

/-! ## Separated tiles -/

/-- No two neighbouring tiles are both free. -/
def Separado (ts : List Tile) : Prop :=
  ts.IsChain fun x y ↦ ¬(x.uso = .livre ∧ y.uso = .livre)

theorem Separado.tail {x : Tile} {ts : List Tile} (h : Separado (x :: ts)) : Separado ts :=
  List.IsChain.tail h

theorem Separado.lt_of_mem_livres {a n b : ℕ} {ts : List Tile}
    (h : Separado (⟨n, .livre⟩ :: ts)) (hb : b ∈ livres a ts) : a < b := by
  cases ts with
  | nil => simp at hb
  | cons y ts =>
    have hy : y.uso ≠ .livre := by
      intro hy
      exact (List.isChain_cons_cons.mp h).1 ⟨rfl, hy⟩
    rw [livres_cons_of_ne a hy] at hb
    have := (bounds_of_mem_livres hb).1
    omega

/-- The extent of a hole in bytes. -/
def extensao (b : ℕ × ℕ) : ℕ × ℕ := (b.1, (b.2 + 16) * 16)

/-- **Separated tiles have spaced holes.** -/
theorem Separado.spaced {a : ℕ} {ts : List Tile} (h : Separado ts) :
    Spaced ((buracos a ts).map extensao) := by
  induction ts generalizing a with
  | nil => exact ⟨by simp, List.Pairwise.nil⟩
  | cons x ts ih =>
    by_cases hx : x.uso = .livre
    · obtain ⟨n, uso⟩ := x
      simp only at hx
      subst hx
      obtain ⟨hpos, hgap⟩ := ih (a := a + (n + 16) * 16) h.tail
      rw [buracos_cons_livre, List.map_cons]
      refine ⟨?_, List.pairwise_cons.mpr ⟨?_, hgap⟩⟩
      · intro i hi
        rcases List.mem_cons.mp hi with rfl | hi
        · simp [extensao]
        · exact hpos i hi
      · intro i hi
        obtain ⟨⟨b, m⟩, hb, rfl⟩ := List.mem_map.mp hi
        have hlt := h.lt_of_mem_livres (b := b) (a := a + (n + 16) * 16)
          (mem_livres.mpr ⟨m, mem_buracos.mp hb⟩)
        simpa [extensao] using hlt
    · rw [buracos_cons_of_ne a hx]
      exact ih h.tail

theorem separado_append_cons_iff {u v : List Tile} {x : Tile} :
    Separado (u ++ x :: v) ↔ Separado u ∧ Separado v ∧ (x.uso = .livre →
      (∀ y ∈ u.getLast?, y.uso ≠ .livre) ∧ ∀ y ∈ v.head?, y.uso ≠ .livre) := by
  rw [Separado, List.isChain_append, List.isChain_cons]
  simp only [List.head?_cons, Option.mem_some_iff, forall_eq']
  constructor
  · rintro ⟨hu, ⟨hxv, hv⟩, hux⟩
    exact ⟨hu, hv, fun hx ↦ ⟨fun y hy hyl ↦ hux y hy ⟨hyl, hx⟩, fun y hy hyl ↦ hxv y hy ⟨hx, hyl⟩⟩⟩
  · rintro ⟨hu, hv, hx⟩
    exact ⟨hu, ⟨fun y hy h ↦ (hx h.1).2 y hy h.2, hv⟩, fun y hy h ↦ (hx h.2).1 y hy h.1⟩

theorem separado_append_cons_of_ne {u v : List Tile} {x : Tile} (hx : x.uso ≠ .livre) :
    Separado (u ++ x :: v) ↔ Separado u ∧ Separado v := by
  rw [separado_append_cons_iff]
  exact ⟨fun h ↦ ⟨h.1, h.2.1⟩, fun h ↦ ⟨h.1, h.2, fun hl ↦ absurd hl hx⟩⟩

theorem separado_of_forall_ne {ts : List Tile} (h : ∀ x ∈ ts, x.uso ≠ .livre) : Separado ts := by
  induction ts with
  | nil => exact List.IsChain.nil
  | cons x ts ih =>
    rw [← List.nil_append (x :: ts), separado_append_cons_of_ne (h x List.mem_cons_self)]
    exact ⟨List.IsChain.nil, ih fun y hy ↦ h y (List.mem_cons_of_mem _ hy)⟩

/-! ## Fusing two free neighbours -/

/-- Two free neighbours become one: what a successful `merge` does to the arena. -/
inductive Funde : List Tile → List Tile → Prop
  | mk (u : List Tile) (k n : ℕ) (v : List Tile) :
      Funde (u ++ ⟨k, .livre⟩ :: ⟨n, .livre⟩ :: v) (u ++ ⟨k + 16 + n, .livre⟩ :: v)

/-- Any number of fusions. -/
abbrev FundeVarias : List Tile → List Tile → Prop := Relation.ReflTransGen Funde

namespace Funde

variable {a : ℕ} {ts ts' : List Tile}

theorem unidades_eq (h : Funde ts ts') : unidades ts' = unidades ts := by
  obtain ⟨u, k, n, v⟩ := h
  simp only [unidades_append, unidades_cons]
  omega

theorem alocados_eq (h : Funde ts ts') : alocados a ts' = alocados a ts := by
  obtain ⟨u, k, n, v⟩ := h
  simp only [alocados_append, alocados_cons_livre]
  congr 2
  omega

theorem mem_blocos_fst (h : Funde ts ts') {b : ℕ} (hb : b ∈ (blocos a ts').map Prod.fst) :
    b ∈ (blocos a ts).map Prod.fst := by
  obtain ⟨u, k, n, v⟩ := h
  simp only [blocos_append, blocos_cons, List.map_append, List.map_cons, List.mem_append,
    List.mem_cons] at hb ⊢
  rcases hb with hb | rfl | hb
  · exact Or.inl hb
  · exact Or.inr (Or.inl rfl)
  · refine Or.inr (Or.inr (Or.inr ?_))
    rwa [show fim a u + (k + 16) * 16 + (n + 16) * 16
      = fim a u + (k + 16 + n + 16) * 16 from by ring]

theorem cover_eq (h : Funde ts ts') :
    cover ((buracos a ts').map extensao) = cover ((buracos a ts).map extensao) := by
  obtain ⟨u, k, n, v⟩ := h
  have hshift : fim a u + (k + 16) * 16 + (n + 16) * 16
      = fim a u + (k + 16 + n + 16) * 16 := by ring
  ext x
  simp only [buracos_append, buracos_cons_livre, hshift, mem_cover, List.map_append,
    List.map_cons, List.mem_append, List.mem_cons]
  constructor
  · rintro ⟨i, hi | rfl | hi, hx⟩
    · exact ⟨i, Or.inl hi, hx⟩
    · -- a position of the merged hole lies in the first part or in the second
      rcases Nat.lt_or_ge x (fim a u + (k + 16) * 16) with hlt | hge
      · exact ⟨_, Or.inr (Or.inl rfl), hx.1, hlt⟩
      · refine ⟨_, Or.inr (Or.inr (Or.inl rfl)), hge, ?_⟩
        simp only [extensao] at hx ⊢
        omega
    · exact ⟨i, Or.inr (Or.inr (Or.inr hi)), hx⟩
  · rintro ⟨i, hi | rfl | rfl | hi, hx⟩
    · exact ⟨i, Or.inl hi, hx⟩
    · refine ⟨_, Or.inr (Or.inl rfl), hx.1, ?_⟩
      simp only [extensao] at hx ⊢
      omega
    · refine ⟨_, Or.inr (Or.inl rfl), ?_, ?_⟩
      · simp only [extensao] at hx ⊢
        omega
      · simp only [extensao] at hx ⊢
        omega
    · exact ⟨i, Or.inr (Or.inr hi), hx⟩

end Funde

namespace FundeVarias

variable {a : ℕ} {ts ts' : List Tile}

theorem unidades_eq (h : FundeVarias ts ts') : unidades ts' = unidades ts := by
  induction h with
  | refl => rfl
  | tail _ hs ih => rw [hs.unidades_eq, ih]

theorem alocados_eq (h : FundeVarias ts ts') : alocados a ts' = alocados a ts := by
  induction h with
  | refl => rfl
  | tail _ hs ih => rw [hs.alocados_eq, ih]

theorem mem_blocos_fst (h : FundeVarias ts ts') {b : ℕ} (hb : b ∈ (blocos a ts').map Prod.fst) :
    b ∈ (blocos a ts).map Prod.fst := by
  induction h with
  | refl => exact hb
  | tail _ hs ih => exact ih (hs.mem_blocos_fst hb)

theorem cover_eq (h : FundeVarias ts ts') :
    cover ((buracos a ts').map extensao) = cover ((buracos a ts).map extensao) := by
  induction h with
  | refl => rfl
  | tail _ hs ih => rw [hs.cover_eq, ih]

end FundeVarias

/-! ## Taking a free tile -/

/-- The free tiles of a list dropped from the free list: they become lost. -/
def perde (ts : List Tile) : List Tile :=
  ts.map fun x ↦ if x.uso = .livre then ⟨x.tam, .perdido⟩ else x

theorem uso_ne_livre_of_mem_perde {x : Tile} {ts : List Tile} (h : x ∈ perde ts) :
    x.uso ≠ .livre := by
  obtain ⟨y, -, rfl⟩ := List.mem_map.mp h
  by_cases hy : y.uso = .livre
  · simp [hy]
  · simp [hy]

@[simp] theorem livres_perde (a : ℕ) (ts : List Tile) : livres a (perde ts) = [] :=
  livres_eq_nil_iff.mpr fun _ hx ↦ uso_ne_livre_of_mem_perde hx

private theorem tam_ite_perde (x : Tile) :
    (if x.uso = .livre then (⟨x.tam, .perdido⟩ : Tile) else x).tam = x.tam := by
  split <;> rfl

@[simp] theorem unidades_perde (ts : List Tile) : unidades (perde ts) = unidades ts := by
  induction ts with
  | nil => rfl
  | cons x ts ih =>
    rw [perde, List.map_cons, unidades_cons, unidades_cons, tam_ite_perde, ← perde, ih]

@[simp] theorem alocados_perde (a : ℕ) (ts : List Tile) :
    alocados a (perde ts) = alocados a ts := by
  induction ts generalizing a with
  | nil => rfl
  | cons x ts ih =>
    obtain ⟨n, uso⟩ := x
    have h := ih (a + (n + 16) * 16)
    cases uso <;> simp [alocados, alocacao, perde] at h ⊢ <;> exact h

theorem exists_mem_blocos_of_perde {a : ℕ} {b : ℕ × Tile} {ts : List Tile}
    (h : b ∈ blocos a (perde ts)) : ∃ x, (b.1, x) ∈ blocos a ts ∧ b.2.tam = x.tam := by
  induction ts generalizing a with
  | nil => simp [perde] at h
  | cons x ts ih =>
    rw [perde, List.map_cons, blocos_cons, tam_ite_perde, ← perde, List.mem_cons] at h
    rcases h with rfl | h
    · exact ⟨x, by simp, tam_ite_perde x⟩
    · obtain ⟨y, hy, htam⟩ := ih h
      exact ⟨y, by simp [hy], htam⟩

/-- What `meu_aloca` makes of the arena `u ++ ⟨n, livre⟩ :: v` when it serves a request of `t` from
the free tile in the middle. A perfect fit at the head of the free list, that is with no free tile
in `u`, drops the rest of the list. -/
def ocupaTile (u : List Tile) (n : ℕ) (v : List Tile) (t : ℕ) : List Tile :=
  if n = sizeofHeader + t then
    u ++ ⟨n, .vivo t⟩ :: (if ∀ x ∈ u, x.uso ≠ .livre then perde v else v)
  else u ++ ⟨t, .vivo t⟩ :: ⟨n - sizeofHeader - t, .livre⟩ :: v

section Ocupa

variable {u v : List Tile} {n t : ℕ}

/-- The three outcomes of serving a request: a split, a perfect fit at the head of the free list,
a perfect fit further down. -/
theorem ocupaTile_cases (u : List Tile) (n : ℕ) (v : List Tile) (t : ℕ) :
    (n ≠ 16 + t ∧ ocupaTile u n v t = u ++ ⟨t, .vivo t⟩ :: ⟨n - 16 - t, .livre⟩ :: v) ∨
    (n = 16 + t ∧ (∀ x ∈ u, x.uso ≠ .livre) ∧ ocupaTile u n v t = u ++ ⟨n, .vivo t⟩ :: perde v) ∨
    (n = 16 + t ∧ (¬∀ x ∈ u, x.uso ≠ .livre) ∧ ocupaTile u n v t = u ++ ⟨n, .vivo t⟩ :: v) := by
  by_cases h : n = 16 + t
  · by_cases hu : ∀ x ∈ u, x.uso ≠ .livre
    · exact Or.inr (Or.inl ⟨h, hu, by rw [ocupaTile, sizeofHeader_eq, if_pos h, if_pos hu]⟩)
    · exact Or.inr (Or.inr ⟨h, hu, by rw [ocupaTile, sizeofHeader_eq, if_pos h, if_neg hu]⟩)
  · exact Or.inl ⟨h, by rw [ocupaTile, sizeofHeader_eq, if_neg h]⟩

theorem unidades_ocupaTile (hle : 16 + t ≤ n) :
    unidades (ocupaTile u n v t) = unidades (u ++ ⟨n, .livre⟩ :: v) := by
  rcases ocupaTile_cases u n v t with ⟨h, heq⟩ | ⟨h, -, heq⟩ | ⟨h, -, heq⟩
  · rw [heq]
    simp only [unidades_append, unidades_cons]
    omega
  · rw [heq]
    simp
  · rw [heq]
    simp

theorem separado_ocupaTile (h : Separado (u ++ ⟨n, .livre⟩ :: v)) :
    Separado (ocupaTile u n v t) := by
  obtain ⟨hu, hv, hx⟩ := separado_append_cons_iff.mp h
  rcases ocupaTile_cases u n v t with ⟨-, heq⟩ | ⟨-, -, heq⟩ | ⟨-, -, heq⟩
  · rw [heq, separado_append_cons_of_ne (by simp), ← List.nil_append (_ :: v),
      separado_append_cons_iff]
    exact ⟨hu, List.IsChain.nil, hv, fun _ ↦ ⟨by simp, (hx rfl).2⟩⟩
  · rw [heq, separado_append_cons_of_ne (by simp)]
    exact ⟨hu, separado_of_forall_ne fun _ hx ↦ uso_ne_livre_of_mem_perde hx⟩
  · rw [heq, separado_append_cons_of_ne (by simp)]
    exact ⟨hu, hv⟩

/-- The new allocation joins the old ones; nothing else changes for the users. -/
theorem alocados_ocupaTile (a : ℕ) (hle : 16 + t ≤ n) :
    (alocados a (ocupaTile u n v t)).Perm
      ((fim a u + 16, t) :: alocados a (u ++ ⟨n, .livre⟩ :: v)) := by
  have hperm : ∀ w, (alocados a u ++ (fim a u + 16, t) :: w).Perm
      ((fim a u + 16, t) :: (alocados a u ++ w)) := fun w ↦ List.perm_middle
  rw [alocados_append a u, alocados_cons_livre]
  rcases ocupaTile_cases u n v t with ⟨h, heq⟩ | ⟨-, -, heq⟩ | ⟨-, -, heq⟩
  · have hfim : fim a u + (t + 16) * 16 + (n - 16 - t + 16) * 16 = fim a u + (n + 16) * 16 := by
      omega
    rw [heq, alocados_append, alocados_cons_vivo, alocados_cons_livre, hfim]
    exact hperm _
  · rw [heq, alocados_append, alocados_cons_vivo, alocados_perde]
    exact hperm _
  · rw [heq, alocados_append, alocados_cons_vivo]
    exact hperm _

end Ocupa

end SistemasOperacionais.Gm
