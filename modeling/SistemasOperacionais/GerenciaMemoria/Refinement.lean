import SistemasOperacionais.Foundations.LinkedList
import SistemasOperacionais.GerenciaMemoria.Tiles

/-!
# The memory represents an arena of tiles

`Representa ts s` ties the two views together: walking the memory of `s` by size visits the tiles
`ts`, and walking it by `prox` visits the free ones. Each function of the allocator gets one lemma
saying what it does to the tiles, and everything later reasons about tiles only.

The lemmas are inversions: given that a call returned, they say what it found and what it left.
Where a call can fault, the lemma says exactly when.
-/

namespace SistemasOperacionais.Gm

open Foundations

/-! ## Field access -/

namespace Estado

variable (s : Estado) (p q v : ℕ)

@[simp] theorem tam_setTam : (s.setTam p v).tam q = if q = p then v else s.tam q := by
  unfold tam setTam
  split <;> simp_all

@[simp] theorem prox_setTam : (s.setTam p v).prox q = s.prox q := by
  unfold prox setTam
  by_cases h : q = p <;> simp [h]

@[simp] theorem tam_setProx : (s.setProx p v).tam q = s.tam q := by
  unfold tam setProx
  by_cases h : q = p <;> simp [h]

@[simp] theorem prox_setProx : (s.setProx p v).prox q = if q = p then v else s.prox q := by
  unfold prox setProx
  by_cases h : q = p <;> simp [h]

@[simp] theorem listaLivres_setTam : (s.setTam p v).listaLivres = s.listaLivres := rfl

@[simp] theorem listaLivres_setProx : (s.setProx p v).listaLivres = s.listaLivres := rfl

@[simp] theorem endBaseMemoria_setTam : (s.setTam p v).endBaseMemoria = s.endBaseMemoria := rfl

@[simp] theorem endBaseMemoria_setProx : (s.setProx p v).endBaseMemoria = s.endBaseMemoria := rfl

@[simp] theorem escritas_setTam : (s.setTam p v).escritas = p :: s.escritas := rfl

@[simp] theorem escritas_setProx : (s.setProx p v).escritas = p :: s.escritas := rfl

variable {s p}

theorem lerTam_of_ne (h : p ≠ 0) : s.lerTam p = .ok (s.tam p) := if_neg h

theorem lerProx_of_ne (h : p ≠ 0) : s.lerProx p = .ok (s.prox p) := if_neg h

theorem escreveTam_of_ne (h : p ≠ 0) : s.escreveTam p v = .ok (s.setTam p v) := if_neg h

theorem escreveProx_of_ne (h : p ≠ 0) : s.escreveProx p v = .ok (s.setProx p v) := if_neg h

theorem header_setProx_of_eq {v : ℕ} (h : s.prox p = v) : (s.setProx p v).header = s.header := by
  funext q
  by_cases hq : q = p
  · subst hq
    subst h
    simp [setProx, prox]
  · simp [setProx, hq]

/-- A change of `listaLivres` alone. -/
def comLista (s : Estado) (p : ℕ) : Estado := { s with listaLivres := p }

@[simp] theorem tam_comLista : (s.comLista p).tam q = s.tam q := rfl

@[simp] theorem listaLivres_comLista : (s.comLista p).listaLivres = p := rfl

@[simp] theorem prox_comLista : (s.comLista p).prox q = s.prox q := rfl

end Estado

/-! ## The representation -/

/-- Walking the memory by size from `endBaseMemoria` visits the tiles `ts`, and walking it by `prox`
from `listaLivres` visits the free ones among them. -/
structure Representa (ts : List Tile) (s : Estado) : Prop where
  base_pos : 0 < s.endBaseMemoria
  tam_eq : ∀ b ∈ blocos s.endBaseMemoria ts, s.tam b.1 = b.2.tam
  lista : Seg s.prox s.listaLivres (livres s.endBaseMemoria ts) 0

namespace Representa

variable {ts u v : List Tile} {s : Estado} {n : ℕ} {uso : Uso}

theorem fim_pos (h : Representa ts s) (u : List Tile) : 0 < fim s.endBaseMemoria u := by
  have := h.base_pos
  rw [fim_eq]
  omega

theorem antes_pos (h : Representa ts s) (u : List Tile) : antes s.endBaseMemoria u ≠ 0 := by
  have := h.fim_pos u
  by_cases hl : livres s.endBaseMemoria u = []
  · rw [antes_of_nil hl]
    omega
  · have := (bounds_of_mem_livres (antes_mem hl)).1
    have := h.base_pos
    omega

theorem chain (h : Representa ts s) :
    Chain 0 s.prox s.listaLivres (livres s.endBaseMemoria ts) := by
  refine ⟨h.lista, fun a ha ↦ ?_⟩
  have := (bounds_of_mem_livres ha).1
  have := h.base_pos
  omega

theorem tam_fim (h : Representa (u ++ ⟨n, uso⟩ :: v) s) : s.tam (fim s.endBaseMemoria u) = n :=
  h.tam_eq (fim s.endBaseMemoria u, ⟨n, uso⟩) (mem_blocos_iff.mpr ⟨u, v, rfl, rfl⟩)

theorem lista_cut (h : Representa (u ++ ⟨n, .livre⟩ :: v) s) :
    Seg s.prox s.listaLivres (livres s.endBaseMemoria u) (fim s.endBaseMemoria u) ∧
      Seg s.prox (s.prox (fim s.endBaseMemoria u))
        (livres (fim s.endBaseMemoria u + (n + 16) * 16) v) 0 := by
  have hl := h.lista
  rw [livres_append, livres_cons_livre] at hl
  obtain ⟨r, hr, rfl, hv⟩ := seg_append.mp hl
  exact ⟨hr, hv⟩

end Representa

/-! ## Taking a hole

`ocupa` as a composition of updates, with `NULL` ruled out once. -/

def encaixado (s : Estado) (anterior atual : ℕ) : Estado :=
  (s.setProx anterior (s.prox atual)).setProx atual 0

def dividido (s : Estado) (anterior atual t : ℕ) : Estado :=
  (((s.setProx anterior (atual + (t + 16) * 16)).setProx (atual + (t + 16) * 16)
    (s.prox atual)).setTam (atual + (t + 16) * 16) (s.tam atual - 16 - t)).setTam atual t

/-- The end of `meu_aloca`: the head of the list is moved on if it was the block taken, and the
block is cut off. -/
def desprendido (s : Estado) (atual : ℕ) : Estado :=
  (if atual = s.listaLivres then s.comLista (s.prox atual) else s).setProx atual 0

theorem encaixe_eq {s : Estado} {anterior atual : ℕ} (ha : anterior ≠ 0) (hb : atual ≠ 0) :
    encaixe s anterior atual = .ok (encaixado s anterior atual) := by
  rw [encaixe, Estado.lerProx_of_ne hb]
  simp only [bind, Except.bind]
  rw [Estado.escreveProx_of_ne _ ha]
  simp only
  rw [Estado.escreveProx_of_ne _ hb, encaixado]

theorem divide_eq {s : Estado} {anterior atual t : ℕ} (ha : anterior ≠ 0) (hb : atual ≠ 0) :
    divide s anterior atual t = .ok (dividido s anterior atual t) := by
  have hnovo : atual + (t + 16) * 16 ≠ 0 := by omega
  rw [divide, Estado.lerProx_of_ne hb]
  simp only [bind, Except.bind, somaPtr, sizeofHeader_eq]
  rw [Estado.escreveProx_of_ne _ ha]
  simp only
  rw [Estado.escreveProx_of_ne _ hnovo]
  simp only
  rw [Estado.lerTam_of_ne hb]
  simp only [Estado.tam_setProx]
  rw [Estado.escreveTam_of_ne _ hnovo]
  simp only
  rw [Estado.escreveTam_of_ne _ hb, dividido]

theorem ocupa_eq {s : Estado} {anterior atual t : ℕ} (ha : anterior ≠ 0) (hb : atual ≠ 0) :
    ocupa s anterior atual t = .ok (atual + 16, desprendido
      (if s.tam atual = 16 + t then encaixado s anterior atual
        else dividido s anterior atual t) atual) := by
  -- both branches end in the same way: unlink the head if it was taken and clear `prox`
  have hcauda : ∀ s' : Estado, (do
      let s' ← if atual = s'.listaLivres then do
          let p ← s'.lerProx atual
          Except.ok { s' with listaLivres := p }
        else Except.ok s'
      let s' ← s'.escreveProx atual 0
      return (atual + sizeofHeader, s') : Except Falha (ℕ × Estado))
        = .ok (atual + 16, desprendido s' atual) := by
    intro s'
    by_cases hh : atual = s'.listaLivres
    · rw [if_pos hh, Estado.lerProx_of_ne hb, desprendido, if_pos hh]
      simp only [bind, Except.bind]
      rw [Estado.escreveProx_of_ne _ hb]
      rfl
    · rw [if_neg hh, desprendido, if_neg hh]
      simp only [bind, Except.bind]
      rw [Estado.escreveProx_of_ne _ hb]
      rfl
  rw [ocupa, Estado.lerTam_of_ne hb]
  by_cases ht : s.tam atual = 16 + t
  · rw [if_pos ht]
    simp only [bind, Except.bind, sizeofHeader_eq, if_pos ht, encaixe_eq ha hb]
    exact hcauda _
  · rw [if_neg ht]
    simp only [bind, Except.bind, sizeofHeader_eq, if_neg ht, divide_eq ha hb]
    exact hcauda _

section Desprendido

variable (s : Estado) (anterior atual t q : ℕ)

@[simp] theorem tam_desprendido : (desprendido s atual).tam q = s.tam q := by
  unfold desprendido
  split <;> simp

@[simp] theorem prox_desprendido :
    (desprendido s atual).prox q = if q = atual then 0 else s.prox q := by
  unfold desprendido
  split <;> simp

@[simp] theorem listaLivres_desprendido : (desprendido s atual).listaLivres =
    if atual = s.listaLivres then s.prox atual else s.listaLivres := by
  unfold desprendido
  split <;> rfl

@[simp] theorem endBaseMemoria_desprendido :
    (desprendido s atual).endBaseMemoria = s.endBaseMemoria := by
  unfold desprendido
  split <;> rfl

@[simp] theorem escritas_desprendido :
    (desprendido s atual).escritas = atual :: s.escritas := by
  unfold desprendido
  split <;> rfl

end Desprendido

namespace Representa

variable {u v : List Tile} {s : Estado} {n t : ℕ}

theorem tam_eq_reuse {uso uso' : Uso} (h : Representa (u ++ ⟨n, uso⟩ :: v) s) :
    ∀ b ∈ blocos s.endBaseMemoria (u ++ ⟨n, uso'⟩ :: v), s.tam b.1 = b.2.tam := by
  intro b hb
  rcases mem_blocos_cut hb with ⟨hb, -⟩ | rfl | ⟨hb, -⟩
  · exact h.tam_eq b (mem_blocos_left hb)
  · exact h.tam_fim
  · exact h.tam_eq b (mem_blocos_right hb)

/-- Redirecting the free list just before the end of `u`: the last free block there now points at
`r`, or `listaLivres` does when there is none. -/
theorem seg_redirect {a q r : ℕ} {s s' : Estado}
    (hs : Seg s.prox s.listaLivres (livres a u) q)
    (hkeep : ∀ b ∈ livres a u, b ≠ antes a u → s'.prox b = s.prox b)
    (hlast : livres a u ≠ [] → s'.prox (antes a u) = r)
    (hhead : s'.listaLivres = if livres a u = [] then r else s.listaLivres) :
    Seg s'.prox s'.listaLivres (livres a u) r := by
  have hsorted := pairwise_livres a u
  rcases (livres a u).eq_nil_or_concat with hl | ⟨l, c, hl⟩
  · simpa [hl] using hhead
  · have hc : antes a u = c := by rw [antes, hl, List.concat_eq_append, List.getLastD_concat]
    rw [hhead, if_neg (by simp [hl])]
    rw [hc] at hkeep hlast
    rw [hl, List.concat_eq_append] at hs hsorted hkeep hlast ⊢
    refine hs.relink (fun b hb ↦ hkeep b (by simp [hb]) ?_) (hlast (by simp))
    have : b < c := (List.pairwise_append.mp hsorted).2.2 b hb c (by simp)
    omega

/-- The head of the free list is the block at the end of `u` exactly when no free block precedes
it. -/
theorem listaLivres_eq_iff (h : Representa (u ++ ⟨n, .livre⟩ :: v) s) :
    fim s.endBaseMemoria u = s.listaLivres ↔ livres s.endBaseMemoria u = [] := by
  obtain ⟨hu, -⟩ := h.lista_cut
  constructor
  · intro heq
    by_contra hne
    obtain ⟨c, l, hl⟩ := List.exists_cons_of_ne_nil hne
    have hc : c ∈ livres s.endBaseMemoria u := by rw [hl]; exact List.mem_cons_self
    rw [hl] at hu
    have := (bounds_of_mem_livres hc).2
    have := hu.1
    omega
  · intro hl
    rw [hl] at hu
    exact hu.symm

theorem dividido (h : Representa (u ++ ⟨n, .livre⟩ :: v) s) (hle : 16 + t ≤ n) :
    Representa (u ++ ⟨t, .vivo t⟩ :: ⟨n - 16 - t, .livre⟩ :: v)
      (desprendido (dividido s (antes s.endBaseMemoria u) (fim s.endBaseMemoria u) t)
        (fim s.endBaseMemoria u)) := by
  obtain ⟨hu, hv⟩ := h.lista_cut
  have hn := h.tam_fim
  have hhead := h.listaLivres_eq_iff
  set a := s.endBaseMemoria with ha
  set e := fim a u with he
  set s' := desprendido (Gm.dividido s (antes a u) e t) e with hs'
  have hbase : s'.endBaseMemoria = a := by simp [hs', Gm.dividido, ha]
  have htam : ∀ q, s'.tam q
      = if q = e then t else if q = e + (t + 16) * 16 then n - 16 - t else s.tam q := by
    intro q
    simp [hs', Gm.dividido, hn]
  have hprox : ∀ q, s'.prox q = if q = e then 0 else if q = e + (t + 16) * 16 then s.prox e
      else if q = antes a u then e + (t + 16) * 16 else s.prox q := by
    intro q
    simp [hs', Gm.dividido]
  -- at the head the list now starts at the remainder
  have hlista : s'.listaLivres
      = if livres a u = [] then e + (t + 16) * 16 else s.listaLivres := by
    by_cases hl : livres a u = []
    · simp [hs', Gm.dividido, hl, hhead.mpr hl, antes_of_nil hl, ← he]
    · simp [hs', Gm.dividido, hl, mt hhead.mp hl]
  have hfim : e + (t + 16) * 16 + (n - 16 - t + 16) * 16 = e + (n + 16) * 16 := by omega
  refine ⟨hbase ▸ h.base_pos, ?_, ?_⟩
  · intro b hb
    rw [hbase] at hb
    rw [htam]
    rcases mem_blocos_cut hb with ⟨hb, hlt⟩ | rfl | ⟨hb, hge⟩
    · rw [if_neg (by omega), if_neg (by omega)]
      exact h.tam_eq b (mem_blocos_left hb)
    · rw [if_pos rfl]
    · rw [blocos_cons, List.mem_cons, hfim] at hb
      rcases hb with rfl | hb
      · rw [if_neg (by simp only; omega), if_pos rfl]
      · have := (bounds_of_mem_blocos hb).1
        rw [if_neg (by omega), if_neg (by omega)]
        exact h.tam_eq b (mem_blocos_right hb)
  · rw [hbase, livres_append, livres_cons_of_ne _ (by simp), livres_cons_livre, ← he, hfim]
    -- the remainder takes the place of the hole on the list
    refine seg_append.mpr ⟨e + (t + 16) * 16, ?_, rfl, ?_⟩
    · refine seg_redirect hu (fun b hb hbne ↦ ?_) (fun hl ↦ ?_) hlista
      · have := (bounds_of_mem_livres hb).2
        rw [hprox, if_neg (by omega), if_neg (by omega), if_neg hbne]
      · have := antes_lt hl
        rw [hprox, if_neg (by omega), if_neg (by omega), if_pos rfl]
    · rw [hprox, if_neg (by omega), if_pos rfl]
      refine hv.congr fun b hb ↦ ?_
      have := (bounds_of_mem_livres hb).1
      have := antes_le a u
      rw [hprox, if_neg (by omega), if_neg (by omega), if_neg (by omega)]

/-- A perfect fit at the head of the free list. The head is overwritten before it is read, so the
list ends up empty whatever followed. -/
theorem encaixado_head (h : Representa (u ++ ⟨n, .livre⟩ :: v) s)
    (hl : livres s.endBaseMemoria u = []) :
    Representa (u ++ ⟨n, .vivo t⟩ :: perde v)
      (desprendido (encaixado s (antes s.endBaseMemoria u) (fim s.endBaseMemoria u))
        (fim s.endBaseMemoria u)) := by
  have hhead := h.listaLivres_eq_iff.mpr hl
  set s' := desprendido (encaixado s (antes s.endBaseMemoria u) (fim s.endBaseMemoria u))
    (fim s.endBaseMemoria u) with hs'
  have hbase : s'.endBaseMemoria = s.endBaseMemoria := by simp [hs', encaixado]
  have htam : ∀ q, s'.tam q = s.tam q := fun q ↦ by simp [hs', encaixado]
  have hlista : s'.listaLivres = 0 := by simp [hs', encaixado, hhead]
  refine ⟨hbase ▸ h.base_pos, ?_, ?_⟩
  · intro b hb
    rw [hbase] at hb
    rw [htam]
    rcases mem_blocos_cut hb with ⟨hb, -⟩ | rfl | ⟨hb, -⟩
    · exact h.tam_eq b (mem_blocos_left hb)
    · exact h.tam_fim
    · obtain ⟨x, hx, hxt⟩ := exists_mem_blocos_of_perde hb
      rw [hxt]
      exact h.tam_eq (b.1, x) (mem_blocos_right hx)
  · rw [hbase, livres_append, livres_cons_of_ne _ (by simp), livres_perde, hl]
    exact hlista

theorem encaixado_inner (h : Representa (u ++ ⟨n, .livre⟩ :: v) s)
    (hl : livres s.endBaseMemoria u ≠ []) :
    Representa (u ++ ⟨n, .vivo t⟩ :: v)
      (desprendido (encaixado s (antes s.endBaseMemoria u) (fim s.endBaseMemoria u))
        (fim s.endBaseMemoria u)) := by
  obtain ⟨hu, hv⟩ := h.lista_cut
  have hhead := mt h.listaLivres_eq_iff.mp hl
  have hant := antes_lt hl
  set a := s.endBaseMemoria with ha
  set e := fim a u with he
  set s' := desprendido (encaixado s (antes a u) e) e with hs'
  have hbase : s'.endBaseMemoria = a := by simp [hs', encaixado, ha]
  have htam : ∀ q, s'.tam q = s.tam q := fun q ↦ by simp [hs', encaixado]
  have hprox : ∀ q, s'.prox q
      = if q = e then 0 else if q = antes a u then s.prox e else s.prox q := by
    intro q
    by_cases hq : q = e <;> simp [hs', encaixado, hq]
  have hlista : s'.listaLivres = if livres a u = [] then s.prox e else s.listaLivres := by
    rw [if_neg hl]
    simp [hs', encaixado, hhead]
  refine ⟨hbase ▸ h.base_pos, ?_, ?_⟩
  · intro b hb
    rw [hbase] at hb
    rw [htam]
    exact h.tam_eq_reuse b hb
  · rw [hbase, livres_append, livres_cons_of_ne _ (by simp), ← he]
    refine seg_append.mpr ⟨s.prox e, ?_, ?_⟩
    · refine seg_redirect hu (fun b hb hbne ↦ ?_) (fun _ ↦ ?_) hlista
      · have := (bounds_of_mem_livres hb).2
        rw [hprox, if_neg (by omega), if_neg hbne]
      · rw [hprox, if_neg (by omega), if_pos rfl]
    · refine hv.congr fun b hb ↦ ?_
      have := (bounds_of_mem_livres hb).1
      rw [hprox, if_neg (by omega), if_neg (by omega)]

/-- **Taking a hole.** With `anterior` the free block before it, or the block itself when it heads
the list, `ocupa` returns and turns the arena into `ocupaTile`. It writes headers of tiles only, and
among them that of the remainder when the hole is split. -/
theorem ocupa (h : Representa (u ++ ⟨n, .livre⟩ :: v) s) (hle : 16 + t ≤ n) :
    ∃ s', ocupa s (antes s.endBaseMemoria u) (fim s.endBaseMemoria u) t
        = .ok (fim s.endBaseMemoria u + 16, s') ∧
      Representa (ocupaTile u n v t) s' ∧ s'.endBaseMemoria = s.endBaseMemoria ∧
      (n ≠ 16 + t → fim s.endBaseMemoria u + (t + 16) * 16 ∈ s'.escritas) ∧
      ∀ b ∈ s'.escritas, b ∈ s.escritas ∨
        b ∈ (blocos s.endBaseMemoria (ocupaTile u n v t)).map Prod.fst := by
  have hpos := h.fim_pos u
  have hantpos := h.antes_pos u
  -- whatever the outcome, `anterior` is a tile of the new arena
  have hantmem : ∀ x w, antes s.endBaseMemoria u
      ∈ (blocos s.endBaseMemoria (u ++ x :: w)).map Prod.fst := by
    intro x w
    by_cases hl : livres s.endBaseMemoria u = []
    · simp [antes_of_nil hl]
    · obtain ⟨m, hm⟩ := mem_livres.mp (antes_mem hl)
      rw [blocos_append, List.map_append, List.mem_append]
      exact Or.inl (List.mem_map.mpr ⟨_, hm, rfl⟩)
  refine ⟨_, ocupa_eq hantpos (by omega), ?_⟩
  -- a split, a perfect fit at the head and a perfect fit further down
  rcases ocupaTile_cases u n v t with ⟨hn, heq⟩ | ⟨hn, hu, heq⟩ | ⟨hn, hu, heq⟩
  · rw [heq, if_neg (by rw [h.tam_fim]; exact hn)]
    refine ⟨h.dividido hle, by simp [Gm.dividido], fun _ ↦ by simp [Gm.dividido], ?_⟩
    intro b hb
    simp only [escritas_desprendido, Gm.dividido, Estado.escritas_setTam, Estado.escritas_setProx,
      List.mem_cons] at hb
    rcases hb with rfl | rfl | rfl | rfl | rfl | hb
    · simp
    · simp
    · simp
    · simp
    · exact Or.inr (hantmem _ _)
    · exact Or.inl hb
  all_goals
    rw [heq, if_pos (by rw [h.tam_fim]; exact hn)]
    refine ⟨?_, by simp [encaixado], fun hne ↦ absurd hn hne, ?_⟩
  · exact h.encaixado_head (livres_eq_nil_iff.mpr hu)
  · intro b hb
    simp only [escritas_desprendido, encaixado, Estado.escritas_setProx, List.mem_cons] at hb
    rcases hb with rfl | rfl | rfl | hb
    · simp
    · simp
    · exact Or.inr (hantmem _ _)
    · exact Or.inl hb
  · exact h.encaixado_inner (mt livres_eq_nil_iff.mp hu)
  · intro b hb
    simp only [escritas_desprendido, encaixado, Estado.escritas_setProx, List.mem_cons] at hb
    rcases hb with rfl | rfl | rfl | hb
    · simp
    · simp
    · exact Or.inr (hantmem _ _)
    · exact Or.inl hb

end Representa

end SistemasOperacionais.Gm
