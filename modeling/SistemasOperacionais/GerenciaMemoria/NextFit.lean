import SistemasOperacionais.GerenciaMemoria.Runs

/-!
# Next fit: `gm.c`

`gm.c` adds a roving pointer `inicioNext` at which the search starts. A search that starts in the
middle of the list does not know the block before its start, and `meu_aloca` looks it up again when
it splits that block but not when the block fits perfectly. Then the block stays on the free list
while it is live.

The properties of the roving pointer hold, and hold only, in the runs where this does not happen.
-/

namespace SistemasOperacionais.Gm

open Foundations

namespace Next

/-! ## The program -/

/-- The globals of `gm.c`. -/
structure Globais where
  est : Estado
  inicioNext : ℕ

/-- `inicializa_mem` with `ehNext` defined. -/
def inicializaMem (lixo : ℕ → Header) (endBase : ℕ) : Globais :=
  let s := Gm.inicializaMem lixo endBase
  ⟨s, s.listaLivres⟩

/-- `nextFit(&anterior, &atual, tam)`: the new values of `*anterior` and `*atual`. The loop tests
the address of the variable instead of its value, so it never ends by itself: past the end of the
list `(*atual)->tam` is an access through `NULL`. -/
def nextFit (s : Estado) (tam : ℕ) : ℕ → ℕ → ℕ → Except Falha (ℕ × ℕ)
  | 0, _, _ => .error .combustivel
  | n + 1, anterior, atual => do
    let t ← s.lerTam atual
    if t < tam + sizeofHeader then nextFit s tam n atual (← s.lerProx atual)
    else .ok (anterior, atual)

/-- The loop of `meu_aloca` that looks for the block before `atual`. -/
def achaAnterior (s : Estado) (atual : ℕ) : ℕ → ℕ → Except Falha ℕ
  | 0, _ => .error .combustivel
  | n + 1, anterior =>
    if anterior = 0 then .ok anterior
    else do
      let p ← s.lerProx anterior
      if p ≠ atual then achaAnterior s atual n p else .ok anterior

/-- The splitting branch: `anterior` is corrected when the search ended where it started, unless
that is the head of the list. -/
def divide (n : ℕ) (s : Estado) (anterior atual tam : ℕ) : Except Falha Estado := do
  let _ ← s.lerTam anterior
  let anterior ← if anterior ≠ s.listaLivres ∧ anterior = atual then
      achaAnterior s atual n s.listaLivres
    else .ok anterior
  Gm.divide s anterior atual tam

/-- The end of `meu_aloca`. The roving pointer moves on through `prox` after the list has been
edited and before `atual` is cut off. -/
def termina (s : Estado) (inicioNext atual : ℕ) : Except Falha (ℕ × Globais) := do
  let s ← if atual = s.listaLivres then do
      let p ← s.lerProx atual
      .ok { s with listaLivres := p }
    else .ok s
  let p ← s.lerProx inicioNext
  let inicioNext := if p = 0 then s.listaLivres else p
  let s ← s.escreveProx atual 0
  return (atual + sizeofHeader, ⟨s, inicioNext⟩)

/-- What `meu_aloca` does once a hole is found. -/
def ocupa (n : ℕ) (x : Globais) (anterior atual tam : ℕ) : Except Falha (ℕ × Globais) := do
  let t ← x.est.lerTam atual
  let s ← if t = sizeofHeader + tam then encaixe x.est anterior atual
    else divide n x.est anterior atual tam
  termina s x.inicioNext atual

/-- `meu_aloca`. The second search assigns to variables of its own block, so its result is not
used. -/
def meuAloca (n : ℕ) (x : Globais) (tam : ℕ) : Except Falha (Option ℕ × Globais) := do
  let (anterior, atual) ← nextFit x.est tam n x.inicioNext x.inicioNext
  if atual = 0 then
    let _ ← nextFit x.est tam n x.est.listaLivres x.est.listaLivres
    return (none, x)
  else
    let (p, x) ← ocupa n x anterior atual tam
    return (some p, x)

/-- `merge`: the lines shared with `gmsimples.c`, and then, if they joined the blocks, those under
`ehNext`. -/
def merge (x : Globais) (anterior posterior : ℕ) : Except Falha (Bool × Globais) := do
  let (juntou, s) ← Gm.merge x.est anterior posterior
  if juntou ∧ x.inicioNext = posterior then
    let s ← s.escreveProx anterior (← s.lerProx posterior)
    return (juntou, ⟨s, anterior⟩)
  else return (juntou, ⟨s, x.inicioNext⟩)

def meuLibera (n : ℕ) (x : Globais) (ponteiro : ℕ) : Except Falha Globais :=
  liberaCom Globais.est (fun x s ↦ { x with est := s }) merge n x ponteiro

/-- The globals together with the live allocations. -/
structure Sistema where
  glob : Globais
  vivos : List (ℕ × ℕ)

/-- One call that returns. -/
inductive Passo : Sistema → Op → Sistema → Prop
  | aloca {S : Sistema} {t n p : ℕ} {x : Globais} :
      meuAloca n S.glob t = .ok (some p, x) → Passo S (.aloca t) ⟨x, (p, t) :: S.vivos⟩
  | recusa {S : Sistema} {t n : ℕ} {x : Globais} :
      meuAloca n S.glob t = .ok (none, x) → Passo S (.aloca t) ⟨x, S.vivos⟩
  | libera {S : Sistema} {p t n : ℕ} {x : Globais} :
      (p, t) ∈ S.vivos → meuLibera n S.glob p = .ok x →
      Passo S (.libera p) ⟨x, S.vivos.erase (p, t)⟩

/-- The state after `inicializa_mem`, with nothing allocated. -/
def inicial (lixo : ℕ → Header) (endBase : ℕ) : Sistema := ⟨inicializaMem lixo endBase, []⟩

/-! ## The search -/

section Busca

variable {s : Estado} {t m : ℕ}

theorem procura_of_nextFit {ant p : ℕ} {r : ℕ × ℕ} (h : nextFit s t m ant p = .ok r) :
    procura s t m ant p = .ok r ∧ r.2 ≠ 0 := by
  induction m generalizing ant p with
  | zero => exact absurd h (by simp [nextFit])
  | succ m ih =>
    rw [nextFit] at h
    by_cases hp : p = 0
    · rw [Estado.lerTam, if_pos hp] at h
      exact absurd h (by simp [bind, Except.bind])
    · rw [Estado.lerTam_of_ne hp] at h
      rw [procura, if_neg hp, Estado.lerTam_of_ne hp]
      simp only [bind, Except.bind] at h ⊢
      by_cases hlt : s.tam p < t + sizeofHeader
      · rw [if_pos hlt, Estado.lerProx_of_ne hp] at h
        rw [if_pos hlt, Estado.lerProx_of_ne hp]
        exact ih h
      · rw [if_neg hlt] at h
        rw [if_neg hlt]
        simp only [Except.ok.injEq] at h
        exact ⟨by rw [h], h ▸ hp⟩

/-- Where a search from `i` stops: at `i`, or at a later block of which it then knows the one
before. -/
theorem nextFit_cases {ts : List Tile} {i ant y : ℕ} (h : Representa ts s)
    (hi : i ∈ livres s.endBaseMemoria ts) (hok : nextFit s t m i i = .ok (ant, y)) :
    ∃ u n v, ts = u ++ ⟨n, .livre⟩ :: v ∧ y = fim s.endBaseMemoria u ∧ 16 + t ≤ n ∧
      ((y = i ∧ ant = i) ∨ (i ∈ livres s.endBaseMemoria u ∧ ant = antes s.endBaseMemoria u ∧
        s.tam i < 16 + t)) := by
  obtain ⟨pre₀, post₀, hl⟩ := List.append_of_mem hi
  -- from the roving pointer the list is a suffix of the free list
  have hchain : Chain 0 s.prox i (i :: post₀) := by
    have hc := h.chain
    rw [hl] at hc
    obtain ⟨r, -, hseg⟩ := seg_append.mp hc.seg
    obtain rfl := hseg.1
    exact ⟨hseg, fun a ha ↦ hc.ne_null a (List.mem_append_right _ ha)⟩
  obtain ⟨hproc, hy⟩ := procura_of_nextFit hok
  rcases procura_cases hchain hproc with ⟨hy0, -⟩ | ⟨pre, post, hcut, hant, hpre, hfit⟩
  · exact absurd hy0 hy
  · cases pre with
    | nil =>
      rw [List.nil_append, List.cons.injEq] at hcut
      obtain ⟨rfl, rfl⟩ := hcut
      obtain ⟨u, n, v, rfl, hu, -, -⟩ := exists_cut_of_livres hl
      have htam := h.tam_fim
      rw [hu] at htam
      exact ⟨u, n, v, rfl, hu.symm, htam ▸ hfit, Or.inl ⟨rfl, hant⟩⟩
    | cons c pre =>
      rw [List.cons_append, List.cons.injEq] at hcut
      obtain ⟨rfl, rfl⟩ := hcut
      have hl' : livres s.endBaseMemoria ts = (pre₀ ++ i :: pre) ++ y :: post := by
        rw [hl, List.append_assoc, List.cons_append]
      obtain ⟨u, n, v, rfl, hu, hlu, -⟩ := exists_cut_of_livres hl'
      have htam := h.tam_fim
      rw [hu] at htam
      refine ⟨u, n, v, rfl, hu.symm, htam ▸ hfit, Or.inr ⟨?_, ?_, hpre i List.mem_cons_self⟩⟩
      · rw [hlu]
        simp
      · rw [hant, antes, hlu, List.getLastD_eq_getLast?, List.getLastD_eq_getLast?,
          List.getLast?_append_of_ne_nil _ (by simp), List.getLast?_cons]
        rfl

/-- Looking for the block before `q` along a list on which only the last block points at it. -/
theorem eq_getLast_of_achaAnterior {l : List ℕ} {p q a : ℕ} (hs : Seg s.prox p l q)
    (hl : ∀ b ∈ l, b ≠ 0 ∧ b ≠ q) (hne : l ≠ []) (h : achaAnterior s q m p = .ok a) :
    a = l.getLast hne := by
  induction m generalizing p l with
  | zero => exact absurd h (by simp [achaAnterior])
  | succ m ih =>
    cases l with
    | nil => exact absurd rfl hne
    | cons b l =>
      obtain ⟨rfl, hs⟩ := hs
      rw [achaAnterior, if_neg (hl p List.mem_cons_self).1,
        Estado.lerProx_of_ne (hl p List.mem_cons_self).1] at h
      simp only [bind, Except.bind] at h
      cases l with
      | nil =>
        rw [seg_nil] at hs
        rw [if_neg (not_not.mpr hs), Except.ok.injEq] at h
        exact h.symm
      | cons c l =>
        have hc : s.prox p ≠ q := hs.1 ▸ (hl c (by simp)).2
        rw [if_pos hc] at h
        rw [List.getLast_cons (by simp)]
        exact ih hs (fun b hb ↦ hl b (List.mem_cons_of_mem _ hb)) (by simp) h

theorem divide_cases {u v : List Tile} {n ant : ℕ} {s' : Estado}
    (h : Representa (u ++ ⟨n, .livre⟩ :: v) s)
    (hant : ant = fim s.endBaseMemoria u ∨ ant = antes s.endBaseMemoria u)
    (hok : divide m s ant (fim s.endBaseMemoria u) t = .ok s') :
    s' = dividido s (antes s.endBaseMemoria u) (fim s.endBaseMemoria u) t := by
  have hpos : fim s.endBaseMemoria u ≠ 0 := (h.fim_pos u).ne'
  have hantes : antes s.endBaseMemoria u ≠ 0 := h.antes_pos u
  have hant0 : ant ≠ 0 := by
    rcases hant with rfl | rfl
    · exact hpos
    · exact hantes
  rw [divide, Estado.lerTam_of_ne hant0] at hok
  simp only [bind, Except.bind] at hok
  -- the predecessor is looked for only when the search stopped where it began, off the head
  by_cases hc : ant ≠ s.listaLivres ∧ ant = fim s.endBaseMemoria u
  · obtain ⟨hhead, rfl⟩ := hc
    rw [if_pos ⟨hhead, rfl⟩] at hok
    have hlu := mt h.listaLivres_eq_iff.mpr hhead
    cases hach : achaAnterior s (fim s.endBaseMemoria u) m s.listaLivres with
    | error f =>
      rw [hach] at hok
      exact absurd hok (by simp)
    | ok a =>
      have hlt : ∀ b ∈ livres s.endBaseMemoria u, b ≠ 0 ∧ b ≠ fim s.endBaseMemoria u := by
        intro b hb
        have := bounds_of_mem_livres hb
        have := h.base_pos
        omega
      have ha : a = antes s.endBaseMemoria u := by
        rw [eq_getLast_of_achaAnterior h.lista_cut.1 hlt hlu hach, antes,
          List.getLastD_eq_getLast?, List.getLast?_eq_some_getLast hlu, Option.getD_some]
      rw [hach] at hok
      simp only [ha, divide_eq hantes hpos, Except.ok.injEq] at hok
      exact hok.symm
  · rw [if_neg hc] at hok
    have ha : ant = antes s.endBaseMemoria u := by
      rcases hant with rfl | rfl
      · have hhead : fim s.endBaseMemoria u = s.listaLivres := by
          by_contra hne
          exact hc ⟨hne, rfl⟩
        rw [antes_of_nil (h.listaLivres_eq_iff.mp hhead)]
      · rfl
    simp only [ha, divide_eq hantes hpos, Except.ok.injEq] at hok
    exact hok.symm

end Busca

section Ocupa

variable {x x' : Globais} {ts u v : List Tile} {n t m : ℕ}

/-- The state in which the roving pointer is moved. -/
def avancado (s : Estado) (atual : ℕ) : Estado :=
  if atual = s.listaLivres then s.comLista (s.prox atual) else s

theorem desprendido_eq (s : Estado) (atual : ℕ) :
    desprendido s atual = (avancado s atual).setProx atual 0 := rfl

/-- The new value of the roving pointer. -/
def seguinte (s : Estado) (i : ℕ) : ℕ := if s.prox i = 0 then s.listaLivres else s.prox i

theorem termina_eq {s : Estado} {i y : ℕ} (hi : i ≠ 0) (hy : y ≠ 0) :
    termina s i y = .ok (y + 16, ⟨desprendido s y, seguinte (avancado s y) i⟩) := by
  rw [termina]
  by_cases hh : y = s.listaLivres
  · rw [if_pos hh, Estado.lerProx_of_ne hy, desprendido_eq, avancado, if_pos hh]
    simp only [bind, Except.bind]
    rw [Estado.lerProx_of_ne hi, Estado.escreveProx_of_ne _ hy]
    rfl
  · rw [if_neg hh, desprendido_eq, avancado, if_neg hh]
    simp only [bind, Except.bind]
    rw [Estado.lerProx_of_ne hi, Estado.escreveProx_of_ne _ hy]
    rfl

theorem ocupa_cases {ant p y : ℕ} (hi : x.inicioNext ≠ 0) (hy : y ≠ 0)
    (hok : ocupa m x ant y t = .ok (p, x')) :
    ∃ s₁, (if x.est.tam y = sizeofHeader + t then encaixe x.est ant y
        else divide m x.est ant y t) = .ok s₁ ∧
      p = y + 16 ∧ x' = ⟨desprendido s₁ y, seguinte (avancado s₁ y) x.inicioNext⟩ := by
  rw [ocupa, Estado.lerTam_of_ne hy, bind_eq_ok] at hok
  obtain ⟨_, htam, hok⟩ := hok
  rw [Except.ok.injEq] at htam
  subst htam
  by_cases ht : x.est.tam y = sizeofHeader + t
  · rw [if_pos ht, bind_eq_ok] at hok
    obtain ⟨s₁, hs₁, hend⟩ := hok
    simp only [termina_eq hi hy, Except.ok.injEq, Prod.mk.injEq] at hend
    exact ⟨s₁, by rw [if_pos ht, hs₁], hend.1.symm, hend.2.symm⟩
  · rw [if_neg ht, bind_eq_ok] at hok
    obtain ⟨s₁, hs₁, hend⟩ := hok
    simp only [termina_eq hi hy, Except.ok.injEq, Prod.mk.injEq] at hend
    exact ⟨s₁, by rw [if_neg ht, hs₁], hend.1.symm, hend.2.symm⟩

theorem seguinte_mem {s : Estado} {i : ℕ} (h : Representa ts s)
    (hi : i ∈ livres s.endBaseMemoria ts) : seguinte s i ∈ livres s.endBaseMemoria ts := by
  obtain ⟨pre, post, hl⟩ := List.append_of_mem hi
  have hseg := h.lista
  rw [hl] at hseg
  obtain ⟨r, hpre, rfl, hpost⟩ := seg_append.mp hseg
  rw [seguinte, hl]
  by_cases hz : s.prox r = 0
  · rw [if_pos hz]
    cases pre with
    | nil => rw [seg_nil.mp hpre]; simp
    | cons c pre => rw [hpre.1]; simp
  · rw [if_neg hz]
    cases post with
    | nil => exact absurd hpost hz
    | cons c post => rw [hpost.1]; simp

theorem seguinte_avancado {s : Estado} {i y : ℕ} (hne : i ≠ y) :
    seguinte (avancado s y) i = seguinte (desprendido s y) i := by
  rw [desprendido_eq, seguinte, seguinte, Estado.prox_setProx, if_neg hne,
    Estado.listaLivres_setProx]

/-- After a perfect fit at the head of the list the roving pointer is `NULL`, and so is the list. -/
theorem seguinte_encaixado {s : Estado} (h : Representa (u ++ ⟨n, .livre⟩ :: v) s)
    (hl : livres s.endBaseMemoria u = []) :
    seguinte (avancado (encaixado s (antes s.endBaseMemoria u) (fim s.endBaseMemoria u))
        (fim s.endBaseMemoria u)) (fim s.endBaseMemoria u) = 0 ∧
      (desprendido (encaixado s (antes s.endBaseMemoria u) (fim s.endBaseMemoria u))
        (fim s.endBaseMemoria u)).listaLivres = 0 := by
  have hhead := h.listaLivres_eq_iff.mpr hl
  constructor
  · simp [seguinte, avancado, encaixado, hhead]
  · simp [encaixado, hhead]

theorem seguinte_dividido {s : Estado} (h : Representa (u ++ ⟨n, .livre⟩ :: v) s)
    (hle : 16 + t ≤ n) :
    seguinte (avancado (dividido s (antes s.endBaseMemoria u) (fim s.endBaseMemoria u) t)
        (fim s.endBaseMemoria u)) (fim s.endBaseMemoria u)
      ∈ livres s.endBaseMemoria (u ++ ⟨t, .vivo t⟩ :: ⟨n - 16 - t, .livre⟩ :: v) := by
  obtain ⟨hu, hv⟩ := h.lista_cut
  have hhead := h.listaLivres_eq_iff
  set a := s.endBaseMemoria with ha
  set e := fim a u with he
  have hfim : e + (t + 16) * 16 + (n - 16 - t + 16) * 16 = e + (n + 16) * 16 := by omega
  rw [livres_append, livres_cons_of_ne _ (by simp), livres_cons_livre, ← he, hfim]
  by_cases hl : livres a u = []
  · have hmid : seguinte (avancado (dividido s (antes a u) e t) e) e = e + (t + 16) * 16 := by
      simp [seguinte, avancado, dividido, hhead.mpr hl, antes_of_nil hl, ← he]
    rw [hmid]
    simp
  · have hant := antes_lt hl
    have hmid : seguinte (avancado (dividido s (antes a u) e t) e) e = seguinte s e := by
      have hadv : avancado (dividido s (antes a u) e t) e = dividido s (antes a u) e t :=
        if_neg (mt hhead.mp hl)
      rw [hadv, seguinte, seguinte]
      simp [dividido, (he ▸ hant).ne']
    rw [hmid, seguinte]
    -- at the end of the list the roving pointer goes back to the head
    by_cases hz : s.prox e = 0
    · rw [if_pos hz]
      obtain ⟨c, l, hcl⟩ := List.exists_cons_of_ne_nil hl
      rw [hcl] at hu ⊢
      rw [hu.1]
      simp
    · rw [if_neg hz]
      cases hlv : livres (e + (n + 16) * 16) v with
      | nil =>
        rw [hlv] at hv
        exact absurd hv hz
      | cons c l =>
        rw [hlv] at hv
        rw [hv.1]
        simp

end Ocupa

/-! ## Allocating -/

section Aloca

variable {x x' : Globais} {ts : List Tile} {t m : ℕ} {o : Option ℕ}

/-- The request does not fit perfectly the block at the roving pointer, or that block is the head of
the free list. -/
def Cabeca (x : Globais) (t : ℕ) : Prop :=
  ¬(x.inicioNext ≠ x.est.listaLivres ∧ x.est.tam x.inicioNext = t + sizeofHeader)

/-- What the search found and the state it led to, before any condition on the request. -/
theorem exists_ocupa (h : Representa ts x.est) (hi : x.inicioNext ∈ livres x.est.endBaseMemoria ts)
    (hok : meuAloca m x t = .ok (o, x')) :
    ∃ u n v ant p, ts = u ++ ⟨n, .livre⟩ :: v ∧ 16 + t ≤ n ∧ o = some p ∧
      ocupa m x ant (fim x.est.endBaseMemoria u) t = .ok (p, x') ∧
      ((fim x.est.endBaseMemoria u = x.inicioNext ∧ ant = x.inicioNext) ∨
        (x.inicioNext ∈ livres x.est.endBaseMemoria u ∧ ant = antes x.est.endBaseMemoria u ∧
          x.est.tam x.inicioNext < 16 + t)) := by
  rw [meuAloca, bind_eq_ok] at hok
  obtain ⟨⟨ant, y⟩, hfit, hok⟩ := hok
  obtain ⟨u, n, v, rfl, rfl, hle, hcase⟩ := nextFit_cases h hi hfit
  simp only [if_neg (h.fim_pos u).ne', bind_eq_ok] at hok
  obtain ⟨⟨p, x''⟩, hocupa, hret⟩ := hok
  simp only [pure, Except.pure, Except.ok.injEq, Prod.mk.injEq] at hret
  obtain ⟨rfl, rfl⟩ := hret
  exact ⟨u, n, v, ant, p, rfl, hle, rfl, hocupa, hcase⟩

/-- Inside the condition, a perfect fit where the search started is at the head. -/
theorem livres_eq_nil_of_cabeca {u v : List Tile} {n : ℕ}
    (h : Representa (u ++ ⟨n, .livre⟩ :: v) x.est) (hC : Cabeca x t) (hn : n = 16 + t)
    (hf : fim x.est.endBaseMemoria u = x.inicioNext) : livres x.est.endBaseMemoria u = [] := by
  rw [← h.listaLivres_eq_iff, hf]
  by_contra hne
  refine hC ⟨hne, ?_⟩
  rw [← hf, h.tam_fim, hn, sizeofHeader_eq, Nat.add_comm]

/-- Inside the condition, the list is edited through the true predecessor of the block taken. -/
theorem estado_of_cabeca {u v : List Tile} {n ant : ℕ} {s₁ : Estado}
    (h : Representa (u ++ ⟨n, .livre⟩ :: v) x.est) (hC : Cabeca x t)
    (hcase : (fim x.est.endBaseMemoria u = x.inicioNext ∧ ant = x.inicioNext) ∨
      ant = antes x.est.endBaseMemoria u)
    (hs₁ : (if x.est.tam (fim x.est.endBaseMemoria u) = sizeofHeader + t
      then encaixe x.est ant (fim x.est.endBaseMemoria u)
      else divide m x.est ant (fim x.est.endBaseMemoria u) t) = .ok s₁) :
    s₁ = if x.est.tam (fim x.est.endBaseMemoria u) = 16 + t
      then encaixado x.est (antes x.est.endBaseMemoria u) (fim x.est.endBaseMemoria u)
      else dividido x.est (antes x.est.endBaseMemoria u) (fim x.est.endBaseMemoria u) t := by
  have htam := h.tam_fim
  by_cases hn : x.est.tam (fim x.est.endBaseMemoria u) = sizeofHeader + t
  · rw [if_pos hn] at hs₁
    have ha : ant = antes x.est.endBaseMemoria u := by
      rcases hcase with ⟨hf, ha⟩ | ha
      · rw [ha, antes_of_nil (livres_eq_nil_of_cabeca h hC (htam.symm.trans hn) hf), hf]
      · exact ha
    rw [ha, encaixe_eq (h.antes_pos u) (h.fim_pos u).ne', Except.ok.injEq] at hs₁
    rw [← hs₁]
    exact (if_pos hn).symm
  · rw [if_neg hn] at hs₁
    have hant : ant = fim x.est.endBaseMemoria u ∨ ant = antes x.est.endBaseMemoria u := by
      rcases hcase with ⟨hf, ha⟩ | ha
      · exact Or.inl (ha.trans hf.symm)
      · exact Or.inr ha
    rw [divide_cases h hant hs₁]
    exact (if_neg hn).symm

theorem livres_subset_ocupaTile {u v : List Tile} {a n i : ℕ} (hi : i ∈ livres a u) :
    i ∈ livres a (ocupaTile u n v t) := by
  rcases ocupaTile_cases u n v t with ⟨-, heq⟩ | ⟨-, -, heq⟩ | ⟨-, -, heq⟩
  all_goals
    rw [heq, livres_append]
    exact List.mem_append_left _ hi

/-- **An allocation inside the condition** serves the request like `gmsimples.c` would from the same
block, and leaves the roving pointer on the list, or `NULL` like the list. -/
theorem meuAloca_cases (h : Representa ts x.est)
    (hi : x.inicioNext ∈ livres x.est.endBaseMemoria ts) (hC : Cabeca x t)
    (hok : meuAloca m x t = .ok (o, x')) :
    ∃ u n v p, o = some p ∧ Servido ts t x.est (some p) x'.est u n v ∧
      (x'.inicioNext ∈ livres x.est.endBaseMemoria (ocupaTile u n v t) ∨
        x'.inicioNext = 0 ∧ x'.est.listaLivres = 0) := by
  obtain ⟨u, n, v, ant, p, rfl, hle, rfl, hocupa, hcase⟩ := exists_ocupa h hi hok
  have hi0 : x.inicioNext ≠ 0 := h.chain.ne_null _ hi
  have htam := h.tam_fim
  obtain ⟨s₁, hs₁, rfl, rfl⟩ := ocupa_cases hi0 (h.fim_pos u).ne' hocupa
  have hst := estado_of_cabeca h hC (hcase.imp_right fun hc ↦ hc.2.1) hs₁
  obtain ⟨s', hocupa', hrep, hbase, hnovo, hesc⟩ := h.ocupa (t := t) hle
  rw [ocupa_eq (h.antes_pos u) (h.fim_pos u).ne', ← hst, Except.ok.injEq, Prod.mk.injEq] at hocupa'
  obtain ⟨-, rfl⟩ := hocupa'
  refine ⟨u, n, v, _, rfl, ⟨rfl, hle, rfl, hrep, hbase, hnovo, hesc⟩, ?_⟩
  rcases hcase with ⟨hf, -⟩ | ⟨hmem, -, -⟩
  · simp only [← hf]
    by_cases hn : n = 16 + t
    · right
      rw [hst, if_pos (htam.trans hn)]
      exact seguinte_encaixado h (livres_eq_nil_of_cabeca h hC hn hf)
    · left
      rw [hst, if_neg (by rw [htam]; exact hn), ocupaTile, sizeofHeader_eq, if_neg hn]
      exact seguinte_dividido h hle
  · left
    simp only
    rw [seguinte_avancado (bounds_of_mem_livres hmem).2.ne]
    have hnext := seguinte_mem hrep (hbase.symm ▸ livres_subset_ocupaTile hmem)
    rwa [hbase] at hnext

/-- **An allocation outside the condition** leaves the block it returns on the free list. -/
theorem exists_lista_of_meuAloca (h : Representa ts x.est)
    (hi : x.inicioNext ∈ livres x.est.endBaseMemoria ts) (hC : ¬Cabeca x t)
    (hok : meuAloca m x t = .ok (o, x')) :
    o = some (x.inicioNext + sizeofHeader) ∧ ∃ l, ListaLivres x'.est l ∧ x.inicioNext ∈ l := by
  obtain ⟨hne, hfit⟩ := not_not.mp hC
  obtain ⟨u, n, v, ant, p, rfl, hle, rfl, hocupa, hcase⟩ := exists_ocupa h hi hok
  rw [sizeofHeader_eq] at hfit
  rcases hcase with ⟨hf, rfl⟩ | ⟨-, -, hlt⟩
  · have hi0 : x.inicioNext ≠ 0 := h.chain.ne_null _ hi
    -- `anterior` and `atual` coincide, so unlinking writes the block's own `prox`
    rw [hf] at hocupa
    obtain ⟨s₁, hs₁, rfl, rfl⟩ := ocupa_cases hi0 hi0 hocupa
    rw [if_pos (by rw [hfit, sizeofHeader_eq, Nat.add_comm]), encaixe_eq hi0 hi0,
      Except.ok.injEq] at hs₁
    subst hs₁
    refine ⟨rfl, livres x.est.endBaseMemoria u ++ [x.inicioNext], ⟨?_, ?_⟩, by simp⟩
    · have hprox : ∀ q, (desprendido (encaixado x.est x.inicioNext x.inicioNext)
          x.inicioNext).prox q = if q = x.inicioNext then 0 else x.est.prox q := by
        intro q
        by_cases hq : q = x.inicioNext <;> simp [encaixado, hq]
      have hlista : (desprendido (encaixado x.est x.inicioNext x.inicioNext)
          x.inicioNext).listaLivres = x.est.listaLivres := by
        simp [encaixado, hne]
      rw [hlista]
      refine seg_append.mpr ⟨x.inicioNext, ?_, rfl, ?_⟩
      · rw [← hf]
        refine h.lista_cut.1.congr fun b hb ↦ ?_
        rw [hf, hprox, if_neg (by rw [← hf]; exact (bounds_of_mem_livres hb).2.ne)]
      · rw [hprox, if_pos rfl]
        rfl
    · intro a ha
      rcases List.mem_append.mp ha with ha | ha
      · have := (bounds_of_mem_livres ha).1
        have := h.base_pos
        omega
      · rw [List.mem_singleton.mp ha]
        exact hi0
  · omega

end Aloca

/-! ## Freeing -/

/-- Putting a block back to the free ones keeps the roving pointer on the list. -/
theorem mem_livres_reuse {u v : List Tile} {a i n t : ℕ}
    (hi : i ∈ livres a (u ++ ⟨n, .vivo t⟩ :: v)) : i ∈ livres a (u ++ ⟨n, .livre⟩ :: v) := by
  rw [livres_append, livres_cons_of_ne _ (by simp), List.mem_append] at hi
  simp only [livres_append, livres_cons_livre, List.mem_append, List.mem_cons]
  tauto

/-- `merge` of two free neighbours, with the roving pointer kept on the list. -/
theorem merge_adjacent {u v : List Tile} {k n : ℕ} {x : Globais}
    (h : Representa (u ++ ⟨k, .livre⟩ :: ⟨n, .livre⟩ :: v) x.est)
    (hi : x.inicioNext ∈ livres x.est.endBaseMemoria (u ++ ⟨k, .livre⟩ :: ⟨n, .livre⟩ :: v)) :
    ∃ x', merge x (fim x.est.endBaseMemoria u)
        (fim x.est.endBaseMemoria u + (k + 16) * 16) = .ok (true, x') ∧
      (Representa (u ++ ⟨k + 16 + n, .livre⟩ :: v) x'.est ∧
        x'.inicioNext ∈ livres x'.est.endBaseMemoria (u ++ ⟨k + 16 + n, .livre⟩ :: v)) ∧
      x'.est.endBaseMemoria = x.est.endBaseMemoria ∧
      ∀ c ∈ x'.est.escritas, c ∈ x.est.escritas ∨ c = fim x.est.endBaseMemoria u := by
  have hpos : fim x.est.endBaseMemoria u ≠ 0 := (h.fim_pos u).ne'
  have hq : fim x.est.endBaseMemoria u + (k + 16) * 16 ≠ 0 := by omega
  have hshift : fim x.est.endBaseMemoria u + (k + 16) * 16 + (n + 16) * 16
      = fim x.est.endBaseMemoria u + (k + 16 + n + 16) * 16 := by ring
  rw [livres_append, livres_cons_livre, livres_cons_livre, hshift, List.mem_append,
    List.mem_cons, List.mem_cons] at hi
  have hrep := h.fundido
  set s' := fundido x.est (fim x.est.endBaseMemoria u)
    (fim x.est.endBaseMemoria u + (k + 16) * 16) with hs'
  rw [merge, merge_of_adjacent hpos h.tam_fim, ← hs']
  -- a roving pointer at the block that disappears moves to the merged one
  by_cases hin : x.inicioNext = fim x.est.endBaseMemoria u + (k + 16) * 16
  · have hprox : s'.prox (fim x.est.endBaseMemoria u)
        = s'.prox (fim x.est.endBaseMemoria u + (k + 16) * 16) := by
      simp [hs', fundido]
    refine ⟨⟨s'.setProx (fim x.est.endBaseMemoria u)
      (s'.prox (fim x.est.endBaseMemoria u + (k + 16) * 16)), fim x.est.endBaseMemoria u⟩,
      ?_, ⟨?_, ?_⟩, ?_, ?_⟩
    · simp [bind, Except.bind, pure, Except.pure, hin, Estado.lerProx_of_ne hq,
        Estado.escreveProx_of_ne _ hpos]
    · exact hrep.congr rfl rfl fun b _ ↦ by rw [Estado.header_setProx_of_eq hprox]
    · change _ ∈ livres x.est.endBaseMemoria _
      rw [livres_append, livres_cons_livre]
      simp
    · rfl
    · intro c hc
      simp only [hs', fundido, Estado.escritas_setTam, Estado.escritas_setProx,
        List.mem_cons] at hc
      tauto
  · refine ⟨⟨s', x.inicioNext⟩, ?_, ⟨hrep, ?_⟩, rfl, ?_⟩
    · simp [bind, Except.bind, pure, Except.pure, hin]
    · change _ ∈ livres x.est.endBaseMemoria _
      rw [livres_append, livres_cons_livre, List.mem_append, List.mem_cons]
      tauto
    · intro c hc
      simp only [hs', fundido, Estado.escritas_setTam, Estado.escritas_setProx,
        List.mem_cons] at hc
      tauto

theorem merge_apart {x : Globais} {p k m : ℕ} (hp : p ≠ 0) (hk : x.est.tam p = k)
    (hm : m ≠ k + 16) : merge x p (p + m * 16) = .ok (false, x) := by
  rw [merge, merge_of_apart hp hk hm]
  simp [bind, Except.bind, pure, Except.pure]

/-- `gm.c` keeps the roving pointer on the free list. -/
def mescla : Mescla Globais where
  est := Globais.est
  com x s := { x with est := s }
  merge := merge
  Rep ts x := Representa ts x.est ∧ x.inicioNext ∈ livres x.est.endBaseMemoria ts
  representa h := h.1
  est_com _ _ := rfl
  rep_com h hrep hbase := ⟨hrep, hbase ▸ mem_livres_reuse h.2⟩
  merge_adjacent h := merge_adjacent h.1 h.2
  merge_apart hp hk hm := merge_apart hp hk hm

theorem meuLibera_ne_ok {x x' : Globais} {k p : ℕ} (hl : x.est.listaLivres = 0)
    (hp : sizeofHeader < p) : meuLibera k x p ≠ .ok x' := by
  rw [sizeofHeader_eq] at hp
  rw [meuLibera, liberaCom]
  simp only [hl]
  rw [if_neg (Nat.not_lt_zero _)]
  cases k with
  | zero => simp [avanca, bind, Except.bind]
  | succ k => simp [avanca, hp, Estado.lerProx, bind, Except.bind]

theorem meuAloca_ne_ok {x : Globais} {m t : ℕ} {r : Option ℕ × Globais} (hi : x.inicioNext = 0) :
    meuAloca m x t ≠ .ok r := by
  cases m with
  | zero => simp [meuAloca, nextFit, bind, Except.bind]
  | succ m => simp [meuAloca, nextFit, hi, Estado.lerTam, bind, Except.bind]

/-! ## Runs -/

/-- No live block is on the free list, and the roving pointer is on it, or both are `NULL`. -/
def Valido (S : Sistema) : Prop :=
  ∃ l, ListaLivres S.glob.est l ∧ (∀ y ∈ S.vivos, ∀ a ∈ l, y.1 ≠ a + sizeofHeader) ∧
    (S.glob.inicioNext ∈ l ∨ S.glob.inicioNext = 0 ∧ S.glob.est.listaLivres = 0)

def Seguro (S : Sistema) : Op → Prop
  | .aloca t => Cabeca S.glob t
  | .libera _ => True

/-- What the runs inside the condition maintain. -/
structure Invariante (ts : List Tile) (S : Sistema) : Prop where
  arena : Gm.Invariante ts ⟨S.glob.est, S.vivos⟩
  inicioNext : S.glob.inicioNext ∈ livres S.glob.est.endBaseMemoria ts ∨
    S.glob.inicioNext = 0 ∧ S.glob.est.listaLivres = 0

theorem invariante_inicial (lixo : ℕ → Header) {endBase : ℕ} (h : 0 < endBase) :
    Invariante [⟨10224, .livre⟩] (inicial lixo endBase) :=
  ⟨Gm.invariante_inicial lixo h, Or.inl (by simp [inicial, inicializaMem, Gm.inicializaMem])⟩

theorem Invariante.valido {ts : List Tile} {S : Sistema} (h : Invariante ts S) : Valido S :=
  ⟨_, h.arena.represents.chain, fun _ hy _ ha ↦ h.arena.ne_of_mem_livres hy ha, h.inicioNext⟩

/-- **One call inside the condition.** -/
theorem Invariante.passo {ts : List Tile} {S S' : Sistema} {op : Op} (h : Invariante ts S)
    (hC : Seguro S op) (hp : Passo S op S') : ∃ ts', Invariante ts' S' := by
  obtain ⟨hA, hnext⟩ := h
  have hrep := hA.represents
  cases hp with
  | @aloca t m p x hok =>
    rcases hnext with hi | ⟨hi, -⟩
    · obtain ⟨u, n, v, q, hq, hS, hi'⟩ := meuAloca_cases hrep hi hC hok
      obtain rfl := Option.some.inj hq
      refine ⟨ocupaTile u n v t, hA.servido hS, ?_⟩
      rw [← hS.base_eq] at hi'
      exact hi'
    · exact absurd hok (meuAloca_ne_ok hi)
  | @recusa t m x hok =>
    rcases hnext with hi | ⟨hi, -⟩
    · obtain ⟨u, n, v, q, hq, -⟩ := meuAloca_cases hrep hi hC hok
      exact absurd hq (by simp)
    · exact absurd hok (meuAloca_ne_ok hi)
  | @libera p t m x hmem hok =>
    obtain ⟨u, n, v, rfl, rfl⟩ := exists_cut_of_mem_alocados (hA.vivos.mem_iff.mp hmem)
    rcases hnext with hi | ⟨-, hl⟩
    · obtain ⟨ts', ⟨hrep', hi'⟩, hf, hsep, hbase, -⟩ :=
        Mescla.fundido_of_libera (M := mescla) ⟨hrep, hi⟩ hA.separado hok
      exact ⟨ts', hA.liberado hrep' hf hsep hbase, Or.inl hi'⟩
    · exact absurd hok (meuLibera_ne_ok hl (Nat.lt_add_of_pos_left (hrep.fim_pos u)))

theorem Invariante.not_valido {ts : List Tile} {S S' : Sistema} {op : Op} (h : Invariante ts S)
    (hC : ¬Seguro S op) (hp : Passo S op S') : ¬Valido S' := by
  obtain ⟨hA, hnext⟩ := h
  have hi : ∀ t, ¬Cabeca S.glob t → S.glob.inicioNext ∈ livres S.glob.est.endBaseMemoria ts := by
    intro t hc
    refine hnext.resolve_right fun hz ↦ ?_
    exact (not_not.mp hc).1 (hz.1.trans hz.2.symm)
  rintro ⟨l, hl, hlive, -⟩
  cases hp with
  | @aloca t m p x hok =>
    obtain ⟨ho, l', hl', hmem⟩ := exists_lista_of_meuAloca hA.represents (hi t hC) hC hok
    obtain rfl := hl.unique hl'
    exact hlive (p, t) List.mem_cons_self _ hmem (Option.some.inj ho)
  | @recusa t m x hok =>
    obtain ⟨ho, -⟩ := exists_lista_of_meuAloca hA.represents (hi t hC) hC hok
    exact absurd ho (by simp)
  | libera => exact hC trivial

/-- **The roving pointer and the free list agree, exactly when no request fits perfectly the block
at the roving pointer while that block is not the head of the list.** -/
theorem valido_everywhere_iff {lixo : ℕ → Header} {endBase : ℕ} {S : Sistema}
    {hist : List (Sistema × Op)} (hbase : 0 < endBase)
    (tr : Trace Passo (inicial lixo endBase) hist S) :
    Trace.Everywhere Valido hist S ↔ Trace.Guarded Seguro hist := by
  refine Trace.everywhere_iff (I := fun S ↦ ∃ ts, Invariante ts S)
    ⟨_, invariante_inicial lixo hbase⟩ ?_ ?_ ?_ tr
  · rintro S ⟨ts, hI⟩
    exact hI.valido
  · rintro S op S' ⟨ts, hI⟩ hC hp
    exact hI.passo hC hp
  · rintro S op S' ⟨ts, hI⟩ hC hp
    exact hI.not_valido hC hp

/-! ## Executing `gm.c` -/

/-- A call with fuel `n`; `none` when it does not return or frees a pointer that is not live. -/
def executa (n : ℕ) (S : Sistema) : Op → Option Sistema
  | .aloca t =>
    match meuAloca n S.glob t with
    | .ok (some p, x) => some ⟨x, (p, t) :: S.vivos⟩
    | .ok (none, x) => some ⟨x, S.vivos⟩
    | .error _ => none
  | .libera p =>
    match S.vivos.find? fun y ↦ y.1 = p, meuLibera n S.glob p with
    | some y, .ok x => some ⟨x, S.vivos.erase y⟩
    | _, _ => none

theorem passo_of_executa {n : ℕ} (S : Sistema) (op : Op) (S' : Sistema)
    (h : executa n S op = some S') : Passo S op S' := by
  cases op with
  | aloca t =>
    rw [executa] at h
    split at h
    · rename_i p s hok
      exact Option.some.inj h ▸ Passo.aloca hok
    · rename_i s hok
      exact Option.some.inj h ▸ Passo.recusa hok
    · exact absurd h (by simp)
  | libera p =>
    rw [executa] at h
    split at h
    · rename_i y s hy hok
      obtain ⟨q, t⟩ := y
      have hq : q = p := by simpa using List.find?_some hy
      subst hq
      exact Option.some.inj h ▸ Passo.libera (List.mem_of_find?_eq_some hy) hok
    · exact absurd h (by simp)

def roda (l : List Op) : Option Sistema :=
  execute (executa 8) (inicial (fun _ ↦ ⟨0, 0⟩) 16) l

/-- The condition at a run that allocates twice and frees the first block. -/
theorem valido_everywhere_iff_release : ∃ hist S,
    Trace Passo (inicial (fun _ ↦ ⟨0, 0⟩) 16) hist S ∧
    hist.map Prod.snd = [.aloca 10, .aloca 5, .libera 32] ∧
    (Trace.Everywhere Valido hist S ↔ Trace.Guarded Seguro hist) := by
  obtain ⟨S, hS⟩ := Option.isSome_iff_exists.mp
    (by decide : (roda [.aloca 10, .aloca 5, .libera 32]).isSome)
  obtain ⟨hist, tr, hops⟩ := exists_trace_of_execute passo_of_executa hS
  exact ⟨hist, S, tr, hops, valido_everywhere_iff (by decide) tr⟩

/-- After that run the roving pointer is at 768, behind the free block at 16. A request for 10161
bytes fits the block at 768 perfectly; it is returned and stays on the free list. -/
theorem valido_fails : ∃ S, roda [.aloca 10, .aloca 5, .libera 32, .aloca 10161] = some S ∧
    Reachable Passo (inicial (fun _ ↦ ⟨0, 0⟩) 16) S ∧ (784, 10161) ∈ S.vivos ∧
    ListaLivres S.glob.est [16, 768] ∧ ¬Valido S := by
  have hrun : (roda [.aloca 10, .aloca 5, .libera 32, .aloca 10161]).map (fun S ↦
      (S.glob.est.listaLivres, S.glob.est.prox 16, S.glob.est.prox 768, S.vivos))
      = some (16, 768, 0, [(784, 10161), (448, 5)]) := by decide
  obtain ⟨S, hS, hobs⟩ := Option.map_eq_some_iff.mp hrun
  simp only [Prod.mk.injEq] at hobs
  obtain ⟨hist, tr, -⟩ := exists_trace_of_execute passo_of_executa hS
  have hlista : ListaLivres S.glob.est [16, 768] :=
    ⟨⟨hobs.1, hobs.2.1, hobs.2.2.1⟩, by simp⟩
  have hmem : (784, 10161) ∈ S.vivos := by simp [hobs.2.2.2]
  refine ⟨S, hS, ⟨hist, tr⟩, hmem, hlista, ?_⟩
  rintro ⟨l, hl, hlive, -⟩
  obtain rfl := hlista.unique hl
  exact hlive _ hmem 768 (by simp) rfl

end Next

end SistemasOperacionais.Gm
