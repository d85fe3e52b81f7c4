import SistemasOperacionais.GerenciaMemoria.NextFit
import SistemasOperacionais.GerenciaMemoria.Politicas

/-!
# Requests that cannot be served where the search starts

`meu_aloca` of `gm.c` is compiled with one of four searches left uncommented, and with or without
`ehNext`. A caller expects `NULL` when no hole is large enough, and expects next fit to find a hole
whenever there is one.

Neither is so. `firstFit` and `nextFit` test the address of their variable, not its value, so at the
end of the list they read through `NULL`; and where a search does say that it found nothing,
`meu_aloca` reaches its end without a `return`. For the same reason next fit never starts again at
the head of the list: it serves the requests for which there is a hole at or behind the roving
pointer, and no others.
-/

namespace SistemasOperacionais.Gm

open Foundations

namespace Next

/-! ## The four policies -/

/-- The call that is left uncommented in `meu_aloca`. -/
inductive Politica
  | firstFit
  | bestFit
  | worstFit
  | nextFit

/-- `firstFit` has the text of `nextFit`. -/
def firstFit (s : Estado) (tam : ℕ) : ℕ → ℕ → ℕ → Except Falha (ℕ × ℕ) := nextFit s tam

def busca (pol : Politica) (n : ℕ) (s : Estado) (inicio tam : ℕ) : Except Falha (ℕ × ℕ) :=
  match pol with
  | .firstFit => firstFit s tam n inicio inicio
  | .bestFit => Gm.bestFit n s inicio inicio tam
  | .worstFit => Gm.worstFit n s inicio inicio tam
  | .nextFit => nextFit s tam n inicio inicio

/-- `meu_aloca` with the search `pol`, and with the lines under `ehNext` or without them. -/
def alocaCom (ehNext : Bool) (pol : Politica) (n : ℕ) (x : Globais) (tam : ℕ) :
    Except Falha (Option ℕ × Globais) := do
  let inicio := if ehNext then x.inicioNext else x.est.listaLivres
  let (anterior, atual) ← busca pol n x.est inicio tam
  if atual = 0 then
    if ehNext then
      let _ ← nextFit x.est tam n x.est.listaLivres x.est.listaLivres
      return (none, x)
    else return (none, x)
  else if ehNext then
    let (p, x) ← ocupa n x anterior atual tam
    return (some p, x)
  else
    let (p, s) ← Gm.ocupa x.est anterior atual tam
    return (some p, { x with est := s })

theorem alocaCom_nextFit (n : ℕ) (x : Globais) (tam : ℕ) :
    alocaCom true .nextFit n x tam = meuAloca n x tam := rfl

section Recusa

variable {ehNext : Bool} {pol : Politica} {s : Estado} {x x' : Globais} {t n ant p : ℕ}

theorem nextFit_null (s : Estado) (t n ant : ℕ) : nextFit s t (n + 1) ant 0 = .error .nulo := rfl

theorem nextFit_of_ne (hp : p ≠ 0) : nextFit s t (n + 1) ant p =
    if s.tam p < t + sizeofHeader then nextFit s t n p (s.prox p) else .ok (ant, p) := by
  rw [nextFit, Estado.lerTam_of_ne hp, Estado.lerProx_of_ne hp]
  rfl

theorem nextFit_eq_nulo (ant : ℕ) {l : List ℕ} (hc : Chain 0 s.prox p l)
    (hl : ∀ b ∈ l, s.tam b < 16 + t) (hn : l.length < n) : nextFit s t n ant p = .error .nulo := by
  induction n generalizing ant p l with
  | zero => exact absurd hn (Nat.not_lt_zero _)
  | succ n ih =>
    cases l with
    | nil =>
      obtain rfl := hc.eq_nil_iff.mp rfl
      exact nextFit_null s t n ant
    | cons b l =>
      obtain ⟨rfl, hp, hc⟩ := Chain.cons_iff.mp hc
      have hlt : s.tam p < t + sizeofHeader := by
        have := hl p List.mem_cons_self
        simp only [sizeofHeader_eq]
        omega
      rw [nextFit_of_ne hp, if_pos hlt]
      exact ih p hc (fun b hb ↦ hl b (List.mem_cons_of_mem _ hb)) (Nat.lt_of_succ_lt_succ hn)

theorem candidatos_eq_nil {l : List ℕ} (hl : ∀ b ∈ l, s.tam b < 16 + t) :
    candidatos s t l = [] := by
  rw [candidatos, List.filter_eq_nil_iff]
  intro b hb
  have := hl b hb
  simpa using (by omega : s.tam b < t + 16)

/-- Which searches can say that they found nothing. -/
def Politica.avisa : Politica → Bool
  | .firstFit => false
  | .bestFit => true
  | .worstFit => true
  | .nextFit => false

theorem busca_eq (pol : Politica) {l : List ℕ} (hc : Chain 0 s.prox p l)
    (hl : ∀ b ∈ l, s.tam b < 16 + t) (hn : l.length < n) :
    busca pol n s p t = if pol.avisa then .ok (0, 0) else .error .nulo := by
  have hnone := candidatos_eq_nil hl
  cases pol with
  | firstFit => exact nextFit_eq_nulo p hc hl hn
  | nextFit => exact nextFit_eq_nulo p hc hl hn
  | bestFit =>
    rw [busca, bestFit_eq hc hn, hnone]
    rfl
  | worstFit =>
    rw [busca, worstFit_eq hc hn, hnone]
    rfl

/-- **A request for which there is no hole**, neither on the list nor behind the roving pointer: the
call reads through `NULL`, except that best fit and worst fit without `ehNext` reach the end of
`meu_aloca`, with nothing changed and nothing returned. -/
theorem alocaCom_of_cheia {l l' : List ℕ} (hlista : ListaLivres x.est l)
    (hnext : Chain 0 x.est.prox x.inicioNext l') (hl : ∀ b ∈ l, x.est.tam b < 16 + t)
    (hl' : ∀ b ∈ l', x.est.tam b < 16 + t) (hn : l.length < n) (hn' : l'.length < n) :
    alocaCom ehNext pol n x t =
      if ehNext = false ∧ pol.avisa = true then .ok (none, x) else .error .nulo := by
  cases ehNext with
  | false =>
    have hbusca := busca_eq pol hlista hl hn
    cases hp : pol.avisa with
    | false =>
      rw [hp] at hbusca
      simp [alocaCom, hbusca, bind, Except.bind]
    | true =>
      rw [hp] at hbusca
      simp [alocaCom, hbusca, bind, Except.bind, pure, Except.pure]
  | true =>
    have hbusca := busca_eq pol hnext hl' hn'
    cases hp : pol.avisa with
    | false =>
      rw [hp] at hbusca
      simp [alocaCom, hbusca, bind, Except.bind]
    | true =>
      rw [hp] at hbusca
      have hsegunda := nextFit_eq_nulo x.est.listaLivres hlista hl hn
      simp [alocaCom, hbusca, hsegunda, bind, Except.bind]

/-- A refused request as a caller expects it: the call comes back with `NULL`, and neither the list
nor a header has changed. -/
def FalhaLimpa (ehNext : Bool) (pol : Politica) (x : Globais) (t : ℕ) : Prop :=
  ∃ n x', alocaCom ehNext pol n x t = .ok (some 0, x') ∧
    x'.est.listaLivres = x.est.listaLivres ∧ x'.est.header = x.est.header

theorem termina_pos (s : Estado) (i p : ℕ) : Returns (·.1 ≠ 0) (termina s i p) := by
  have hfim (s : Estado) : Returns (fun r : ℕ × Globais ↦ r.1 ≠ 0) (do
      let q ← s.lerProx i
      let s' ← s.escreveProx p 0
      pure (p + sizeofHeader, ⟨s', if q = 0 then s.listaLivres else q⟩)) :=
    .bind fun _ ↦ .bind fun _ ↦ .ok (Nat.succ_ne_zero _)
  exact .ite (.bind fun _ ↦ .bind fun s ↦ hfim s) (.bind fun s ↦ hfim s)

theorem ocupa_pos (m : ℕ) (x : Globais) (ant y t : ℕ) :
    Returns (·.1 ≠ 0) (ocupa m x ant y t) :=
  .bind fun _ ↦ .ite (.bind fun s ↦ termina_pos s x.inicioNext y)
    (.bind fun s ↦ termina_pos s x.inicioNext y)

theorem ocupa_simples_pos (s : Estado) (ant y t : ℕ) :
    Returns (·.1 ≠ 0) (Gm.ocupa s ant y t) := by
  have hfim (s : Estado) : Returns (fun r : ℕ × Estado ↦ r.1 ≠ 0) (do
      let s' ← s.escreveProx y 0
      pure (y + sizeofHeader, s')) :=
    .bind fun _ ↦ .ok (Nat.succ_ne_zero _)
  have hlista (s : Estado) : Returns (fun r : ℕ × Estado ↦ r.1 ≠ 0)
      (if y = s.listaLivres then do
          let p ← s.lerProx y
          let s ← Except.ok { s with listaLivres := p }
          let s' ← s.escreveProx y 0
          pure (y + sizeofHeader, s')
        else do
          let s ← Except.ok s
          let s' ← s.escreveProx y 0
          pure (y + sizeofHeader, s')) :=
    .ite (.bind fun _ ↦ .bind hfim) (.bind hfim)
  exact .bind fun _ ↦ .ite (.bind hlista) (.bind hlista)

theorem alocaCom_pos (ehNext : Bool) (pol : Politica) (n : ℕ) (x : Globais) (t : ℕ) :
    Returns (·.1 ≠ some 0) (alocaCom ehNext pol n x t) := by
  refine .bind fun y ↦ ?_
  have hnone : Returns (fun r : Option ℕ × Globais ↦ r.1 ≠ some 0)
      (.ok (none, x) : Except Falha _) := .ok (Option.some_ne_none 0).symm
  refine .ite (.ite (.bind fun _ ↦ hnone) hnone) (.ite ?_ ?_)
  · intro r hr
    obtain ⟨⟨q, x'⟩, hq, hr⟩ := bind_eq_ok.mp hr
    obtain rfl := Except.ok.inj hr
    exact fun h ↦ ocupa_pos n x y.1 y.2 t _ hq (Option.some.inj h)
  · intro r hr
    obtain ⟨⟨q, s'⟩, hq, hr⟩ := bind_eq_ok.mp hr
    obtain rfl := Except.ok.inj hr
    exact fun h ↦ ocupa_simples_pos x.est y.1 y.2 t _ hq (Option.some.inj h)

/-- **No policy refuses a request cleanly**, in any state. -/
theorem not_falhaLimpa (ehNext : Bool) (pol : Politica) (x : Globais) (t : ℕ) :
    ¬ FalhaLimpa ehNext pol x t := by
  rintro ⟨n, x', hok, -⟩
  exact alocaCom_pos ehNext pol n x t _ hok rfl

/-- A request for more than the arena, right after `inicializa_mem`: next fit and first fit read
through `NULL`, best fit and worst fit return nothing. -/
theorem not_falhaLimpa_inicial :
    let x := (inicial (fun _ ↦ ⟨0, 0⟩) 16).glob
    ListaLivres x.est [16] ∧ x.est.tam 16 < 10240 + 16 ∧
      (alocaCom true .nextFit 2 x 10240 = .error .nulo ∧ ¬ FalhaLimpa true .nextFit x 10240) ∧
      (alocaCom false .firstFit 2 x 10240 = .error .nulo ∧ ¬ FalhaLimpa false .firstFit x 10240) ∧
      (alocaCom false .bestFit 2 x 10240 = .ok (none, x) ∧ ¬ FalhaLimpa false .bestFit x 10240) ∧
      (alocaCom false .worstFit 2 x 10240 = .ok (none, x) ∧
        ¬ FalhaLimpa false .worstFit x 10240) := by
  intro x
  have hlista : ListaLivres x.est [16] := ⟨⟨rfl, rfl⟩, by simp⟩
  have hsmall : ∀ b ∈ [16], x.est.tam b < 16 + 10240 := by decide
  have hcheia (ehNext : Bool) (pol : Politica) : alocaCom ehNext pol 2 x 10240 =
      if ehNext = false ∧ pol.avisa = true then .ok (none, x) else .error .nulo :=
    alocaCom_of_cheia hlista hlista hsmall hsmall (by decide) (by decide)
  have hnunca (ehNext : Bool) (pol : Politica) : ¬ FalhaLimpa ehNext pol x 10240 := by
    rintro ⟨n, x', hok, -⟩
    exact alocaCom_pos ehNext pol n x 10240 _ hok rfl
  exact ⟨hlista, by decide, ⟨hcheia _ _, hnunca _ _⟩, ⟨hcheia _ _, hnunca _ _⟩,
    ⟨hcheia _ _, hnunca _ _⟩, ⟨hcheia _ _, hnunca _ _⟩⟩

end Recusa

/-! ## Next fit from the roving pointer -/

section Completa

variable {s : Estado} {x x' : Globais} {t p q ant a : ℕ}

/-- Block `q` is on the list that starts at `p`. -/
inductive NaLista (s : Estado) : ℕ → ℕ → Prop
  | aqui {p : ℕ} : p ≠ 0 → NaLista s p p
  | adiante {p q : ℕ} : p ≠ 0 → NaLista s (s.prox p) q → NaLista s p q

/-- On the list that starts at `p`, block `q` is the first that is large enough for `t`. -/
inductive Primeiro (s : Estado) (t : ℕ) : ℕ → ℕ → Prop
  | aqui {p : ℕ} : p ≠ 0 → 16 + t ≤ s.tam p → Primeiro s t p p
  | adiante {p q : ℕ} : p ≠ 0 → s.tam p < 16 + t → Primeiro s t (s.prox p) q → Primeiro s t p q

theorem Primeiro.naLista (h : Primeiro s t p q) : NaLista s p q := by
  induction h with
  | aqui hp _ => exact .aqui hp
  | adiante hp _ _ ih => exact .adiante hp ih

theorem Primeiro.cabe (h : Primeiro s t p q) : q ≠ 0 ∧ 16 + t ≤ s.tam q := by
  induction h with
  | aqui hp hle => exact ⟨hp, hle⟩
  | adiante _ _ _ ih => exact ih

theorem Primeiro.ne_null (h : Primeiro s t p q) : p ≠ 0 := by
  cases h with
  | aqui hp _ => exact hp
  | adiante hp _ _ => exact hp

theorem primeiro_of_nextFit {n : ℕ} (h : nextFit s t n ant p = .ok (a, q)) : Primeiro s t p q := by
  induction n generalizing ant p with
  | zero => cases h
  | succ n ih =>
    by_cases hp : p = 0
    · rw [hp, nextFit_null] at h
      cases h
    · rw [nextFit_of_ne hp] at h
      split_ifs at h with hlt
      · exact .adiante hp (by rw [Nat.add_comm]; exact hlt) (ih h)
      · obtain ⟨-, rfl⟩ := Prod.mk.inj (Except.ok.inj h)
        exact .aqui hp (by rw [Nat.add_comm]; exact Nat.le_of_not_lt hlt)

/-- The search finds the first block that is large enough, and then knows another block before it,
unless that is where it started. -/
theorem Primeiro.nextFit (h : Primeiro s t p q) (ant : ℕ) :
    ∃ a n₀, ((a = ant ∧ q = p) ∨ (a ≠ 0 ∧ a ≠ q)) ∧ ∀ n ≥ n₀, nextFit s t n ant p = .ok (a, q) := by
  induction h generalizing ant with
  | @aqui p hp hle =>
    refine ⟨ant, 1, .inl ⟨rfl, rfl⟩, fun n hn ↦ ?_⟩
    obtain ⟨n, rfl⟩ := Nat.exists_eq_add_of_le' hn
    rw [nextFit_of_ne hp, if_neg (by rw [sizeofHeader_eq]; omega)]
  | @adiante p q hp hlt h ih =>
    obtain ⟨a, n₀, ha, hn₀⟩ := ih p
    refine ⟨a, n₀ + 1, .inr ?_, fun n hn ↦ ?_⟩
    · rcases ha with ⟨rfl, rfl⟩ | ha
      · refine ⟨hp, fun heq ↦ ?_⟩
        have hcabe := h.cabe.2
        rw [← heq] at hcabe
        omega
      · exact ha
    · obtain ⟨n, rfl⟩ := Nat.exists_eq_add_of_le' (Nat.le_of_add_left_le hn)
      rw [nextFit_of_ne hp, if_pos (by rw [sizeofHeader_eq]; omega)]
      exact hn₀ n (Nat.le_of_succ_le_succ hn)

theorem NaLista.achaAnterior (h : NaLista s p q) (hne : p ≠ q) :
    ∃ a n₀, a ≠ 0 ∧ ∀ n ≥ n₀, achaAnterior s q n p = .ok a := by
  induction h with
  | aqui _ => exact absurd rfl hne
  | @adiante p q hp h ih =>
    by_cases hq : s.prox p = q
    · refine ⟨p, 1, hp, fun n hn ↦ ?_⟩
      obtain ⟨n, rfl⟩ := Nat.exists_eq_add_of_le' hn
      rw [Next.achaAnterior, if_neg hp, Estado.lerProx_of_ne hp]
      exact if_neg (not_not.mpr hq)
    · obtain ⟨a, n₀, ha, hn₀⟩ := ih hq
      refine ⟨a, n₀ + 1, ha, fun n hn ↦ ?_⟩
      obtain ⟨n, rfl⟩ := Nat.exists_eq_add_of_le' (Nat.le_of_add_left_le hn)
      rw [Next.achaAnterior, if_neg hp, Estado.lerProx_of_ne hp]
      exact (if_pos hq).trans (hn₀ n (Nat.le_of_succ_le_succ hn))

theorem exists_divide (hant : ant ≠ 0) (hq : q ≠ 0) (h : ant = q → NaLista s s.listaLivres q) :
    ∃ n₀, ∀ n ≥ n₀, ∃ s', divide n s ant q t = .ok s' := by
  by_cases hc : ant ≠ s.listaLivres ∧ ant = q
  · obtain ⟨a, n₀, ha, hn₀⟩ := (h hc.2).achaAnterior fun heq ↦ hc.1 (hc.2.trans heq.symm)
    refine ⟨n₀, fun n hn ↦ ⟨dividido s a q t, ?_⟩⟩
    rw [divide, Estado.lerTam_of_ne hant]
    simp only [bind, Except.bind]
    rw [if_pos hc, hn₀ n hn]
    exact divide_eq ha hq
  · refine ⟨0, fun n _ ↦ ⟨dividido s ant q t, ?_⟩⟩
    rw [divide, Estado.lerTam_of_ne hant]
    simp only [bind, Except.bind]
    rw [if_neg hc]
    exact divide_eq hant hq

theorem exists_ocupa_eq (hi : x.inicioNext ≠ 0) (hant : ant ≠ 0) (hq : q ≠ 0)
    (h : ant = q → NaLista x.est x.est.listaLivres q) :
    ∃ n₀, ∀ n ≥ n₀, ∃ x', ocupa n x ant q t = .ok (q + 16, x') := by
  obtain ⟨n₀, hn₀⟩ := exists_divide (t := t) hant hq h
  refine ⟨n₀, fun n hn ↦ ?_⟩
  rw [ocupa, Estado.lerTam_of_ne hq]
  simp only [bind, Except.bind]
  by_cases htam : x.est.tam q = sizeofHeader + t
  · rw [if_pos htam, encaixe_eq hant hq]
    exact ⟨_, termina_eq hi hq⟩
  · obtain ⟨s', hs'⟩ := hn₀ n hn
    rw [if_neg htam, hs']
    exact ⟨_, termina_eq hi hq⟩

/-- A call that returns a block has found it from the roving pointer. -/
theorem primeiro_of_meuAloca {n : ℕ} (h : meuAloca n x t = .ok (some (q + 16), x')) :
    Primeiro x.est t x.inicioNext q := by
  rw [meuAloca, bind_eq_ok] at h
  obtain ⟨⟨a, y⟩, hbusca, h⟩ := h
  have hprim := primeiro_of_nextFit hbusca
  simp only [if_neg hprim.cabe.1] at h
  obtain ⟨⟨r, x₁⟩, hocupa, h⟩ := bind_eq_ok.mp h
  obtain ⟨hr, -⟩ := Prod.mk.inj (Except.ok.inj h)
  obtain ⟨-, -, hy, -⟩ := ocupa_cases hprim.ne_null hprim.cabe.1 hocupa
  have hqy : q = y := by
    have := Option.some.inj hr
    simp only at this
    omega
  exact hqy ▸ hprim

/-- The block that next fit should return: the first one that is large enough from the roving
pointer on, if the roving pointer is on the list and there is one, and else the first one from the
head. -/
def Alvo (x : Globais) (t q : ℕ) : Prop :=
  let daqui := NaLista x.est x.est.listaLivres x.inicioNext ∧ ∃ b, Primeiro x.est t x.inicioNext b
  (daqui ∧ Primeiro x.est t x.inicioNext q) ∨ (¬ daqui ∧ Primeiro x.est t x.est.listaLivres q)

/-- If a block of the list is large enough, then `meu_aloca` returns the one that next fit should
return. -/
def Completa (x : Globais) (t : ℕ) : Prop :=
  (∃ b, NaLista x.est x.est.listaLivres b ∧ 16 + t ≤ x.est.tam b) →
    ∃ n q x', Alvo x t q ∧ meuAloca n x t = .ok (some (q + 16), x')

/-- **Next fit is complete if and only if there is a hole from the roving pointer on**, and the
roving pointer is on the list, or the hole is also the first one from the head. The second search,
from the head, is never made. -/
theorem meuAloca_completa_iff (x : Globais) (t : ℕ) : Completa x t ↔
    ((∃ b, NaLista x.est x.est.listaLivres b ∧ 16 + t ≤ x.est.tam b) →
      ∃ q, Primeiro x.est t x.inicioNext q ∧
        (NaLista x.est x.est.listaLivres x.inicioNext ∨ Primeiro x.est t x.est.listaLivres q)) := by
  refine imp_congr_right fun _ ↦ ⟨?_, ?_⟩
  · rintro ⟨n, q, x', halvo, hok⟩
    have hprim := primeiro_of_meuAloca hok
    rcases halvo with ⟨hdaqui, -⟩ | ⟨-, hhead⟩
    · exact ⟨q, hprim, .inl hdaqui.1⟩
    · exact ⟨q, hprim, .inr hhead⟩
  · rintro ⟨q, hprim, hlista⟩
    have halvo : Alvo x t q := by
      by_cases hna : NaLista x.est x.est.listaLivres x.inicioNext
      · exact .inl ⟨⟨hna, q, hprim⟩, hprim⟩
      · exact .inr ⟨fun h ↦ hna h.1, hlista.resolve_left hna⟩
    obtain ⟨a, n₀, ha, hn₀⟩ := hprim.nextFit x.inicioNext
    have hant : a ≠ 0 := by
      rcases ha with ⟨rfl, -⟩ | ha
      · exact hprim.ne_null
      · exact ha.1
    -- the predecessor is looked for only if the search ended where it started, and then that
    -- block is on the list
    have hna : a = q → NaLista x.est x.est.listaLivres q := by
      intro haq
      rcases ha with ⟨-, rfl⟩ | ha
      · rcases hlista with hna | hhead
        · exact hna
        · exact hhead.naLista
      · exact absurd haq ha.2
    obtain ⟨n₁, hn₁⟩ := exists_ocupa_eq (t := t) hprim.ne_null hant hprim.cabe.1 hna
    obtain ⟨x', hx'⟩ := hn₁ (max n₀ n₁) (le_max_right _ _)
    refine ⟨max n₀ n₁, q, x', halvo, ?_⟩
    rw [meuAloca, hn₀ _ (le_max_left _ _)]
    simp only [bind, Except.bind, if_neg hprim.cabe.1, hx']
    rfl

/-- Four blocks are allocated and the first and the third freed; two more requests leave the roving
pointer at the second hole. The first hole has room for 80 bytes, and the request for them reads
through `NULL`. -/
theorem not_completa : ∃ S,
    roda [.aloca 100, .aloca 10, .aloca 20, .aloca 10, .libera 32, .libera 2304, .aloca 10,
      .aloca 9978] = some S ∧
    Reachable Passo (inicial (fun _ ↦ ⟨0, 0⟩) 16) S ∧ ListaLivres S.glob.est [16, 2288] ∧
    S.glob.inicioNext = 2288 ∧ meuAloca 3 S.glob 80 = .error .nulo ∧ ¬ Completa S.glob 80 := by
  have hrun : (roda [.aloca 100, .aloca 10, .aloca 20, .aloca 10, .libera 32, .libera 2304,
      .aloca 10, .aloca 9978]).map (fun S ↦ (S.glob.est.listaLivres, S.glob.inicioNext,
        S.glob.est.header 16, S.glob.est.header 2288)) =
      some (16, 2288, ⟨100, 2288⟩, ⟨20, 0⟩) := by decide +kernel
  obtain ⟨S, hS, hobs⟩ := Option.map_eq_some_iff.mp hrun
  simp only [Prod.mk.injEq] at hobs
  obtain ⟨hlista, hnext, h16, h2288⟩ := hobs
  obtain ⟨hist, tr, -⟩ := exists_trace_of_execute passo_of_executa hS
  have hprox : S.glob.est.prox 2288 = 0 := by rw [Estado.prox, h2288]
  have htam : S.glob.est.tam 2288 = 20 := by rw [Estado.tam, h2288]
  have hcadeia : ListaLivres S.glob.est [16, 2288] :=
    ⟨⟨hlista, by rw [Estado.prox, h16], hprox⟩, by simp⟩
  have hfalha : meuAloca 3 S.glob 80 = .error .nulo := by
    have hbusca : nextFit S.glob.est 80 3 2288 2288 = .error .nulo :=
      nextFit_eq_nulo 2288 (l := [2288]) ⟨⟨rfl, hprox⟩, by simp⟩ (by simp [htam]) (by simp)
    rw [meuAloca, hnext, hbusca]
    rfl
  refine ⟨S, hS, ⟨hist, tr⟩, hcadeia, hnext, hfalha, fun hcompleta ↦ ?_⟩
  have hlivre : NaLista S.glob.est S.glob.est.listaLivres 16 := by
    rw [hlista]
    exact .aqui (by decide)
  have hcabe : 16 + 80 ≤ S.glob.est.tam 16 := by
    rw [Estado.tam, h16]
    decide
  obtain ⟨n, q, x', -, hok⟩ := hcompleta ⟨16, hlivre, hcabe⟩
  have hprim := primeiro_of_meuAloca hok
  rw [hnext] at hprim
  cases hprim with
  | aqui _ hle =>
    rw [htam] at hle
    exact absurd hle (by decide)
  | adiante _ _ h =>
    rw [hprox] at h
    exact h.ne_null rfl

end Completa

end Next

end SistemasOperacionais.Gm
