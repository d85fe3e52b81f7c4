import SistemasOperacionais.Foundations.Trace
import SistemasOperacionais.Escalonador.Runs

/-!
# Ticks between two assignments

`init_proc` arms the timer before `main` creates its first process, and nothing keeps a tick from
firing in the middle of `cria_processo`. Here `main` advances by one assignment at a time and a tick
may come at any moment; the handler itself is not interrupted.

Two kinds of ticks dispatch an entry that is not complete: those before the first creation has
returned, and those that wrap from process `0` to `processo_id` while a creation has already moved
`processo_id` to the entry it is filling in. All the others dispatch complete entries.
-/

namespace SistemasOperacionais.Escalonador

open Foundations

/-- `main` after `init_proc`. -/
structure Assincrono where
  est : Estado
  /-- The processes whose creation has returned. -/
  completos : List Corpo
  /-- The creation in progress, with the number of its assignments already executed. -/
  emCurso : Option (Corpo × ℕ)
  /-- The processes that `main` has still to create. -/
  restantes : List Corpo
  /-- The program has not died. -/
  vivo : Bool

def Assincrono.inicial (procs : List Corpo) : Assincrono :=
  ⟨Escalonador.inicial, [], none, procs, true⟩

inductive Instante
  | principal
  | tick
deriving DecidableEq

namespace Assincrono

/-- The next assignment of `main`; the test that opens `cria_processo` goes with the first one. -/
def avanca (a : Assincrono) : Option Assincrono :=
  match a.emCurso, a.restantes with
  | none, [] => none
  | none, f :: fs =>
    if a.est.processoId < numProcessos - 1 then
      some { a with
        est := (atribuicoes f).getD 0 id a.est
        emCurso := some (f, 1)
        restantes := fs }
    else some { a with vivo := false }
  | some (f, k), _ =>
    if k + 1 < (atribuicoes f).length then
      some { a with est := (atribuicoes f).getD k id a.est, emCurso := some (f, k + 1) }
    else
      some { a with
        est := (atribuicoes f).getD k id a.est
        completos := a.completos ++ [f]
        emCurso := none }

/-- What may happen next. A handler that fails takes the program with it. -/
def executa (a : Assincrono) (i : Instante) : Option Assincrono :=
  if a.vivo then
    match i with
    | .principal => a.avanca
    | .tick =>
      match escalonador a.est with
      | .ok s => some { a with est := s }
      | .error _ => some { a with vivo := false }
  else none

def Passo (a : Assincrono) (i : Instante) (a' : Assincrono) : Prop := a.executa i = some a'

/-- The entry dispatched by the tick was completely filled in by `cria_processo`. -/
def Completa (a : Assincrono) : Instante → Prop
  | .tick => ∃ d, despacha a.est = .ok d ∧ 0 ≤ d.pid ∧ d.pid < a.completos.length
  | .principal => True

/-- The tick comes after the first creation, and does not wrap to `processo_id` during another. -/
def Oportuno (a : Assincrono) : Instante → Prop
  | .tick => a.completos ≠ [] ∧ ¬(a.emCurso.isSome ∧ a.est.contador = numTicks ∧
      (a.est.tabela a.est.pid).proximo < 0)
  | .principal => True

instance (a : Assincrono) : (i : Instante) → Decidable (a.Oportuno i)
  | .tick => inferInstanceAs (Decidable (_ ∧ ¬_))
  | .principal => inferInstanceAs (Decidable True)

end Assincrono

/-- Left alone, `main` creates a process as the undivided `criaProcesso` does. -/
theorem execute_principal {a : Assincrono} {f : Corpo} {fs : List Corpo} {s : Estado}
    (hv : a.vivo) (hc : a.emCurso = none) (hr : a.restantes = f :: fs)
    (h : criaProcesso a.est f = .ok s) :
    execute Assincrono.executa a (List.replicate 10 .principal) =
      some { a with est := s, completos := a.completos ++ [f], restantes := fs } := by
  obtain ⟨est, completos, emCurso, restantes, vivo⟩ := a
  simp only at hv hc hr h
  subst hv hc hr
  rw [criaProcesso] at h
  split at h
  · rename_i hlt
    cases h
    have hlen : (atribuicoes f).length = 10 := rfl
    simp only [List.replicate, execute, Assincrono.executa, Assincrono.avanca, hlt, hlen, if_true,
      Option.bind_some, Nat.reduceAdd, Nat.reduceLT, Nat.lt_irrefl, if_false]
    rfl
  · cases h

/-! ## The assignments of a creation in progress -/

/-- The assignments after the first one change the entry at `processo_id`. -/
theorem atribuicoes_getD (f : Corpo) (s : Estado) {k : ℕ} (hk : 1 ≤ k) (hk' : k ≤ 9) :
    ∃ g, (atribuicoes f).getD k id s = s.altera s.processoId g ∧
      (k = 8 → ∀ e, (g e).processo = some f) ∧
      (k = 9 → ∀ e, (g e).processo = e.processo ∧
        (g e).proximo = if s.processoId > 0 then s.processoId - 1 else -1) := by
  interval_cases k <;>
    simp only [atribuicoes, List.getD_cons_succ, List.getD_cons_zero] <;>
    exact ⟨_, rfl, by simp, by simp⟩

namespace Assincrono

/-- What a run keeps whose ticks are all opportune. A creation in progress is filling in the entry
after the complete ones, and has set `processo` before its last assignment. -/
structure Valido (a : Assincrono) (p : ℕ) : Prop where
  pronto : Pronto a.est a.completos p
  parado : a.emCurso = none → a.est.processoId = (a.completos.length : ℤ) - 1
  criando : ∀ f k, a.emCurso = some (f, k) → a.est.processoId = a.completos.length ∧ 1 ≤ k ∧
    k ≤ 9 ∧ (k = 9 → (a.est.tabela a.completos.length).processo = some f)

namespace Valido

variable {a a' : Assincrono} {p : ℕ}

theorem inicial (procs : List Corpo) : Valido (.inicial procs) 0 :=
  ⟨Pronto.inicial, fun _ ↦ rfl, by simp [Assincrono.inicial]⟩

theorem avanca (h : Valido a p) (hs : a.avanca = some a') : Valido a' p := by
  obtain ⟨s, cs, emCurso, rs, vivo⟩ := a
  cases emCurso with
  | none =>
    have hid := h.parado rfl
    simp only at hid
    cases rs with
    | nil => simp [Assincrono.avanca] at hs
    | cons f rs =>
      rw [Assincrono.avanca] at hs
      simp only at hs
      split at hs
      · cases hs
        refine ⟨?_, by simp, fun f' k hf ↦ ?_⟩
        · have hp : Pronto { s with processoId := s.processoId + 1 } cs p :=
            ⟨h.pronto.pid, h.pronto.le, h.pronto.reentrada, h.pronto.contador, h.pronto.processo,
              h.pronto.proximo⟩
          simp only [atribuicoes, List.getD_cons_zero]
          exact hp.altera (by omega) _
        · simp only [Option.some.injEq, Prod.mk.injEq] at hf
          obtain ⟨rfl, rfl⟩ := hf
          refine ⟨?_, le_rfl, by omega, by omega⟩
          change s.processoId + 1 = cs.length
          omega
      · cases hs
        exact ⟨h.pronto, h.parado, h.criando⟩
  | some c =>
    obtain ⟨f, k⟩ := c
    obtain ⟨hid, hk, hk', hproc⟩ := h.criando f k rfl
    obtain ⟨g, hg, h8, h9⟩ := atribuicoes_getD f s hk hk'
    simp only at hid hproc
    have hpronto : Pronto (s.altera s.processoId g) cs p := h.pronto.altera hid.ge g
    have hentry : (s.altera s.processoId g).tabela cs.length = g (s.tabela cs.length) := by
      rw [← hid, s.tabela_altera_self]
    rw [Assincrono.avanca] at hs
    simp only [hg, show (atribuicoes f).length = 10 from rfl] at hs
    split at hs
    · -- an assignment before the last
      cases hs
      refine ⟨hpronto, by simp, fun f' k' hf ↦ ?_⟩
      simp only [Option.some.injEq, Prod.mk.injEq] at hf
      obtain ⟨rfl, rfl⟩ := hf
      refine ⟨hid, by omega, by omega, fun hk9 ↦ ?_⟩
      rw [hentry]
      exact h8 (by omega) _
    · -- the last one, which links the entry
      cases hs
      have hk9 : k = 9 := by omega
      obtain ⟨hsame, hlink⟩ := h9 hk9 (s.tabela cs.length)
      refine ⟨hpronto.concat ?_ ?_, fun _ ↦ ?_, by simp⟩
      · rw [hentry, hsame, hproc hk9]
      · rw [hentry, hlink, hid]
        split <;> omega
      · simp only [List.length_append, List.length_singleton]
        change s.processoId = _
        omega

theorem completa_iff (h : Valido a p) (i : Instante) : a.Oportuno i ↔ a.Completa i := by
  cases i with
  | principal => exact Iff.rfl
  | tick =>
    have hpid : a.Completa .tick ↔
        0 ≤ proximoPid a.est ∧ proximoPid a.est < a.completos.length := by
      simp [Completa, despacha_eq h.pronto.reentrada]
    rw [hpid]
    by_cases hcs : a.completos = []
    · simp only [Oportuno, hcs, ne_eq, not_true, false_and, List.length_nil, false_iff]
      omega
    · have hle := h.pronto.le
      have hpos := List.length_pos_iff.mpr hcs
      have hcont := h.pronto.contador
      have hlink : (a.est.tabela a.est.pid).proximo = (p : ℤ) - 1 := by
        rw [h.pronto.pid, h.pronto.proximo p (by omega)]
      rw [h.pronto.proximoPid_eq hcs, Oportuno, hlink, and_iff_right hcs]
      split_ifs with hc h0
      · -- the tick wraps to `processo_id`
        cases hem : a.emCurso with
        | none =>
          have := h.parado hem
          simp only [Option.isSome_none, Bool.false_eq_true, false_and, not_false_eq_true, true_iff]
          omega
        | some c =>
          have := (h.criando c.1 c.2 hem).1
          simp only [Option.isSome_some, true_and]
          omega
      · omega
      · omega

theorem tick (h : Valido a p) (hop : a.Oportuno .tick) :
    ∃ s q, escalonador a.est = .ok s ∧ Valido { a with est := s } q := by
  obtain ⟨d, hd, hlo, hhi⟩ := (h.completa_iff .tick).mp hop
  rw [despacha_eq h.pronto.reentrada] at hd
  obtain ⟨q, hq⟩ := Int.eq_ofNat_of_zero_le hlo
  have hnext : proximoPid a.est = q := by
    cases hd
    exact hq
  have hlt : q < a.completos.length := by omega
  refine ⟨aposTick a.est q a.completos[q], q, ?_, h.pronto.aposTick hlt _, h.parado, ?_⟩
  · rw [escalonador, despacha_eq h.pronto.reentrada, hnext]
    simp only [bind, Except.bind, chama, salva_processo, h.pronto.processo q hlt]
    rfl
  · intro f k hf
    obtain ⟨hid, hk, hk', hproc⟩ := h.criando f k hf
    exact ⟨hid, hk, hk', fun hk9 ↦ (salva_processo _ _).trans (hproc hk9)⟩

theorem passo {i : Instante} (h : Valido a p) (hop : a.Oportuno i) (hs : Passo a i a') :
    ∃ q, Valido a' q := by
  unfold Passo executa at hs
  split at hs
  · cases i with
    | principal => exact ⟨p, h.avanca hs⟩
    | tick =>
      obtain ⟨s, q, hesc, hval⟩ := h.tick hop
      simp only [hesc, Option.some.injEq] at hs
      exact ⟨q, hs ▸ hval⟩
  · cases hs

end Valido

end Assincrono

open Assincrono

/-- **Which interleavings dispatch complete entries only.** In every run of `main`, creating any
processes, every tick dispatches an entry that `cria_processo` has completely filled in, if and only
if every tick comes after the first creation has returned and none wraps from process `0` to
`processo_id` while a creation is in progress. -/
theorem completa_iff_oportuno {procs : List Corpo} {hist : List (Assincrono × Instante)}
    {a : Assincrono} (tr : Trace Passo (.inicial procs) hist a) :
    Trace.Guarded Completa hist ↔ Trace.Guarded Oportuno hist := by
  refine (tr.guarded_congr (I := fun a ↦ ∃ p, Valido a p) ⟨0, Valido.inicial procs⟩ ?_ ?_).symm
  · rintro a i a' ⟨p, h⟩ hop hs
    exact h.passo hop hs
  · rintro a i a' ⟨p, h⟩ -
    exact h.completa_iff i

/-- `main` creates its first process, the timer ticks twice, and the second creation begins. -/
def doisTicks : List Instante := [List.replicate 10 .principal, [.tick, .tick, .principal]].flatten

theorem completa_iff_oportuno_principal : ∃ hist a, Trace Passo (.inicial principal) hist a ∧
    hist.map Prod.snd = doisTicks ∧ Trace.Guarded Completa hist := by
  have hrun : (execute executa (.inicial principal) doisTicks).isSome := by decide +kernel
  obtain ⟨hist, a, tr, hlab, hop⟩ : ∃ hist a, Trace Passo _ hist a ∧ _ :=
    exists_guarded_of_execute (C := Oportuno) (fun _ _ _ h ↦ h) hrun (by decide +kernel)
  exact ⟨hist, a, tr, hlab, (completa_iff_oportuno tr).mpr hop⟩

/-- A tick right after `init_proc` dispatches the entry of process `0`, which no assignment has
reached, and the call through its null pointer kills the program. -/
theorem completa_fails : ∃ hist a,
    Trace Passo (.inicial principal) hist a ∧ hist.map Prod.snd = [.tick] ∧ a.vivo = false ∧
    ¬Trace.Guarded Completa hist := by
  refine ⟨[(.inicial principal, .tick)], { Assincrono.inicial principal with vivo := false },
    Trace.nil.snoc rfl, rfl, rfl, fun h ↦ ?_⟩
  obtain ⟨d, -, hlo, hhi⟩ := h (.inicial principal, .tick) (by simp)
  simp [Assincrono.inicial] at hhi
  omega

/-- What happens in an event that no tick interrupts. -/
def Evento.instantes : Evento → List Instante
  | .cria _ => List.replicate 10 .principal
  | .tick => [.tick]

/-- **The two levels agree** on the runs in which no tick comes inside a creation, with any
processes `rest` still to be created. -/
theorem execute_instantes {a : Assincrono} {es : List Evento} {rest : List Corpo}
    {log : List Ativacao} {s : Estado} (hv : a.vivo) (hc : a.emCurso = none)
    (hr : a.restantes = criados es ++ rest) (h : roda a.est es = .ok (log, s)) :
    execute executa a (es.flatMap Evento.instantes) =
      some ⟨s, a.completos ++ criados es, none, rest, true⟩ := by
  induction es generalizing a log with
  | nil =>
    obtain ⟨est, completos, emCurso, restantes, vivo⟩ := a
    cases h
    simp_all [execute, criados]
  | cons e es ih =>
    rw [List.flatMap_cons, execute_append]
    cases e with
    | cria f =>
      obtain ⟨s₁, hs₁, h⟩ := bind_eq_ok.mp h
      have hr' : a.restantes = f :: (criados es ++ rest) := hr
      rw [Evento.instantes, execute_principal hv hc hr' hs₁, Option.bind_some,
        ih (a := ⟨s₁, a.completos ++ [f], _, _, _⟩) hv hc rfl h, List.append_assoc]
      rfl
    | tick =>
      obtain ⟨d, hd, h⟩ := bind_eq_ok.mp h
      obtain ⟨s₁, hs₁, h⟩ := bind_eq_ok.mp h
      obtain ⟨x, hx, h⟩ := bind_eq_ok.mp h
      cases h
      have hesc : escalonador a.est = .ok s₁ := bind_eq_ok.mpr ⟨d, hd, hs₁⟩
      simp only [Evento.instantes, execute, executa, hv, if_true, hesc, Option.bind_some]
      exact ih (a := ⟨s₁, _, _, _, true⟩) rfl hc hr hx

/-- One process has been created and dispatched, and another one is still to come. -/
theorem execute_instantes_um : ∃ s, execute executa (.inicial [processo1, processo2])
    ([.cria processo1, .tick].flatMap Evento.instantes) =
      some ⟨s, [processo1], none, [processo2], true⟩ := by
  obtain ⟨log, s, h, -⟩ := @exists_execucao [.cria processo1, .tick] (by decide) (by simp)
  exact ⟨s, execute_instantes (a := .inicial [processo1, processo2]) rfl rfl rfl h⟩

end SistemasOperacionais.Escalonador
