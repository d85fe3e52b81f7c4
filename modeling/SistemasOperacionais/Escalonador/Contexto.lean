import SistemasOperacionais.Escalonador.Runs
import Mathlib.Data.List.GetD
import Mathlib.Data.List.Iterate

/-!
# Context isolation

Between two ticks the registers of the running process are in `_cpu` and its table entry is stale;
the entries of all the others hold what they left there. So if every process is charged the number
of times it was activated, its registers, wherever they are, are those of its own function iterated
that many times.
-/

namespace SistemasOperacionais.Escalonador

/-! ## The registers of every process -/

/-- Process `i` was activated `c i` times: the registers of the running process `p` are in `_cpu`,
those of the others in their entries. -/
structure Contexto (s : Estado) (fs : List Corpo) (p : ℕ) (c : ℕ → ℕ) : Prop where
  cpu : s.cpu = (fs.getD p id)^[c p] .zero
  regs : ∀ i < fs.length, i ≠ p → (s.tabela i).regs = (fs.getD i id)^[c i] .zero
  novo : ∀ i, fs.length ≤ i → c i = 0

namespace Contexto

variable {s : Estado} {fs : List Corpo} {p q : ℕ} {c : ℕ → ℕ}

theorem inicial : Contexto inicial [] 0 fun _ ↦ 0 := ⟨rfl, by simp, fun _ _ ↦ rfl⟩

theorem aposCria (h : Contexto s fs p c) (f : Corpo) :
    Contexto (aposCria s fs.length f) (fs ++ [f]) p c where
  cpu := by
    by_cases hlt : p < fs.length
    · rw [List.getD_append _ _ _ _ hlt]
      exact h.cpu
    · -- the first process: nothing has run yet
      have hcpu := h.cpu
      rw [h.novo p (by omega)] at hcpu ⊢
      exact hcpu
  regs i hi hne := by
    rw [List.length_append, List.length_singleton, Nat.lt_succ_iff_lt_or_eq] at hi
    rcases hi with hi | rfl
    · rw [List.getD_append _ _ _ _ hi, ← h.regs i hi hne]
      simp [Escalonador.aposCria, hi.ne]
    · rw [h.novo _ le_rfl]
      simp [Escalonador.aposCria]
  novo i hi := h.novo i (by
    rw [List.length_append, List.length_singleton] at hi
    omega)

/-- The registers that a dispatched process finds are its own, also when it was already running. -/
theorem salva_regs (h : Contexto s fs p c) (hpid : s.pid = p) (hq : q < fs.length) :
    (salva s q).regs = (fs.getD q id)^[c q] .zero := by
  rw [Escalonador.salva_regs, hpid]
  by_cases hqp : q = p
  · rw [if_pos (by rw [hqp]), hqp, h.cpu]
  · rw [if_neg (by exact_mod_cast hqp), h.regs q hq hqp]

theorem aposTick (h : Contexto s fs p c) (hpid : s.pid = p) (hq : q < fs.length) :
    Contexto (aposTick s q fs[q]) fs q (Function.update c q (c q + 1)) where
  cpu := by
    rw [Function.update_self, Function.iterate_succ_apply', ← h.salva_regs hpid hq,
      List.getD_eq_getElem _ _ hq]
    rfl
  regs i hi hne := by
    rw [Function.update_of_ne hne, ← h.salva_regs hpid hi]
    rfl
  novo i hi := by
    rw [Function.update_of_ne (by omega), h.novo i hi]

end Contexto

/-- The registers that process `i` saw at its activations, in order. -/
def vistos (i : ℕ) (log : List Ativacao) : List Registradores :=
  (log.filter fun a ↦ a.pid = (i : ℤ)).map Ativacao.visto

/-- In a run that starts with processes activated `c` times, every process sees its own function
iterated. -/
theorem Execucao.vistos_eq {es : List Evento} {s s' : Estado} {fs : List Corpo} {p : ℕ}
    {c : ℕ → ℕ} {log : List Ativacao} (h : Execucao s fs p es log s') (hpid : s.pid = p)
    (hC : Contexto s fs p c) (i : ℕ) :
    vistos i log = List.iterate ((fs ++ criados es).getD i id)
      (((fs ++ criados es).getD i id)^[c i] .zero) (vistos i log).length := by
  induction h generalizing c with
  | nil => rfl
  | @cria s s' fs p f es log _ ih =>
    have h := ih hpid (hC.aposCria f)
    rwa [List.append_assoc, List.singleton_append] at h
  | @tick s s' fs p q es log hq hnext _ ih =>
    have hi := ih rfl (hC.aposTick hpid hq)
    rw [criados_tick]
    by_cases hiq : i = q
    · subst hiq
      rw [Function.update_self, Function.iterate_succ_apply'] at hi
      rw [vistos, List.filter_cons_of_pos (by simp), List.map_cons, ← vistos, List.length_cons,
        List.iterate, ← hi, hC.salva_regs hpid hq, List.getD_append _ _ _ _ hq]
    · rw [Function.update_of_ne hiq] at hi
      rw [vistos, List.filter_cons_of_neg (by simpa using fun h ↦ hiq h.symm), ← vistos]
      exact hi

/-- **Contexts are isolated.** With any processes created before the first tick and any number of
ticks, the registers that a process sees at its activations are those of its own function, run
alone from registers that are all zero. -/
theorem contexto_isolado (fs : List Corpo) (t : ℕ) (hpos : 1 ≤ fs.length)
    (hnum : fs.length ≤ numProcessos) :
    ∃ log s, roda inicial (fs.map .cria ++ List.replicate t .tick) = .ok (log, s) ∧
      log.length = t ∧ ∀ i (hi : i < fs.length),
        vistos i log = List.iterate fs[i] .zero (vistos i log).length := by
  have hcriados : criados (fs.map .cria ++ List.replicate t .tick) = fs := by
    rw [criados_append, criados_map_cria, criados_replicate_tick, List.append_nil]
  obtain ⟨log, s, hrun, hexec⟩ := exists_execucao_of_ticks t hpos hnum
  refine ⟨log, s, hrun, ?_, fun i hi ↦ ?_⟩
  · have hlen := hexec.length_eq
    rw [hcriados, List.length_append, List.length_map, List.length_replicate] at hlen
    omega
  · have h := hexec.vistos_eq rfl Contexto.inicial i
    rwa [hcriados, List.nil_append, List.getD_eq_getElem _ _ hi] at h

/-- The four processes of `main` during ten ticks: the last one is activated at three of them. -/
theorem contexto_isolado_principal : ∃ log s,
    roda inicial (principal.map .cria ++ List.replicate 10 .tick) = .ok (log, s) ∧
      vistos 3 log = List.iterate processo4 .zero 3 := by
  obtain ⟨log, s, hrun, -, hlog⟩ := contexto_isolado principal 10 (by decide) (by decide)
  have hlen : (roda inicial (principal.map .cria ++ List.replicate 10 .tick)).map
      (fun r ↦ (vistos 3 r.1).length) = .ok 3 := by decide +kernel
  rw [hrun, Except.map, Except.ok.injEq] at hlen
  have h := hlog 3 (by decide)
  rw [hlen] at h
  exact ⟨log, s, hrun, h⟩

end SistemasOperacionais.Escalonador
