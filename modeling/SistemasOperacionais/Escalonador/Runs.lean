import SistemasOperacionais.Escalonador.Model

/-!
# Runs of the scheduler simulator

A run of completed calls never fails once the first process exists: `escolhe_processo` goes down the
table entry by entry and from process `0` back to the last one, so it only finds entries that
`cria_processo` filled in. `Execucao` is such a run step by step, with the processes that exist and
the one that is running, and the results about runs are inductions on it.
-/

namespace SistemasOperacionais.Escalonador

/-! ## What the calls do -/

theorem criaProcesso_eq {s : Estado} (proc : Corpo) (h : s.processoId < numProcessos - 1) :
    criaProcesso s proc = .ok { s with
      processoId := s.processoId + 1
      tabela := Function.update s.tabela (s.processoId + 1)
        ⟨s.processoId + 1, .zero, some proc,
          if s.processoId + 1 > 0 then s.processoId + 1 - 1 else -1⟩ } := by
  rw [criaProcesso, if_pos h]
  simp [atribuicoes, Estado.altera, Registradores.zero]

/-- The process that the next tick dispatches. -/
def proximoPid (s : Estado) : ℤ :=
  if s.contador + 1 > numTicks then escolheProcesso s else s.pid

/-- The table after the registers of the running process were saved. -/
def salva (s : Estado) : ℤ → Entrada :=
  Function.update s.tabela s.pid { s.tabela s.pid with regs := s.cpu }

theorem salva_processo (s : Estado) (i : ℤ) : (salva s i).processo = (s.tabela i).processo := by
  by_cases h : i = s.pid
  · subst h
    simp [salva]
  · simp [salva, h]

theorem salva_proximo (s : Estado) (i : ℤ) : (salva s i).proximo = (s.tabela i).proximo := by
  by_cases h : i = s.pid
  · subst h
    simp [salva]
  · simp [salva, h]

theorem salva_regs (s : Estado) (i : ℤ) :
    (salva s i).regs = if i = s.pid then s.cpu else (s.tabela i).regs := by
  by_cases h : i = s.pid
  · subst h
    simp [salva]
  · simp [salva, h]

theorem despacha_eq {s : Estado} (h : s.reentrada = 0) :
    despacha s = .ok { s with
      pid := proximoPid s
      cpu := (salva s (proximoPid s)).regs
      tabela := salva s
      contador := if s.contador + 1 > numTicks then 0 else s.contador + 1 } := by
  have hescolhe : escolheProcesso { salvaContexto { s with reentrada := 1 } with
      contador := s.contador + 1 } = escolheProcesso s := by
    simp [escolheProcesso, salvaContexto, Estado.altera]
  rw [despacha, if_neg (by omega)]
  simp only [salvaContexto, Estado.altera, restauraContexto] at hescolhe ⊢
  by_cases hc : s.contador + 1 > numTicks
  · simp [hc, hescolhe, proximoPid, salva, h]
  · simp [hc, proximoPid, salva, h]

/-! ## States with the processes `fs` -/

/-- The entries of the processes `fs` are filled in and linked downwards, and `p` is running. Before
the first process exists `p` is `0`. -/
structure Pronto (s : Estado) (fs : List Corpo) (p : ℕ) : Prop where
  pid : s.pid = p
  le : p ≤ fs.length - 1
  reentrada : s.reentrada = 0
  contador : 0 ≤ s.contador ∧ s.contador ≤ numTicks
  processo : ∀ i (hi : i < fs.length), (s.tabela i).processo = some fs[i]
  proximo : ∀ i < fs.length, (s.tabela i).proximo = (i : ℤ) - 1

theorem Estado.tabela_altera_self (s : Estado) (i : ℤ) (g : Entrada → Entrada) :
    (s.altera i g).tabela i = g (s.tabela i) := Function.update_self ..

theorem Estado.tabela_altera_of_ne (s : Estado) {i j : ℤ} (g : Entrada → Entrada) (h : j ≠ i) :
    (s.altera i g).tabela j = s.tabela j := Function.update_of_ne h ..

/-- The state in which the function `f` of process `q`, dispatched from `s`, returns. -/
def aposTick (s : Estado) (q : ℕ) (f : Corpo) : Estado :=
  { s with
    pid := q
    cpu := f (salva s q).regs
    tabela := salva s
    contador := if s.contador + 1 > numTicks then 0 else s.contador + 1 }

/-- The state in which a call of `cria_processo` returns. -/
def aposCria (s : Estado) (n : ℕ) (f : Corpo) : Estado :=
  { s with
    processoId := n
    tabela := Function.update s.tabela n ⟨n, .zero, some f, (n : ℤ) - 1⟩ }

namespace Pronto

variable {s : Estado} {fs : List Corpo} {p q : ℕ}

theorem inicial : Pronto inicial [] 0 where
  pid := rfl
  le := le_rfl
  reentrada := rfl
  contador := by simp [Escalonador.inicial, numTicks]
  processo := by simp
  proximo := by simp

/-- A tick steps down to the process below, or up to the last one from process `0`. -/
theorem proximoPid_eq (h : Pronto s fs p) (hfs : fs ≠ []) : proximoPid s =
    if s.contador + 1 > numTicks then (if p = 0 then s.processoId else (p : ℤ) - 1) else p := by
  have hp : p < fs.length := by
    have := h.le
    have := List.length_pos_iff.mpr hfs
    omega
  rw [proximoPid, escolheProcesso, h.pid, h.proximo p hp]
  split
  · by_cases h0 : p = 0
    · rw [if_pos (by omega), if_pos h0]
    · rw [if_neg (by omega), if_neg h0]
  · rfl

theorem exists_proximoPid (h : Pronto s fs p) (hs : s.processoId = (fs.length : ℤ) - 1)
    (hfs : fs ≠ []) : ∃ q : ℕ, q < fs.length ∧ proximoPid s = q := by
  have hle := h.le
  have hpos := List.length_pos_iff.mpr hfs
  rw [h.proximoPid_eq hfs]
  split_ifs with hc h0
  · exact ⟨fs.length - 1, by omega, by omega⟩
  · exact ⟨p - 1, by omega, by omega⟩
  · exact ⟨p, by omega, rfl⟩

theorem aposTick (h : Pronto s fs p) (hq : q < fs.length) (f : Corpo) :
    Pronto (aposTick s q f) fs q where
  pid := rfl
  le := by omega
  reentrada := h.reentrada
  contador := by
    have := h.contador
    rw [numTicks_eq] at this
    simp only [Escalonador.aposTick, numTicks_eq]
    split_ifs <;> omega
  processo i hi := (salva_processo s i).trans (h.processo i hi)
  proximo i hi := (salva_proximo s i).trans (h.proximo i hi)

/-- **A tick** dispatches `q` with the registers it left, and its function runs on them. -/
theorem roda_tick (h : Pronto s fs p) (hq : q < fs.length) (hnext : proximoPid s = q)
    {es : List Evento} {log : List Ativacao} {s' : Estado}
    (hes : roda (Escalonador.aposTick s q fs[q]) es = .ok (log, s')) :
    roda s (.tick :: es) = .ok
      (⟨if s.contador + 1 > numTicks then some (escolheProcesso s) else none, s.processoId + 1, p,
        q, (salva s q).regs⟩ :: log, s') := by
  rw [roda, despacha_eq h.reentrada, hnext]
  simp only [bind, Except.bind, chama, salva_processo, h.processo q hq]
  simp only [Escalonador.aposTick] at hes
  rw [hes]
  simp [ativacao, h.pid, pure, Except.pure]

theorem altera {i : ℤ} (h : Pronto s fs p) (hi : fs.length ≤ i) (g : Entrada → Entrada) :
    Pronto (s.altera i g) fs p where
  pid := h.pid
  le := h.le
  reentrada := h.reentrada
  contador := h.contador
  processo j hj := by
    rw [← h.processo j hj, s.tabela_altera_of_ne g (by omega)]
  proximo j hj := by
    rw [← h.proximo j hj, s.tabela_altera_of_ne g (by omega)]

/-- The next process is complete once its function and its link are set. -/
theorem concat {f : Corpo} (h : Pronto s fs p) (hproc : (s.tabela fs.length).processo = some f)
    (hprox : (s.tabela fs.length).proximo = (fs.length : ℤ) - 1) : Pronto s (fs ++ [f]) p where
  pid := h.pid
  le := by
    have := h.le
    rw [List.length_append, List.length_singleton]
    omega
  reentrada := h.reentrada
  contador := h.contador
  processo i hi := by
    rw [List.length_append, List.length_singleton, Nat.lt_succ_iff_lt_or_eq] at hi
    rcases hi with hi | rfl
    · rw [List.getElem_append_left hi, h.processo i hi]
    · rw [List.getElem_concat_length rfl, hproc]
  proximo i hi := by
    rw [List.length_append, List.length_singleton, Nat.lt_succ_iff_lt_or_eq] at hi
    rcases hi with hi | rfl
    · exact h.proximo i hi
    · exact hprox

theorem aposCria (h : Pronto s fs p) (f : Corpo) :
    Pronto (aposCria s fs.length f) (fs ++ [f]) p := by
  have hnova : Pronto (Escalonador.aposCria s fs.length f) fs p :=
    { h.altera le_rfl fun _ ↦ ⟨fs.length, .zero, some f, (fs.length : ℤ) - 1⟩ with }
  exact hnova.concat (by simp [Escalonador.aposCria]) (by simp [Escalonador.aposCria])

/-- **A completed creation** fills the next entry and touches nothing else. -/
theorem roda_cria (hs : s.processoId = (fs.length : ℤ) - 1) (hfs : fs.length < numProcessos)
    (f : Corpo) (es : List Evento) :
    roda s (.cria f :: es) = roda (Escalonador.aposCria s fs.length f) es := by
  have hlink : (if (fs.length : ℤ) > 0 then (fs.length : ℤ) - 1 else -1) = (fs.length : ℤ) - 1 := by
    split <;> omega
  rw [roda, criaProcesso_eq f (by omega), hs, sub_add_cancel, hlink]
  rfl

end Pronto

/-! ## Runs -/

/-- The functions of the processes that a sequence of events creates, in order. -/
def criados (es : List Evento) : List Corpo :=
  es.filterMap fun
    | .cria proc => some proc
    | .tick => none

@[simp] theorem criados_cria (f : Corpo) (es : List Evento) :
    criados (.cria f :: es) = f :: criados es := rfl

@[simp] theorem criados_tick (es : List Evento) : criados (.tick :: es) = criados es := rfl

theorem criados_append (es es' : List Evento) : criados (es ++ es') = criados es ++ criados es' :=
  List.filterMap_append ..

@[simp] theorem criados_map_cria (fs : List Corpo) : criados (fs.map .cria) = fs := by
  induction fs with
  | nil => rfl
  | cons f fs ih => rw [List.map_cons, criados_cria, ih]

@[simp] theorem criados_replicate_tick (t : ℕ) : criados (List.replicate t .tick) = [] := by
  induction t with
  | zero => rfl
  | succ t ih => rw [List.replicate_succ, criados_tick, ih]

/-- A run from `s`, in which the processes `fs` exist and `p` is running: its events, what its ticks
did, and the state it ends in. -/
inductive Execucao : Estado → List Corpo → ℕ → List Evento → List Ativacao → Estado → Prop
  | nil {s : Estado} {fs : List Corpo} {p : ℕ} : Execucao s fs p [] [] s
  | cria {s s' : Estado} {fs : List Corpo} {p : ℕ} {f : Corpo} {es : List Evento}
      {log : List Ativacao} (h : Execucao (aposCria s fs.length f) (fs ++ [f]) p es log s') :
      Execucao s fs p (.cria f :: es) log s'
  | tick {s s' : Estado} {fs : List Corpo} {p q : ℕ} {es : List Evento} {log : List Ativacao}
      (hq : q < fs.length) (hnext : proximoPid s = q)
      (h : Execucao (aposTick s q fs[q]) fs q es log s') :
      Execucao s fs p (.tick :: es)
        (⟨if s.contador + 1 > numTicks then some (escolheProcesso s) else none, s.processoId + 1,
          p, q, (salva s q).regs⟩ :: log) s'

/-- **No run fails** that creates a process before its first tick, and not more than the table
holds. -/
theorem Pronto.exists_execucao {es : List Evento} {s : Estado} {fs : List Corpo} {p : ℕ}
    (h : Pronto s fs p) (hs : s.processoId = (fs.length : ℤ) - 1)
    (hnum : (fs ++ criados es).length ≤ numProcessos)
    (hfirst : fs ≠ [] ∨ ∀ e ∈ es.head?, e ≠ .tick) :
    ∃ log s', roda s es = .ok (log, s') ∧ Execucao s fs p es log s' := by
  induction es generalizing s fs p with
  | nil => exact ⟨[], s, rfl, .nil⟩
  | cons e es ih =>
    cases e with
    | cria f =>
      rw [criados_cria, List.append_cons] at hnum
      obtain ⟨log, s', hrun, hexec⟩ := ih (h.aposCria f) (by simp [Escalonador.aposCria]) hnum
        (Or.inl (by simp))
      refine ⟨log, s', ?_, .cria hexec⟩
      rw [Pronto.roda_cria hs _ f es, hrun]
      rw [List.length_append, List.length_append, List.length_singleton] at hnum
      push_cast at hnum
      omega
    | tick =>
      have hfs : fs ≠ [] := hfirst.resolve_right fun h ↦ h .tick rfl rfl
      obtain ⟨q, hq, hnext⟩ := h.exists_proximoPid hs hfs
      obtain ⟨log, s', hrun, hexec⟩ := ih (h.aposTick hq fs[q]) hs hnum (Or.inl hfs)
      exact ⟨_, s', h.roda_tick hq hnext hrun, .tick hq hnext hexec⟩

theorem exists_execucao {es : List Evento} (hnum : (criados es).length ≤ numProcessos)
    (hfirst : ∀ e ∈ es.head?, e ≠ .tick) :
    ∃ log s, roda inicial es = .ok (log, s) ∧ Execucao inicial [] 0 es log s :=
  Pronto.inicial.exists_execucao rfl hnum (Or.inr hfirst)

/-- A run that creates the processes `fs` and then lets the timer tick `t` times. -/
theorem exists_execucao_of_ticks {fs : List Corpo} (t : ℕ) (hpos : 1 ≤ fs.length)
    (hnum : fs.length ≤ numProcessos) :
    ∃ log s, roda inicial (fs.map .cria ++ List.replicate t .tick) = .ok (log, s) ∧
      Execucao inicial [] 0 (fs.map .cria ++ List.replicate t .tick) log s := by
  refine exists_execucao ?_ ?_
  · rwa [criados_append, criados_map_cria, criados_replicate_tick, List.append_nil]
  · obtain ⟨f, fs', rfl⟩ := List.exists_cons_of_length_pos hpos
    simp

theorem Execucao.length_eq {es : List Evento} {s s' : Estado} {fs : List Corpo} {p : ℕ}
    {log : List Ativacao} (h : Execucao s fs p es log s') :
    log.length + (criados es).length = es.length := by
  induction h with
  | nil => rfl
  | cria _ ih =>
    rw [criados_cria, List.length_cons, List.length_cons, ← ih]
    omega
  | tick _ _ _ ih =>
    rw [criados_tick, List.length_cons, List.length_cons, ← ih]
    omega

end SistemasOperacionais.Escalonador
