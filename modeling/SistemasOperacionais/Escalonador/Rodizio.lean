import SistemasOperacionais.Escalonador.Runs
import Mathlib.Data.List.Chain

/-!
# Fairness

`escolhe_processo` is called at every third tick. From process `p > 0` it selects `p - 1`, and from
process `0` the last process there is at that moment; so each round starts with the processes that
exist when process `0` is left and counts down to `0`, and what is created meanwhile waits for the
next round.
-/

namespace SistemasOperacionais.Escalonador

/-- The selections of a run: the process that `escolhe_processo` returned, and how many processes
there were. -/
def selecoes (log : List Ativacao) : List (ℤ × ℤ) :=
  log.filterMap fun a ↦ a.escolhido.map fun p ↦ (p, a.criados)

/-- The selection that follows `a`. -/
def Segue (a b : ℤ × ℤ) : Prop := 0 < b.2 ∧ b.1 = if a.1 = 0 then b.2 - 1 else a.1 - 1

/-! ## A round -/

theorem map_fst_eq_of_segue {l : List (ℤ × ℤ)} {y z : ℤ × ℤ} {q : ℕ}
    (h : List.IsChain Segue (z :: l)) (hz : z.1 = q) (hy : (z :: l).getLast? = some y)
    (hy0 : y.1 = 0) (hl : ∀ x ∈ (z :: l).dropLast, x.1 ≠ 0) :
    (z :: l).map Prod.fst = (List.range (q + 1)).reverse.map Nat.cast := by
  induction l generalizing z q with
  | nil =>
    obtain rfl : z = y := by simpa using hy
    obtain rfl : q = 0 := by omega
    simp [hz]
  | cons w l ih =>
    have hq : q ≠ 0 := by
      have := hl z (by simp)
      omega
    obtain ⟨hzw, hchain⟩ := List.isChain_cons_cons.mp h
    have hw : w.1 = ((q - 1 : ℕ) : ℤ) := by
      rw [hzw.2, if_neg (by omega)]
      omega
    have hrest := ih hchain hw (by simpa using hy) fun x hx ↦ hl x (by
      rw [List.dropLast_cons_cons]
      exact List.mem_cons_of_mem _ hx)
    rw [List.map_cons, hrest, Nat.sub_add_cancel (Nat.pos_of_ne_zero hq), List.range_succ,
      List.reverse_append, hz]
    rfl

/-- **A round.** Between two consecutive selections of process `0`, the second one included, every
process that existed when process `0` was left is selected exactly once. -/
theorem count_of_segue {l A B C : List (ℤ × ℤ)} {x y z : ℤ × ℤ} (h : List.IsChain Segue l)
    (hl : l = A ++ x :: (B ++ y :: C)) (hx : x.1 = 0) (hy : y.1 = 0) (hB : ∀ z ∈ B, z.1 ≠ 0)
    (hz : z ∈ (B ++ [y]).head?) {i : ℕ} (hi : (i : ℤ) < z.2) :
    ((B ++ [y]).map Prod.fst).count (i : ℤ) = 1 := by
  have hround : List.IsChain Segue (x :: (B ++ [y])) := by
    refine h.infix ⟨A, C, ?_⟩
    rw [hl]
    simp
  obtain ⟨l', hl'⟩ : ∃ l', B ++ [y] = z :: l' := by
    cases hB' : B ++ [y] with
    | nil => simp at hB'
    | cons w l' =>
      rw [hB', List.head?_cons, Option.mem_some_iff] at hz
      exact ⟨l', by rw [hz]⟩
  rw [hl'] at hround ⊢
  obtain ⟨⟨hpos, hfst⟩, hchain⟩ := List.isChain_cons_cons.mp hround
  rw [if_pos hx] at hfst
  rw [map_fst_eq_of_segue (q := (z.2 - 1).toNat) hchain (by omega) (by rw [← hl']; simp) hy
    fun w hw ↦ hB w (by rw [← hl'] at hw; simpa using hw)]
  refine List.count_eq_one_of_mem ?_ ?_
  · exact List.Nodup.map Nat.cast_injective (List.nodup_reverse.mpr List.nodup_range)
  · refine List.mem_map.mpr ⟨i, ?_, rfl⟩
    rw [List.mem_reverse, List.mem_range]
    omega

/-! ## The selections of a run -/

namespace Execucao

variable {s s' : Estado} {fs : List Corpo} {p : ℕ} {es : List Evento} {log : List Ativacao}

/-- The selections of a run follow one another, from the process that was running. -/
theorem isChain_selecoes (h : Execucao s fs p es log s') (hP : Pronto s fs p)
    (hs : s.processoId = (fs.length : ℤ) - 1) (n : ℤ) :
    List.IsChain Segue (((p : ℤ), n) :: selecoes log) := by
  induction h generalizing n with
  | nil => exact List.isChain_singleton _
  | @cria s s' fs p f es log _ ih => exact ih (hP.aposCria f) (by simp [aposCria]) n
  | @tick s s' fs p q es log hq hnext _ ih =>
    have hrest := ih (hP.aposTick hq fs[q]) hs
    have hpid := hP.proximoPid_eq (List.ne_nil_of_length_pos (by omega))
    rw [hnext] at hpid
    by_cases hc : s.contador + 1 > numTicks
    · have hsel : escolheProcesso s = q := by
        rw [proximoPid, if_pos hc] at hnext
        exact hnext
      have hcons : selecoes (⟨if s.contador + 1 > numTicks then some (escolheProcesso s) else none,
          s.processoId + 1, p, q, (salva s q).regs⟩ :: log)
            = ((q : ℤ), s.processoId + 1) :: selecoes log := by
        simp [selecoes, hc, hsel]
      rw [hcons]
      refine List.isChain_cons_cons.mpr ⟨⟨by simp only; omega, ?_⟩, hrest _⟩
      rw [if_pos hc] at hpid
      simp only
      rw [hpid]
      by_cases h0 : p = 0
      · rw [if_pos h0, if_pos (by omega)]
        omega
      · rw [if_neg h0, if_neg (by omega)]
    · -- no selection, and the same process goes on
      rw [if_neg hc, Nat.cast_inj] at hpid
      subst hpid
      have hcons : selecoes (⟨if s.contador + 1 > numTicks then some (escolheProcesso s) else none,
          s.processoId + 1, q, q, (salva s q).regs⟩ :: log) = selecoes log := by
        simp [selecoes, hc]
      rw [hcons]
      exact hrest n

theorem escolhido_eq (h : Execucao s fs p es log s') (hP : Pronto s fs p) {k : ℕ}
    (hk : k < log.length) :
    if numTicks + 1 ∣ s.contador + k + 1 then log[k].escolhido = some log[k].pid
    else log[k].escolhido = none ∧ log[k].pid = log[k].antes := by
  induction h generalizing k with
  | nil => simp at hk
  | @cria s s' fs p f es log _ ih => exact ih (hP.aposCria f) hk
  | @tick s s' fs p q es log hq hnext _ ih =>
    obtain ⟨hlo, hhi⟩ := hP.contador
    cases k with
    | zero =>
      have hdvd : numTicks + 1 ∣ s.contador + (0 : ℕ) + 1 ↔ s.contador + 1 > numTicks := by
        rw [numTicks_eq] at hhi ⊢
        omega
      rw [proximoPid] at hnext
      by_cases hc : s.contador + 1 > numTicks
      · rw [if_pos hc] at hnext
        rw [if_pos (hdvd.mpr hc)]
        simp [hc, hnext]
      · rw [if_neg hc, hP.pid] at hnext
        rw [if_neg (mt hdvd.mp hc)]
        simp [hc, hnext]
    | succ k =>
      have hdvd : numTicks + 1 ∣ s.contador + (k + 1 : ℕ) + 1 ↔
          numTicks + 1 ∣ (aposTick s q fs[q]).contador + k + 1 := by
        rw [numTicks_eq] at hhi
        simp only [aposTick, numTicks_eq]
        split_ifs <;> omega
      rw [List.length_cons, Nat.add_lt_add_iff_right] at hk
      simp only [hdvd, List.getElem_cons_succ]
      exact ih (hP.aposTick hq fs[q]) hk

/-- With the number of processes fixed, each round goes down through all of them. -/
theorem pid_eq (t : ℕ) (h : Execucao s fs p (List.replicate t .tick) log s') (hP : Pronto s fs p)
    (hs : s.processoId = (fs.length : ℤ) - 1) (hfs : fs ≠ []) :
    s'.pid = ((p : ℤ) - (s.contador + t) / (numTicks + 1)) % fs.length := by
  have hlen := List.length_pos_iff.mpr hfs
  have hle := hP.le
  obtain ⟨hlo, hhi⟩ := hP.contador
  induction t generalizing s p log with
  | zero =>
    obtain rfl : s = s' := by
      cases h
      rfl
    have hdiv : (s.contador + (0 : ℕ)) / (numTicks + 1) = 0 :=
      Int.ediv_eq_zero_of_lt (by omega) (by omega)
    rw [hdiv, sub_zero, Int.emod_eq_of_lt (by omega) (by omega), hP.pid]
  | succ t ih =>
    cases h with
    | @tick _ _ _ _ q _ log hq hnext h =>
      have hP' := hP.aposTick hq fs[q]
      have hrest := ih h hP' hs hP'.le hP'.contador.1 hP'.contador.2
      rw [hP.proximoPid_eq hfs] at hnext
      rw [hrest]
      rw [numTicks_eq] at hhi
      simp only [aposTick]
      by_cases hc : s.contador + 1 > numTicks
      · rw [if_pos hc] at hnext ⊢
        have hdiv : (s.contador + ((t + 1 : ℕ) : ℤ)) / (numTicks + 1)
            = (0 + t) / (numTicks + 1) + 1 := by
          rw [numTicks_eq] at hc ⊢
          omega
        rw [hdiv]
        by_cases h0 : p = 0
        · -- up to the last process, which is one below the first modulo their number
          rw [if_pos h0, hs] at hnext
          rw [← hnext, ← Int.sub_emod_right]
          congr 1
          omega
        · rw [if_neg h0] at hnext
          rw [← hnext]
          congr 1
          omega
      · rw [if_neg hc] at hnext ⊢
        rw [← hnext, Nat.cast_succ, ← add_assoc, add_right_comm]

theorem exists_of_cria {gs : List Corpo} (h : Execucao s fs p (gs.map .cria ++ es) log s')
    (hP : Pronto s fs p) (hs : s.processoId = (fs.length : ℤ) - 1) :
    ∃ s₁, Execucao s₁ (fs ++ gs) p es log s' ∧ Pronto s₁ (fs ++ gs) p ∧
      s₁.processoId = ((fs ++ gs).length : ℤ) - 1 ∧ s₁.contador = s.contador := by
  induction gs generalizing s fs with
  | nil => exact ⟨s, by simpa using h, by simpa using hP, by simpa using hs, rfl⟩
  | cons g gs ih =>
    cases h with
    | cria h =>
      obtain ⟨s₁, hexec, hP₁, hs₁, hcont⟩ := ih h (hP.aposCria g) (by simp [aposCria])
      rw [← List.append_cons] at hexec hP₁ hs₁
      exact ⟨s₁, hexec, hP₁, hs₁, hcont⟩

end Execucao

/-- **The scheduler is fair.** Creations and ticks are interleaved in any way, with a process before
the first tick and no more of them than the table holds. Every third tick selects a process and no
other does. Between two consecutive selections of process `0` every process that existed when
process `0` was left is selected exactly once, process `0` itself by the second of them. If all
processes exist from the start, process `-⌊t / 3⌋ mod n` is running after tick `t`. -/
theorem rodizio (es : List Evento) (hnum : (criados es).length ≤ numProcessos)
    (hfirst : ∀ e ∈ es.head?, e ≠ .tick) :
    ∃ log s, roda inicial es = .ok (log, s) ∧
      (∀ k (hk : k < log.length),
        if numTicks + 1 ∣ (k : ℤ) + 1 then log[k].escolhido = some log[k].pid
        else log[k].escolhido = none ∧ log[k].pid = log[k].antes) ∧
      (∀ A B C x y, selecoes log = A ++ x :: (B ++ y :: C) → x.1 = 0 → y.1 = 0 →
        (∀ z ∈ B, z.1 ≠ 0) → ∀ z ∈ (B ++ [y]).head?, ∀ i : ℕ, (i : ℤ) < z.2 →
          ((B ++ [y]).map Prod.fst).count (i : ℤ) = 1) ∧
      ∀ (fs : List Corpo) (t : ℕ), es = fs.map .cria ++ List.replicate t .tick →
        s.pid = (-((t : ℤ) / (numTicks + 1))) % fs.length := by
  obtain ⟨log, s, hrun, hexec⟩ := exists_execucao hnum hfirst
  refine ⟨log, s, hrun, fun k hk ↦ ?_, ?_, ?_⟩
  · have h := hexec.escolhido_eq Pronto.inicial hk
    rwa [show inicial.contador = 0 from rfl, zero_add] at h
  · intro A B C x y hsel hx hy hB z hz i hi
    have hchain := hexec.isChain_selecoes Pronto.inicial rfl 0
    exact count_of_segue (A := (0, 0) :: A) hchain (by rw [hsel]; rfl) hx hy hB hz hi
  · rintro fs t rfl
    obtain ⟨s₁, h, hP, hs, hcont⟩ := hexec.exists_of_cria Pronto.inicial rfl
    rw [List.nil_append] at h hP hs
    by_cases hfs : fs = []
    · -- then there is no tick
      subst hfs
      cases t with
      | zero =>
        cases h
        exact hP.pid
      | succ t => exact absurd rfl (hfirst .tick rfl)
    · rw [h.pid_eq t hP hs hfs, hcont, Nat.cast_zero, zero_sub]
      congr 3
      exact zero_add _

/-- A second process is created after the first selection, and takes part in the next round. -/
theorem rodizio_intercalado : ∃ log s,
    roda inicial (.cria processo1 :: List.replicate 3 .tick ++
      .cria processo2 :: List.replicate 6 .tick) = .ok (log, s) ∧
    selecoes log = [(0, 1), (1, 2), (0, 2)] ∧ ∀ i : ℕ, (i : ℤ) < 2 →
      ([((1, 2) : ℤ × ℤ), (0, 2)].map Prod.fst).count (i : ℤ) = 1 := by
  obtain ⟨log, s, hrun, -, hround, -⟩ := rodizio (.cria processo1 :: List.replicate 3 .tick ++
    .cria processo2 :: List.replicate 6 .tick) (by decide) (by simp)
  have hsel : (roda inicial (.cria processo1 :: List.replicate 3 .tick ++
      .cria processo2 :: List.replicate 6 .tick)).map (fun r ↦ selecoes r.1)
        = .ok [(0, 1), (1, 2), (0, 2)] := by decide +kernel
  rw [hrun, Except.map, Except.ok.injEq] at hsel
  exact ⟨log, s, hrun, hsel, hround [] [(1, 2)] [] (0, 1) (0, 2) hsel rfl rfl (by simp) (1, 2) rfl⟩

end SistemasOperacionais.Escalonador
