import SistemasOperacionais.Foundations.Trace
import SistemasOperacionais.Foundations.Threads

/-!
# A counter shared by threads

`ex_thread.c` and `ex_thread.py`: threads that together count up to a bound. Every access to the
counter `x` and to the mutex is a step.

The C program tests the bound before it takes the mutex. A thread that has passed the test
increments whatever the others have done in the meantime, so the counter ends up to one less than
the number of threads above the bound (`mythread_limite`), and some run does get above it as soon as
there are two threads. The Python program tests under the mutex, where nobody else can increment,
and this is enough for any number of threads.
-/

namespace SistemasOperacionais.Contador

open Foundations Function

/-- The shared variables `x` and `count_mutex` (in Python `mutex`). -/
structure Comum where
  x : ℕ
  mutex : Bool
deriving DecidableEq

/-- A program: the bound, the place where its threads start, the place where they have finished,
and the statement at each place; `none` while a thread has to wait. -/
structure Programa (α : Type) where
  limite : ℕ
  inicio : α
  fim : α
  passo : Comum → α → Option (Comum × α)

/-! ## The two programs -/

/-- The next statement of `mythread`. -/
inductive PcC
  /-- `while( x < 2000 )` -/
  | testa
  /-- `pthread_mutex_lock( &count_mutex )` -/
  | trava
  /-- `++x` -/
  | incrementa
  /-- `pthread_mutex_unlock( &count_mutex )` -/
  | destrava
  /-- `printf`, which reads `x` -/
  | imprime
  /-- after `pthread_exit` -/
  | fim
deriving DecidableEq

def mythread (m : Comum) : PcC → Option (Comum × PcC)
  | .testa => some (m, if m.x < 2000 then .trava else .fim)
  | .trava => if m.mutex then none else some ({ m with mutex := true }, .incrementa)
  | .incrementa => some ({ m with x := m.x + 1 }, .destrava)
  | .destrava => some ({ m with mutex := false }, .imprime)
  | .imprime => some (m, .testa)
  | .fim => none

/-- The next statement of `ExThread.run`. -/
inductive PcPython
  /-- `mutex.acquire()` -/
  | adquire
  /-- `if x < 200` -/
  | testa
  /-- `x+=1` -/
  | incrementa
  /-- `print`, which reads `x` -/
  | imprime
  /-- `mutex.release()` -/
  | libera
  /-- `if x >= 200` -/
  | verifica
  /-- after `break` -/
  | fim
deriving DecidableEq

def run (m : Comum) : PcPython → Option (Comum × PcPython)
  | .adquire => if m.mutex then none else some ({ m with mutex := true }, .testa)
  | .testa => some (m, if m.x < 200 then .incrementa else .libera)
  | .incrementa => some ({ m with x := m.x + 1 }, .imprime)
  | .imprime => some (m, .libera)
  | .libera => some ({ m with mutex := false }, .verifica)
  | .verifica => some (m, if 200 ≤ m.x then .fim else .adquire)
  | .fim => none

def exThreadC : Programa PcC := ⟨2000, .testa, .fim, mythread⟩

def exThreadPython : Programa PcPython := ⟨200, .adquire, .fim, run⟩

/-! ## Runs -/

section Runs

variable {α ι : Type} [DecidableEq ι]

def inicial (P : Programa α) (ι : Type) : Threads Comum α ι := ⟨⟨0, false⟩, fun _ ↦ P.inicio⟩

def executa (P : Programa α) (s : Threads Comum α ι) (i : ι) : Option (Threads Comum α ι) :=
  Threads.step (fun _ ↦ P.passo) s i

def Passo (P : Programa α) (s : Threads Comum α ι) (i : ι) (s' : Threads Comum α ι) : Prop :=
  executa P s i = some s'

/-- The states that the threads `ι` reach. -/
def Alcanca (P : Programa α) (s : Threads Comum α ι) : Prop := Reachable (Passo P) (inicial P ι) s

/-- The counter stays within the bound, and has come to it when all threads have finished. -/
def Correto (P : Programa α) (ι : Type) [DecidableEq ι] : Prop :=
  ∀ s : Threads Comum α ι, Alcanca P s →
    s.shared.x ≤ P.limite ∧ ((∀ i, s.loc i = P.fim) → s.shared.x = P.limite)

variable {P : Programa α} {s s' : Threads Comum α ι} {i : ι}

theorem passo_iff : Passo P s i s' ↔
    ∃ m a, P.passo s.shared (s.loc i) = some (m, a) ∧ s' = ⟨m, update s.loc i a⟩ :=
  Threads.step_eq_some

theorem Alcanca.induct {I : Threads Comum α ι → Prop} (h0 : I (inicial P ι))
    (keep : ∀ s i m a, I s → P.passo s.shared (s.loc i) = some (m, a) →
      I ⟨m, update s.loc i a⟩) (h : Alcanca P s) : I s := by
  obtain ⟨hist, t⟩ := h
  refine t.invariant h0 fun {s i s'} hi hs ↦ ?_
  obtain ⟨m, a, hstep, rfl⟩ := passo_iff.mp hs
  exact keep s i m a hi hstep

theorem Alcanca.execute {l : List ι} (h : Alcanca P s)
    (hl : Foundations.execute (executa P) s l = some s') : Alcanca P s' := by
  induction l generalizing s with
  | nil =>
    rw [Foundations.execute, Option.some.injEq] at hl
    rwa [← hl]
  | cons i l ih =>
    obtain ⟨s₁, hs, hrest⟩ := Option.bind_eq_some_iff.mp hl
    obtain ⟨hist, t⟩ := h
    exact ih ⟨_, t.snoc hs⟩ hrest

theorem not_correto_of_isEmpty [IsEmpty ι] (hP : P.limite ≠ 0) : ¬Correto P ι := by
  intro h
  have hfim := (h (inicial P ι) ⟨[], .nil⟩).2 fun i ↦ isEmptyElim i
  exact hP hfim.symm

/-- The threads that have finished have seen the bound reached: a step that does not count down and
that finishes at the bound only keeps this. -/
theorem fim_update {x x' : ℕ} {loc : ι → α} {a : α} (h : ∀ j, loc j = P.fim → P.limite ≤ x)
    (hx : x ≤ x') (ha : a = P.fim → P.limite ≤ x') (j : ι) (hj : update loc i a j = P.fim) :
    P.limite ≤ x' := by
  obtain rfl | hne := eq_or_ne j i
  · exact ha (update_self j a loc ▸ hj)
  · rw [update_of_ne hne] at hj
    exact (h j hj).trans hx

theorem correto_of_nonempty [Nonempty ι]
    (hfim : ∀ s, Alcanca P s → ∀ i : ι, s.loc i = P.fim → P.limite ≤ s.shared.x)
    (hmax : ∀ s : Threads Comum α ι, Alcanca P s → s.shared.x ≤ P.limite) : Correto P ι := by
  intro s hs
  refine ⟨hmax s hs, fun hall ↦ ?_⟩
  obtain ⟨i⟩ := ‹Nonempty ι›
  exact le_antisymm (hmax s hs) (hfim s hs i (hall i))

end Runs

/-! ## The C program -/

section C

/-- The thread has passed the test and has not incremented yet. -/
def PcC.passou : PcC → Bool
  | .trava | .incrementa => true
  | _ => false

variable {ι : Type} [Fintype ι]

/-- Each thread that has passed the test will count once more. -/
structure InvC (s : Threads Comum PcC ι) : Prop where
  conta : s.shared.x + tally PcC.passou s.loc < 2000 + Fintype.card ι
  fim : ∀ i, s.loc i = exThreadC.fim → exThreadC.limite ≤ s.shared.x

variable [DecidableEq ι] {s : Threads Comum PcC ι}

theorem InvC.of_le {x : ℕ} {mutex : Bool} {loc : ι → PcC} (hi : InvC ⟨⟨x, mutex⟩, loc⟩) {i : ι}
    {m : Comum} {a : PcC} (hx : x ≤ m.x)
    (hsum : m.x + tally PcC.passou (update loc i a) ≤ x + tally PcC.passou loc)
    (hfim : a = .fim → 2000 ≤ m.x) : InvC ⟨m, update loc i a⟩ where
  conta := hsum.trans_lt hi.conta
  fim := fim_update hi.fim hx hfim

theorem InvC.passo (hi : InvC s) (i : ι) {m : Comum} {a : PcC}
    (h : mythread s.shared (s.loc i) = some (m, a)) : InvC ⟨m, update s.loc i a⟩ := by
  obtain ⟨⟨x, mutex⟩, loc⟩ := s
  have htally := tally_update PcC.passou loc i a
  change mythread ⟨x, mutex⟩ (loc i) = some (m, a) at h
  generalize loc i = pc at h htally
  cases pc with
  | testa =>
    obtain ⟨rfl, rfl⟩ := Prod.mk.inj (Option.some.inj h)
    by_cases hx : x < 2000
    · -- the number of those that have passed grows, but not above the number of threads
      rw [if_pos hx]
      constructor
      · exact Nat.add_lt_add_of_lt_of_le hx (tally_le_card ..)
      · exact fim_update hi.fim le_rfl fun hf ↦ by cases hf
    · rw [if_neg hx] at htally ⊢
      exact hi.of_le le_rfl (Nat.add_le_add_left htally.le x) fun _ ↦ not_lt.mp hx
  | trava =>
    obtain ⟨-, h⟩ := Option.ite_none_left_eq_some.mp h
    obtain ⟨rfl, rfl⟩ := Prod.mk.inj (Option.some.inj h)
    have hsame := Nat.add_right_cancel htally
    exact hi.of_le le_rfl (Nat.add_le_add_left hsame.le x) fun hf ↦ by cases hf
  | incrementa =>
    obtain ⟨rfl, rfl⟩ := Prod.mk.inj (Option.some.inj h)
    refine hi.of_le (Nat.le_succ x) ?_ fun hf ↦ by cases hf
    change tally PcC.passou (update loc i .destrava) + 1 = tally PcC.passou loc + 0 at htally
    change x + 1 + tally PcC.passou (update loc i .destrava) ≤ x + tally PcC.passou loc
    omega
  | destrava =>
    obtain ⟨rfl, rfl⟩ := Prod.mk.inj (Option.some.inj h)
    exact hi.of_le le_rfl (Nat.add_le_add_left htally.le x) fun hf ↦ by cases hf
  | imprime =>
    obtain ⟨rfl, rfl⟩ := Prod.mk.inj (Option.some.inj h)
    exact hi.of_le le_rfl (Nat.add_le_add_left htally.le x) fun hf ↦ by cases hf
  | fim => cases h

/-- **How far the C program gets.** -/
theorem invC_of_alcanca (h : Alcanca exThreadC s) : InvC s := by
  refine h.induct ⟨?_, fun i hf ↦ ?_⟩ fun s i m a hi ↦ hi.passo i
  · have hzero : tally PcC.passou (inicial exThreadC ι).loc = 0 := tally_eq_zero fun _ ↦ rfl
    rw [hzero]
    exact Nat.lt_add_right _ (by decide : 0 < 2000)
  · cases hf

theorem mythread_limite (h : Alcanca exThreadC s) : s.shared.x < 2000 + Fintype.card ι :=
  (Nat.le_add_right ..).trans_lt (invC_of_alcanca h).conta

omit [Fintype ι] in
theorem execute_volta {x : ℕ} (hx : x < 2000) {loc : ι → PcC} {i : ι} (hi : loc i = .testa) :
    execute (executa exThreadC) ⟨⟨x, false⟩, loc⟩ [i, i, i, i, i] = some ⟨⟨x + 1, false⟩, loc⟩ := by
  have hback : update loc i PcC.testa = loc := by rw [← hi, update_eq_self]
  simp [execute, executa, Threads.step, exThreadC, mythread, hi, hx, hback]

omit [Fintype ι] in
theorem alcanca_sozinho (i : ι) {n : ℕ} (hn : n ≤ 2000) :
    Alcanca exThreadC (⟨⟨n, false⟩, fun _ ↦ .testa⟩ : Threads Comum PcC ι) := by
  induction n with
  | zero => exact ⟨[], .nil⟩
  | succ n ih =>
    exact (ih (Nat.le_of_succ_le hn)).execute (execute_volta (i := i) hn rfl)

omit [Fintype ι] in
/-- **Two threads get above the bound**: both pass the test at 1999. -/
theorem mythread_excede {i j : ι} (hij : i ≠ j) :
    ∃ s : Threads Comum PcC ι, Alcanca exThreadC s ∧ s.shared.x = 2001 := by
  have hboth : ∃ s, execute (executa exThreadC)
      (⟨⟨1999, false⟩, fun _ ↦ .testa⟩ : Threads Comum PcC ι) [i, j, i, i, i, j, j] = some s ∧
      s.shared.x = 2001 := by
    simp [execute, executa, Threads.step, exThreadC, mythread, update_of_ne hij,
      update_of_ne hij.symm]
  obtain ⟨s, hs, hx⟩ := hboth
  exact ⟨s, (alcanca_sozinho i (by decide)).execute hs, hx⟩

theorem correto_c_iff : Correto exThreadC ι ↔ Fintype.card ι = 1 := by
  constructor
  · intro h
    by_contra hcard
    rcases isEmpty_or_nonempty ι with hempty | hnonempty
    · exact not_correto_of_isEmpty (P := exThreadC) (by decide) h
    · have htwo : 1 < Fintype.card ι := by
        have hpos := Fintype.card_pos (α := ι)
        omega
      obtain ⟨i, j, hij⟩ := Fintype.exists_pair_of_one_lt_card htwo
      obtain ⟨s, hs, hx⟩ := mythread_excede hij
      have hmax := (h s hs).1
      rw [hx] at hmax
      exact absurd hmax (by decide)
  · intro hcard
    have hnonempty : Nonempty ι := Fintype.card_pos_iff.mp (hcard ▸ Nat.one_pos)
    refine correto_of_nonempty (fun s hs ↦ (invC_of_alcanca hs).fim) fun s hs ↦ ?_
    have hmax := mythread_limite hs
    rw [hcard] at hmax
    exact Nat.le_of_lt_succ hmax

end C

/-! ## The Python program -/

section Python

/-- The thread holds the mutex. -/
def PcPython.dentro : PcPython → Bool
  | .testa | .incrementa | .imprime | .libera => true
  | _ => false

variable {ι : Type} [Fintype ι]

/-- One thread at most holds the mutex, and what it has seen of the counter is still true. -/
structure InvPython (s : Threads Comum PcPython ι) : Prop where
  mutex : tally PcPython.dentro s.loc = s.shared.mutex.toNat
  maximo : s.shared.x ≤ 200
  sabe : ∀ i, s.loc i = .incrementa → s.shared.x < 200
  fim : ∀ i, s.loc i = exThreadPython.fim → exThreadPython.limite ≤ s.shared.x

variable [DecidableEq ι] {s : Threads Comum PcPython ι}

theorem InvPython.of_mutex {x : ℕ} {mutex : Bool} {loc : ι → PcPython}
    (hi : InvPython ⟨⟨x, mutex⟩, loc⟩) {i : ι} {a : PcPython} (mutex' : Bool)
    (hm : tally PcPython.dentro (update loc i a) = mutex'.toNat) (ha : a = .incrementa → x < 200)
    (hfim : a = .fim → 200 ≤ x) : InvPython ⟨⟨x, mutex'⟩, update loc i a⟩ where
  mutex := hm
  maximo := hi.maximo
  sabe j hj := by
    obtain rfl | hne := eq_or_ne j i
    · exact ha (update_self j a loc ▸ hj)
    · exact hi.sabe j ((update_of_ne hne a loc).symm.trans hj)
  fim := fim_update hi.fim le_rfl hfim

theorem InvPython.passo (hi : InvPython s) (i : ι) {m : Comum} {a : PcPython}
    (h : run s.shared (s.loc i) = some (m, a)) : InvPython ⟨m, update s.loc i a⟩ := by
  obtain ⟨⟨x, mutex⟩, loc⟩ := s
  have hmutex : tally PcPython.dentro loc = mutex.toNat := hi.mutex
  have htally := tally_update PcPython.dentro loc i a
  change run ⟨x, mutex⟩ (loc i) = some (m, a) at h
  generalize hpc : loc i = pc at h htally
  cases pc with
  | adquire =>
    obtain ⟨hfree, h⟩ := Option.ite_none_left_eq_some.mp h
    obtain ⟨rfl, rfl⟩ := Prod.mk.inj (Option.some.inj h)
    have hzero : mutex = false := eq_false_of_ne_true hfree
    rw [hmutex, hzero] at htally
    exact hi.of_mutex true htally (fun ha ↦ by cases ha) fun hf ↦ by cases hf
  | testa =>
    obtain ⟨rfl, rfl⟩ := Prod.mk.inj (Option.some.inj h)
    by_cases hx : x < 200
    · rw [if_pos hx] at htally ⊢
      have hsame := Nat.add_right_cancel htally
      exact hi.of_mutex mutex (hsame.trans hmutex) (fun _ ↦ hx) fun hf ↦ by cases hf
    · rw [if_neg hx] at htally ⊢
      have hsame := Nat.add_right_cancel htally
      exact hi.of_mutex mutex (hsame.trans hmutex) (fun ha ↦ by cases ha) fun hf ↦ by cases hf
  | incrementa =>
    obtain ⟨rfl, rfl⟩ := Prod.mk.inj (Option.some.inj h)
    have hsame := Nat.add_right_cancel htally
    refine ⟨hsame.trans hmutex, hi.sabe i hpc, fun j hj ↦ ?_,
      fim_update hi.fim (Nat.le_succ x) fun hf ↦ by cases hf⟩
    -- no other thread stands before its increment, since it would hold the mutex too
    obtain rfl | hne := eq_or_ne j i
    · have himprime : PcPython.imprime = .incrementa := (update_self j _ loc).symm.trans hj
      cases himprime
    · have hj : loc j = .incrementa := (update_of_ne hne _ loc).symm.trans hj
      have hone : tally PcPython.dentro loc ≤ 1 := hmutex ▸ mutex.toNat_le
      exact absurd (eq_of_tally_le_one hone (i := j) (j := i) (by rw [hj]; rfl)
        (by rw [hpc]; rfl)) hne
  | imprime =>
    obtain ⟨rfl, rfl⟩ := Prod.mk.inj (Option.some.inj h)
    have hsame := Nat.add_right_cancel htally
    exact hi.of_mutex mutex (hsame.trans hmutex) (fun ha ↦ by cases ha) fun hf ↦ by cases hf
  | libera =>
    obtain ⟨rfl, rfl⟩ := Prod.mk.inj (Option.some.inj h)
    have hone := mutex.toNat_le
    change tally PcPython.dentro (update loc i .verifica) + 1 = tally PcPython.dentro loc + 0
      at htally
    refine hi.of_mutex false ?_ (fun ha ↦ by cases ha) fun hf ↦ by cases hf
    change tally PcPython.dentro (update loc i .verifica) = 0
    omega
  | verifica =>
    obtain ⟨rfl, rfl⟩ := Prod.mk.inj (Option.some.inj h)
    by_cases hx : 200 ≤ x
    · rw [if_pos hx] at htally ⊢
      exact hi.of_mutex mutex (htally.trans hmutex) (fun ha ↦ by cases ha) fun _ ↦ hx
    · rw [if_neg hx] at htally ⊢
      exact hi.of_mutex mutex (htally.trans hmutex) (fun ha ↦ by cases ha) fun hf ↦ by cases hf
  | fim => cases h

theorem invPython_of_alcanca (h : Alcanca exThreadPython s) : InvPython s := by
  refine h.induct ⟨?_, Nat.zero_le _, fun i hj ↦ ?_, fun i hf ↦ ?_⟩ fun s i m a hi ↦ hi.passo i
  · exact tally_eq_zero fun _ ↦ rfl
  · cases hj
  · cases hf

theorem correto_python_iff : Correto exThreadPython ι ↔ 0 < Fintype.card ι := by
  constructor
  · intro h
    by_contra hcard
    have hempty : IsEmpty ι := Fintype.card_eq_zero_iff.mp (Nat.eq_zero_of_not_pos hcard)
    exact not_correto_of_isEmpty (P := exThreadPython) (by decide) h
  · intro hcard
    have hnonempty : Nonempty ι := Fintype.card_pos_iff.mp hcard
    exact correto_of_nonempty (fun s hs ↦ (invPython_of_alcanca hs).fim)
      fun s hs ↦ (invPython_of_alcanca hs).maximo

end Python

/-- **The shared counter.** In C the bound is kept by one thread and by no other number of threads;
in Python it is kept whenever there is a thread. -/
theorem contador_iff (ι : Type) [Fintype ι] [DecidableEq ι] :
    (Correto exThreadC ι ↔ Fintype.card ι = 1) ∧ (Correto exThreadPython ι ↔ 0 < Fintype.card ι) :=
  ⟨correto_c_iff, correto_python_iff⟩

/-- The ten threads of the C program get above 2000. -/
theorem contador_dez : ∃ s : Threads Comum PcC (Fin 10),
    Alcanca exThreadC s ∧ exThreadC.limite < s.shared.x := by
  obtain ⟨s, hs, hx⟩ := mythread_excede (i := (0 : Fin 10)) (j := 1) (by decide)
  refine ⟨s, hs, ?_⟩
  rw [hx]
  decide

end SistemasOperacionais.Contador
