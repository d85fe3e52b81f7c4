import SistemasOperacionais.Xv6.Proc.Model

/-!
# Recycling the slots of the process table

A slot that holds no process should look as it did at boot, with `pid` and `killed` both zero:
`kill` compares pids without looking at the state, and `allocproc` does not clear `killed`. `wait`
resets both fields, the two failure exits of `fork` reset neither, and `kill(0)` finds the first
unused slot and marks it. Runs without these two mishaps keep every unused slot clean.
-/

namespace SistemasOperacionais.Xv6.Proc

open Foundations Function

/-- An unused slot as it was at boot. -/
def Clean (e : Entry) : Prop := e.state = .unused → e.pid = 0 ∧ e.killed = false

/-- The table holds no trace of processes that are gone. -/
def Recycled (s : State) : Prop := ∀ q, Clean (s.proc q)

/-- A step that neither runs out of memory in `fork` nor kills the process 0, which does not
exist. -/
def Sound (_ : State) : Op → Prop
  | .kalloc _ ok | .copyuvm _ ok => ok = true
  | .kill _ pid => pid ≠ 0
  | _ => True

section Recycled

variable {s s' : State} {p : Slot}

theorem Clean.of_ne {e : Entry} (h : e.state ≠ .unused) : Clean e := fun hu ↦ absurd hu h

namespace Recycled

variable (h : Recycled s)
include h

theorem setProc {e : Entry} (he : Clean e) : Recycled (s.setProc p e) := by
  intro q
  obtain rfl | hne := eq_or_ne q p
  · rw [State.setProc_self]
    exact he
  · rw [State.setProc_of_ne _ _ hne]
    exact h q

theorem goto {pc : Pc} : Recycled (s.goto p pc) := h

theorem record {e : Event} : Recycled (s.record e) := h

theorem setState {st : Procstate} (hst : st ≠ .unused) : Recycled (s.setState p st) :=
  h.setProc (Clean.of_ne hst)

theorem wakeup1 {chan : Option Chan} : Recycled (s.wakeup1 chan) := by
  intro q
  rw [State.wakeup1]
  dsimp only
  split
  · exact Clean.of_ne (by simp)
  · exact h q

theorem abandon {q : Slot} : Recycled (s.abandon p q) := by
  rw [State.abandon]
  dsimp only
  have hset : Recycled (s.setProc q { s.proc q with parent := some initproc }) := h.setProc (h q)
  split
  · split
    · exact hset.wakeup1
    · exact hset
  · exact h

theorem foldl_abandon {l : List Slot} : Recycled (l.foldl (State.abandon p) s) := by
  induction l generalizing s with
  | nil => exact h
  | cons q l ih => exact ih h.abandon

theorem exit : Recycled (s.exit p) := by
  have hpass : Recycled ((s.wakeup1 ((s.proc p).parent.map .proc)).passChildren p) :=
    h.wakeup1.foldl_abandon
  rw [State.exit, State.die]
  exact (hpass.setState (by decide)).record.goto

theorem wait : Recycled (s.wait p) := by
  rw [State.wait]
  split
  · exact h.setProc fun _ ↦ ⟨rfl, rfl⟩
  · split
    · exact h
    · exact h.setProc (Clean.of_ne (by simp))

theorem allocproc : Recycled (s.allocproc p) := by
  rw [State.allocproc]
  split
  · exact h
  · exact h.setProc (Clean.of_ne (by simp))

theorem resume : Recycled (s.resume p) := by
  have hrun : Recycled (s.setProc p { s.proc p with state := .running, chan := none }) :=
    h.setProc (Clean.of_ne (by simp))
  rw [State.resume]
  dsimp only
  split
  · exact hrun.wait
  · exact hrun

end Recycled

theorem used_of_find {pid : BitVec 32} {q : Slot} (h : Recycled s) (hpid : pid ≠ 0)
    (hq : (List.finRange nproc).find? (fun q ↦ (s.proc q).pid = pid) = some q) :
    (s.proc q).pid = pid ∧ (s.proc q).state ≠ .unused := by
  have heq : (s.proc q).pid = pid := by simpa using List.find?_some hq
  refine ⟨heq, fun hu ↦ hpid ?_⟩
  rw [← heq, (h q hu).1]

theorem Recycled.kill {pid : BitVec 32} (h : Recycled s) (hpid : pid ≠ 0) :
    Recycled (s.kill pid).1 := by
  rw [State.kill]
  split
  · exact h
  · rename_i q hq
    refine h.setProc (Clean.of_ne ?_)
    dsimp only
    split
    · decide
    · exact (used_of_find h hpid hq).2

theorem Recycled.step {a : Op} (h : Recycled s) (ha : Sound s a) (hs : Step s a s') :
    Recycled s' := by
  cases hs.move with
  | scheduler hst => exact h.resume
  | yield hst => exact h.setState (by decide)
  | sleep hst hpc => exact h.setProc (Clean.of_ne (by simp))
  | wakeup => exact h.wakeup1
  | allocproc hst hpc => exact h.allocproc
  | kalloc hst hpc => exact h
  | copyuvm hst hpc => exact h
  | kallocFails hst hpc => cases ha
  | copyuvmFails hst hpc => cases ha
  | parent hst hpc => exact h.setProc (h _)
  | ready hst hpc => exact h.setState (by decide)
  | close hst hpc hne => exact h
  | exit hst hpc => exact h.exit
  | wait hst hpc => exact h.wait
  | kill hst hpc => exact h.kill ha

theorem recycled_initial : Recycled initial := by
  intro q
  rw [initial]
  dsimp only
  split
  · exact Clean.of_ne (by simp)
  · exact fun _ ↦ ⟨rfl, rfl⟩

end Recycled

/-! ## Who sets `killed` -/

/-- No slot is marked in `s'` that was not marked in `s`. -/
def Spared (s s' : State) : Prop := ∀ q, (s'.proc q).killed = true → (s.proc q).killed = true

namespace Spared

variable {s s' s'' : State} {p : Slot}

theorem refl : Spared s s := fun _ h ↦ h

theorem trans (h : Spared s s') (h' : Spared s' s'') : Spared s s'' := fun q hq ↦ h q (h' q hq)

theorem goto {pc : Pc} : Spared s (s.goto p pc) := refl

theorem record {e : Event} : Spared s (s.record e) := refl

theorem setProc {e : Entry} (he : e.killed = true → (s.proc p).killed = true) :
    Spared s (s.setProc p e) := by
  intro q hq
  obtain rfl | hne := eq_or_ne q p
  · rw [State.setProc_self] at hq
    exact he hq
  · rwa [State.setProc_of_ne _ _ hne] at hq

theorem setState {st : Procstate} : Spared s (s.setState p st) := setProc id

theorem wakeup1 {chan : Option Chan} : Spared s (s.wakeup1 chan) := by
  intro q hq
  rw [State.wakeup1] at hq
  dsimp only at hq
  split at hq <;> exact hq

theorem abandon {q : Slot} : Spared s (s.abandon p q) := by
  have hset : Spared s (s.setProc q { s.proc q with parent := some initproc }) := setProc id
  rw [State.abandon]
  dsimp only
  split
  · split
    · exact hset.trans wakeup1
    · exact hset
  · exact refl

theorem foldl_abandon {l : List Slot} : Spared s (l.foldl (State.abandon p) s) := by
  induction l generalizing s with
  | nil => exact refl
  | cons q l ih => exact abandon.trans ih

theorem exit : Spared s (s.exit p) := by
  have hpass : Spared s ((s.wakeup1 ((s.proc p).parent.map .proc)).passChildren p) :=
    wakeup1.trans foldl_abandon
  rw [State.exit, State.die]
  exact ((hpass.trans setState).trans record).trans goto

theorem wait : Spared s (s.wait p) := by
  rw [State.wait]
  split
  · exact setProc fun h ↦ absurd h (by simp)
  · split
    · exact refl
    · exact setProc id

theorem allocproc : Spared s (s.allocproc p) := by
  rw [State.allocproc]
  split
  · exact refl
  · exact setProc id

theorem resume : Spared s (s.resume p) := by
  have hrun : Spared s (s.setProc p { s.proc p with state := .running, chan := none }) := setProc id
  rw [State.resume]
  dsimp only
  split
  · exact hrun.trans wait
  · exact hrun

end Spared

theorem kill_of_killed {s s' : State} {a : Op} {q : Slot} (hs : Step s a s')
    (hq : (s.proc q).killed = false) (hq' : (s'.proc q).killed = true) :
    ∃ p, a = .kill p (s.proc q).pid := by
  have hspared : Spared s s' → ∃ p, a = .kill p (s.proc q).pid := by
    intro h
    rw [h q hq'] at hq
    cases hq
  cases hs.move with
  | scheduler hst => exact hspared .resume
  | yield hst => exact hspared (.setProc id)
  | sleep hst hpc => exact hspared (.setProc id)
  | wakeup => exact hspared .wakeup1
  | allocproc hst hpc => exact hspared .allocproc
  | kalloc hst hpc => exact hspared .refl
  | copyuvm hst hpc => exact hspared .refl
  | kallocFails hst hpc => exact hspared (.setProc id)
  | copyuvmFails hst hpc => exact hspared (.setProc id)
  | parent hst hpc => exact hspared (.setProc id)
  | ready hst hpc => exact hspared (.setProc id)
  | close hst hpc hne => exact hspared .refl
  | exit hst hpc => exact hspared .exit
  | wait hst hpc => exact hspared .wait
  | @kill p pid hst hpc =>
    rw [State.kill] at hq'
    split at hq'
    · rw [hq] at hq'
      cases hq'
    · rename_i r hr
      obtain rfl | hne := eq_or_ne q r
      · have heq : (s.proc q).pid = pid := by simpa using List.find?_some hr
        exact ⟨p, by rw [heq]⟩
      · rw [State.setProc_of_ne _ _ hne, hq] at hq'
        cases hq'

/-! ## Runs -/

/-- `kill(pid)` returns 0 only if a process with that pid exists. -/
def KillFindsProcess (s : State) (a : Op) : Prop :=
  ∀ p pid, a = .kill p pid → (s.kill pid).2 = 0 →
    ∃ q, (s.proc q).state ≠ .unused ∧ (s.proc q).pid = pid

/-- A slot is not marked when it is taken, and later on only by a `kill` of its pid. -/
def StartsUnmarked (s : State) (a : Op) : Prop :=
  ∀ s' q, Step s a s' → ((s.proc q).state = .unused → (s'.proc q).killed = false) ∧
    ((s.proc q).killed = false → (s'.proc q).killed = true → ∃ p, a = .kill p (s.proc q).pid)

theorem Recycled.killFindsProcess {s : State} {a : Op} (h : Recycled s) (ha : Sound s a) :
    KillFindsProcess s a := by
  rintro p pid rfl hret
  rw [State.kill] at hret
  split at hret
  · cases hret
  · rename_i q hq
    obtain ⟨heq, hne⟩ := used_of_find h ha hq
    exact ⟨q, hne, heq⟩

theorem Recycled.startsUnmarked {s : State} {a : Op} (h : Recycled s) (ha : Sound s a) :
    StartsUnmarked s a := by
  intro s' q hs
  refine ⟨fun hu ↦ ?_, kill_of_killed hs⟩
  by_contra hk
  obtain ⟨p, rfl⟩ := kill_of_killed hs (h q hu).2 (Bool.eq_true_of_not_eq_false hk)
  exact ha (h q hu).1

/-- **Process slots are recycled clean** in the runs whose steps are all sound. -/
theorem recycled_of_trace {hist : List (State × Op)} {s : State} (t : Trace Step initial hist s)
    (hC : Trace.Guarded Sound hist) :
    Trace.Everywhere Recycled hist s ∧
      ∀ x ∈ hist, KillFindsProcess x.1 x.2 ∧ StartsUnmarked x.1 x.2 := by
  have hall := t.everywhere_of_guard recycled_initial Recycled.step hC
  refine ⟨hall, fun x hx ↦ ?_⟩
  have hrec := hall.1 x hx
  exact ⟨hrec.killFindsProcess (hC x hx), hrec.startsUnmarked (hC x hx)⟩

/-- The slot after that of init. -/
def second : Slot := ⟨1, by decide⟩

/-- init forks, kills the child, and collects it. -/
def forkKillWait : List Op :=
  [.scheduler initproc, .allocproc initproc, .kalloc initproc true, .copyuvm initproc true,
    .parent initproc, .ready initproc, .kill initproc 2, .scheduler second, .close second,
    .exit second, .wait initproc]

theorem recycled_of_trace_forkKillWait :
    ∃ hist s, Trace Step initial hist s ∧ hist.map Prod.snd = forkKillWait ∧ Recycled s := by
  have hrun : (execute State.exec initial forkKillWait).map (fun s ↦ (s.proc second).state)
      = some .unused := by decide +kernel
  obtain ⟨hist, s, t, hlab, -⟩ : ∃ hist s, Trace Step initial hist s ∧ _ :=
    exists_trace_of_execute_map (fun _ _ _ ↦ id) hrun
  have hsound : ∀ a ∈ forkKillWait, Sound initial a := by simp [forkKillWait, Sound]
  have hC : Trace.Guarded Sound hist := fun x hx ↦ hsound x.2 (hlab ▸ List.mem_map_of_mem hx)
  exact ⟨hist, s, t, hlab, (recycled_of_trace t hC).1.2⟩

/-- init forks and there is no memory for the kernel stack. -/
def forkFails : List Op := [.scheduler initproc, .allocproc initproc, .kalloc initproc false]

/-- The failed `fork` leaves an unused slot with the pid 2; a `kill` of that pid succeeds although
no process has it, and the next process in the slot starts out killed. Even without a failure,
`kill(0)` marks an unused slot. -/
theorem not_recycled :
    (∃ hist s, Trace Step initial hist s ∧ hist.map Prod.snd = forkFails ∧ ¬Recycled s ∧
      ¬KillFindsProcess s (.kill initproc 2)) ∧
    (∃ hist s, Trace Step initial hist s ∧
      hist.map Prod.snd = forkFails ++ [.kill initproc 2, .allocproc initproc] ∧
      (s.proc second).state = .embryo ∧ (s.proc second).killed = true) ∧
    ∃ hist s, Trace Step initial hist s ∧
      hist.map Prod.snd = [.scheduler initproc, .kill initproc 0] ∧ ¬Recycled s := by
  refine ⟨?_, ?_, ?_⟩
  · have hrun : (execute State.exec initial forkFails).map (fun s ↦ ((s.proc second).state,
        (s.proc second).pid, (s.kill 2).2, decide (∀ q, (s.proc q).state ≠ .unused →
          (s.proc q).pid ≠ 2))) = some (.unused, 2, 0, true) := by decide +kernel
    obtain ⟨hist, s, t, hlab, hend⟩ : ∃ hist s, Trace Step initial hist s ∧ _ :=
      exists_trace_of_execute_map (fun _ _ _ ↦ id) hrun
    simp only [Prod.mk.injEq, decide_eq_true_eq] at hend
    obtain ⟨hst, hpid, hret, hnone⟩ := hend
    refine ⟨hist, s, t, hlab, fun h ↦ ?_, fun h ↦ ?_⟩
    · have hzero := (h second hst).1
      rw [hpid] at hzero
      exact absurd hzero (by decide)
    · obtain ⟨q, hq, heq⟩ := h _ _ rfl hret
      exact hnone q hq heq
  · have hrun : (execute State.exec initial
        (forkFails ++ [.kill initproc 2, .allocproc initproc])).map
        (fun s ↦ ((s.proc second).state, (s.proc second).killed)) = some (.embryo, true) := by
      decide +kernel
    obtain ⟨hist, s, t, hlab, hend⟩ : ∃ hist s, Trace Step initial hist s ∧ _ :=
      exists_trace_of_execute_map (fun _ _ _ ↦ id) hrun
    exact ⟨hist, s, t, hlab, Prod.mk.inj hend⟩
  · have hrun : (execute State.exec initial [.scheduler initproc, .kill initproc 0]).map
        (fun s ↦ ((s.proc second).state, (s.proc second).killed)) = some (.unused, true) := by
      decide +kernel
    obtain ⟨hist, s, t, hlab, hend⟩ : ∃ hist s, Trace Step initial hist s ∧ _ :=
      exists_trace_of_execute_map (fun _ _ _ ↦ id) hrun
    obtain ⟨hst, hk⟩ := Prod.mk.inj hend
    refine ⟨hist, s, t, hlab, fun h ↦ ?_⟩
    have hfalse := (h second hst).2
    rw [hk] at hfalse
    cases hfalse

end SistemasOperacionais.Xv6.Proc
