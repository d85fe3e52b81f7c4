import SistemasOperacionais.Foundations.Trace

/-!
# The process table

`proc.c`: the table `ptable` and the calls that create, end and collect processes. The sections
under `ptable.lock` are single steps, and so is every write that `fork` makes to a slot outside the
lock; between two steps of one process any other process may move.

`exit` and `wait` end their sections by switching to the scheduler, which releases the lock, and a
process that was asleep inside `wait` is resumed with the lock held and goes straight on with the
scan of the table. So the scan that follows a wake-up belongs to the step of the scheduler.

The other reasons for which a process sleeps (pipes, buffers, the log) are steps on channels that
are not the address of a process. Memory is not modelled: whether `kalloc` and `copyuvm` succeed is
a part of the step, so that they may fail at any time.
-/

namespace SistemasOperacionais.Xv6.Proc

open Foundations Function

def nproc : ℕ := 64

/-- A place of `ptable.proc`. -/
abbrev Slot := Fin nproc

/-- `enum procstate` -/
inductive Procstate
  | unused
  | embryo
  | sleeping
  | runnable
  | running
  | zombie
  deriving DecidableEq, Repr

namespace Procstate

/-- The process has started and has not exited. -/
def alive : Procstate → Bool
  | .sleeping | .runnable | .running => true
  | .unused | .embryo | .zombie => false

def started (st : Procstate) : Bool := st.alive || st == .zombie

theorem started_of_alive {st : Procstate} (h : st.alive = true) : st.started = true := by
  rw [started, h, Bool.true_or]

end Procstate

/-- What a process sleeps on: the address of a `struct proc`, or another address. -/
inductive Chan
  | proc (p : Slot)
  | addr (a : ℕ)
  deriving DecidableEq, Repr

/-- `struct proc`, the fields that the calls below read or write. A null `parent` or `chan` is
`none`. -/
structure Entry where
  state : Procstate
  pid : BitVec 32
  parent : Option Slot
  chan : Option Chan
  killed : Bool
  /-- Ghost state: which process this is, in the order of creation. -/
  num : ℕ
  deriving DecidableEq, Repr

/-- Where a process stands. -/
inductive Pc
  /-- Outside the calls below, or in a slot that holds no running process. -/
  | user
  /-- `fork`, in `allocproc`: the slot is taken, the kernel stack is next. -/
  | forkStack (np : Slot)
  /-- `fork`, before `copyuvm` -/
  | forkCopy (np : Slot)
  /-- `fork`, before `np->parent = proc` -/
  | forkParent (np : Slot)
  /-- `fork`, before `np->state = RUNNABLE` -/
  | forkReady (np : Slot)
  /-- `exit`, closing files, before `acquire(&ptable.lock)` -/
  | exiting
  /-- Asleep inside `wait`, or woken up there. -/
  | waiting
  deriving DecidableEq, Repr

/-- The slot that a call of `fork` has taken. -/
def Pc.child : Pc → Option Slot
  | .forkStack np | .forkCopy np | .forkParent np | .forkReady np => some np
  | .user | .exiting | .waiting => none

/-- What is recorded of a run. -/
inductive Event
  /-- A process ends. -/
  | exit (num : ℕ) (pid : BitVec 32)
  /-- `wait`, called by `caller`, returns `pid`, the process `num` whose parent is `parent`. -/
  | wait (caller : Slot) (parent : Option Slot) (num : ℕ) (pid : BitVec 32)
  deriving DecidableEq, Repr

structure State where
  proc : Slot → Entry
  pc : Slot → Pc
  /-- `nextpid`, counted without wrapping: the `int` is its value modulo `2 ^ 32`. -/
  nextpid : ℕ
  /-- Ghost state: the exits and the successful waits so far, in order. -/
  log : List Event

/-- `initproc`, the first slot. -/
def initproc : Slot := ⟨0, by decide⟩

namespace State

def setProc (s : State) (p : Slot) (e : Entry) : State := { s with proc := update s.proc p e }

def goto (s : State) (p : Slot) (pc : Pc) : State := { s with pc := update s.pc p pc }

def setState (s : State) (p : Slot) (st : Procstate) : State :=
  s.setProc p { s.proc p with state := st }

def record (s : State) (e : Event) : State := { s with log := s.log ++ [e] }

@[simp] theorem setProc_self (s : State) (p : Slot) (e : Entry) : (s.setProc p e).proc p = e :=
  update_self ..

theorem setProc_of_ne (s : State) {p q : Slot} (e : Entry) (h : q ≠ p) :
    (s.setProc p e).proc q = s.proc q := update_of_ne h ..

@[simp] theorem setProc_pc (s : State) (p : Slot) (e : Entry) : (s.setProc p e).pc = s.pc := rfl

@[simp] theorem setProc_log (s : State) (p : Slot) (e : Entry) : (s.setProc p e).log = s.log := rfl

@[simp] theorem setProc_nextpid (s : State) (p : Slot) (e : Entry) :
    (s.setProc p e).nextpid = s.nextpid := rfl

@[simp] theorem goto_proc (s : State) (p : Slot) (pc : Pc) : (s.goto p pc).proc = s.proc := rfl

@[simp] theorem goto_log (s : State) (p : Slot) (pc : Pc) : (s.goto p pc).log = s.log := rfl

@[simp] theorem goto_nextpid (s : State) (p : Slot) (pc : Pc) :
    (s.goto p pc).nextpid = s.nextpid := rfl

@[simp] theorem goto_self (s : State) (p : Slot) (pc : Pc) : (s.goto p pc).pc p = pc :=
  update_self ..

theorem goto_of_ne (s : State) {p q : Slot} (pc : Pc) (h : q ≠ p) : (s.goto p pc).pc q = s.pc q :=
  update_of_ne h ..

@[simp] theorem record_proc (s : State) (e : Event) : (s.record e).proc = s.proc := rfl

@[simp] theorem record_pc (s : State) (e : Event) : (s.record e).pc = s.pc := rfl

/-- `wakeup1(chan)`: each slot is looked at on its own. -/
def wakeup1 (s : State) (chan : Option Chan) : State :=
  { s with proc := fun q ↦
      if (s.proc q).state = .sleeping ∧ (s.proc q).chan = chan then
        { s.proc q with state := .runnable }
      else s.proc q }

/-! ### `fork` -/

/-- `p->state = EMBRYO; p->pid = nextpid++;` -/
def take (s : State) (np : Slot) : State :=
  { s.setProc np { s.proc np with
      state := .embryo
      pid := BitVec.ofNat 32 s.nextpid
      num := s.nextpid } with nextpid := s.nextpid + 1 }

/-- The section of `allocproc` under the lock. -/
def allocproc (s : State) (p : Slot) : State :=
  match (List.finRange nproc).find? fun q ↦ (s.proc q).state = .unused with
  | none => s
  | some np => (s.take np).goto p (.forkStack np)

/-- A failure exit of `fork`: `np->state = UNUSED`, and no other field is reset. -/
def forkFails (s : State) (p np : Slot) : State := (s.setState np .unused).goto p .user

/-! ### `exit` -/

/-- One round of the loop that passes abandoned children to init. -/
def abandon (p : Slot) (s : State) (q : Slot) : State :=
  if (s.proc q).parent = some p then
    let s := s.setProc q { s.proc q with parent := some initproc }
    if (s.proc q).state = .zombie then s.wakeup1 (some (.proc initproc)) else s
  else s

def passChildren (s : State) (p : Slot) : State := (List.finRange nproc).foldl (abandon p) s

/-- `proc->state = ZOMBIE` and the switch to the scheduler. -/
def die (s : State) (p : Slot) : State :=
  ((s.setState p .zombie).record (.exit (s.proc p).num (s.proc p).pid)).goto p .user

/-- The section of `exit` under the lock. -/
def exit (s : State) (p : Slot) : State :=
  ((s.wakeup1 ((s.proc p).parent.map .proc)).passChildren p).die p

/-! ### `wait` -/

/-- How a scan of the table for children ends. -/
inductive Scan
  | zombie (q : Slot)
  | none (havekids : Bool)
  deriving DecidableEq, Repr

/-- The scan of `wait`, over the slots that are left. -/
def scan (s : State) (p : Slot) : List Slot → Bool → Scan
  | [], havekids => .none havekids
  | q :: l, havekids =>
    if (s.proc q).parent ≠ some p then scan s p l havekids
    else if (s.proc q).state = .zombie then .zombie q
    else scan s p l true

/-- What `wait` does to the slot of a zombie child. -/
def reap (s : State) (p q : Slot) : State :=
  let s := s.record (.wait p (s.proc q).parent (s.proc q).num (s.proc q).pid)
  s.setProc q { s.proc q with state := .unused, pid := 0, parent := none, killed := false }

/-- One round of `wait` under the lock: it returns, or goes to sleep. -/
def wait (s : State) (p : Slot) : State :=
  match s.scan p (List.finRange nproc) false with
  | .zombie q => (s.reap p q).goto p .user
  | .none havekids =>
    if !havekids || (s.proc p).killed then s.goto p .user
    else (s.setProc p { s.proc p with chan := some (.proc p), state := .sleeping }).goto p .waiting

/-! ### `kill` -/

/-- `kill(pid)` and its result: the scan compares pids, whatever the state of the slot is. -/
def kill (s : State) (pid : BitVec 32) : State × ℤ :=
  match (List.finRange nproc).find? fun q ↦ (s.proc q).pid = pid with
  | none => (s, -1)
  | some q =>
    (s.setProc q { s.proc q with
      killed := true
      state := if (s.proc q).state = .sleeping then .runnable else (s.proc q).state }, 0)

/-! ### Scheduling -/

/-- The scheduler switches to `p`. A process that returns from `sleep` clears `chan`, and one that
slept in `wait` goes on with its loop. -/
def resume (s : State) (p : Slot) : State :=
  let s := s.setProc p { s.proc p with state := .running, chan := none }
  if s.pc p = .waiting then s.wait p else s

end State

/-! ## Steps -/

inductive Op
  | scheduler (p : Slot)
  | yield (p : Slot)
  /-- `sleep` on a channel that is not a process. -/
  | sleep (p : Slot) (a : ℕ)
  /-- `wakeup` on such a channel, from a process or an interrupt. -/
  | wakeup (a : ℕ)
  /-- `fork` is called: the section under the lock in `allocproc`. -/
  | allocproc (p : Slot)
  /-- `p->kstack = kalloc()` -/
  | kalloc (p : Slot) (ok : Bool)
  | copyuvm (p : Slot) (ok : Bool)
  /-- `np->parent = proc` -/
  | parent (p : Slot)
  /-- `np->state = RUNNABLE`, under the lock -/
  | ready (p : Slot)
  /-- `exit` is called. -/
  | close (p : Slot)
  | exit (p : Slot)
  | wait (p : Slot)
  | kill (p : Slot) (pid : BitVec 32)
  deriving DecidableEq, Repr

namespace State

/-- `p` is running and its next statement is at `pc`. -/
def at_ (s : State) (p : Slot) (pc : Pc) : Bool := (s.proc p).state = .running ∧ s.pc p = pc

def exec (s : State) : Op → Option State
  | .scheduler p => if (s.proc p).state = .runnable then some (s.resume p) else none
  | .yield p => if (s.proc p).state = .running then some (s.setState p .runnable) else none
  | .sleep p a =>
    if s.at_ p .user || s.at_ p .exiting then
      some (s.setProc p { s.proc p with chan := some (.addr a), state := .sleeping })
    else none
  | .wakeup a => some (s.wakeup1 (some (.addr a)))
  | .allocproc p => if s.at_ p .user then some (s.allocproc p) else none
  | .kalloc p ok =>
    match s.pc p with
    | .forkStack np =>
      if s.at_ p (.forkStack np) then
        some (if ok then s.goto p (.forkCopy np) else s.forkFails p np)
      else none
    | _ => none
  | .copyuvm p ok =>
    match s.pc p with
    | .forkCopy np =>
      if s.at_ p (.forkCopy np) then
        some (if ok then s.goto p (.forkParent np) else s.forkFails p np)
      else none
    | _ => none
  | .parent p =>
    match s.pc p with
    | .forkParent np =>
      if s.at_ p (.forkParent np) then
        some ((s.setProc np { s.proc np with parent := some p }).goto p (.forkReady np))
      else none
    | _ => none
  | .ready p =>
    match s.pc p with
    | .forkReady np =>
      if s.at_ p (.forkReady np) then some ((s.setState np .runnable).goto p .user) else none
    | _ => none
  -- `panic("init exiting")` otherwise
  | .close p => if s.at_ p .user ∧ p ≠ initproc then some (s.goto p .exiting) else none
  | .exit p => if s.at_ p .exiting then some (s.exit p) else none
  | .wait p => if s.at_ p .user then some (s.wait p) else none
  | .kill p pid => if s.at_ p .user then some (s.kill pid).1 else none

end State

def Step (s : State) (a : Op) (s' : State) : Prop := s.exec a = some s'

theorem at_iff {s : State} {p : Slot} {pc : Pc} :
    s.at_ p pc = true ↔ (s.proc p).state = .running ∧ s.pc p = pc := decide_eq_true_iff

/-- Everything a step can do, with what held before it. -/
inductive Move (s : State) : Op → State → Prop
  | scheduler {p : Slot} : (s.proc p).state = .runnable → Move s (.scheduler p) (s.resume p)
  | yield {p : Slot} : (s.proc p).state = .running → Move s (.yield p) (s.setState p .runnable)
  | sleep {p : Slot} {a : ℕ} : (s.proc p).state = .running → s.pc p = .user ∨ s.pc p = .exiting →
      Move s (.sleep p a) (s.setProc p { s.proc p with chan := some (.addr a), state := .sleeping })
  | wakeup {a : ℕ} : Move s (.wakeup a) (s.wakeup1 (some (.addr a)))
  | allocproc {p : Slot} : (s.proc p).state = .running → s.pc p = .user →
      Move s (.allocproc p) (s.allocproc p)
  | kalloc {p np : Slot} : (s.proc p).state = .running → s.pc p = .forkStack np →
      Move s (.kalloc p true) (s.goto p (.forkCopy np))
  | copyuvm {p np : Slot} : (s.proc p).state = .running → s.pc p = .forkCopy np →
      Move s (.copyuvm p true) (s.goto p (.forkParent np))
  | kallocFails {p np : Slot} : (s.proc p).state = .running → s.pc p = .forkStack np →
      Move s (.kalloc p false) (s.forkFails p np)
  | copyuvmFails {p np : Slot} : (s.proc p).state = .running → s.pc p = .forkCopy np →
      Move s (.copyuvm p false) (s.forkFails p np)
  | parent {p np : Slot} : (s.proc p).state = .running → s.pc p = .forkParent np →
      Move s (.parent p)
        ((s.setProc np { s.proc np with parent := some p }).goto p (.forkReady np))
  | ready {p np : Slot} : (s.proc p).state = .running → s.pc p = .forkReady np →
      Move s (.ready p) ((s.setState np .runnable).goto p .user)
  | close {p : Slot} : (s.proc p).state = .running → s.pc p = .user → p ≠ initproc →
      Move s (.close p) (s.goto p .exiting)
  | exit {p : Slot} : (s.proc p).state = .running → s.pc p = .exiting → Move s (.exit p) (s.exit p)
  | wait {p : Slot} : (s.proc p).state = .running → s.pc p = .user → Move s (.wait p) (s.wait p)
  | kill {p : Slot} {pid : BitVec 32} : (s.proc p).state = .running → s.pc p = .user →
      Move s (.kill p pid) (s.kill pid).1

theorem Step.move {s s' : State} {a : Op} (h : Step s a s') : Move s a s' := by
  rw [Step] at h
  cases a <;> simp only [State.exec, Option.ite_none_right_eq_some, Option.some.injEq] at h
  case scheduler p =>
    obtain ⟨hst, rfl⟩ := h
    exact .scheduler hst
  case yield p =>
    obtain ⟨hst, rfl⟩ := h
    exact .yield hst
  case sleep p a =>
    obtain ⟨hor, rfl⟩ := h
    rcases Bool.or_eq_true_iff.mp hor with hat | hat
    · exact .sleep (at_iff.mp hat).1 (Or.inl (at_iff.mp hat).2)
    · exact .sleep (at_iff.mp hat).1 (Or.inr (at_iff.mp hat).2)
  case wakeup a =>
    obtain rfl := h
    exact .wakeup
  case allocproc p =>
    obtain ⟨hat, rfl⟩ := h
    exact .allocproc (at_iff.mp hat).1 (at_iff.mp hat).2
  case kalloc p ok =>
    split at h
    · obtain ⟨hat, hs⟩ := Option.ite_none_right_eq_some.mp h
      obtain rfl := Option.some.inj hs
      cases ok with
      | false => exact .kallocFails (at_iff.mp hat).1 (at_iff.mp hat).2
      | true => exact .kalloc (at_iff.mp hat).1 (at_iff.mp hat).2
    · cases h
  case copyuvm p ok =>
    split at h
    · obtain ⟨hat, hs⟩ := Option.ite_none_right_eq_some.mp h
      obtain rfl := Option.some.inj hs
      cases ok with
      | false => exact .copyuvmFails (at_iff.mp hat).1 (at_iff.mp hat).2
      | true => exact .copyuvm (at_iff.mp hat).1 (at_iff.mp hat).2
    · cases h
  case parent p =>
    split at h
    · obtain ⟨hat, hs⟩ := Option.ite_none_right_eq_some.mp h
      obtain rfl := Option.some.inj hs
      exact .parent (at_iff.mp hat).1 (at_iff.mp hat).2
    · cases h
  case ready p =>
    split at h
    · obtain ⟨hat, hs⟩ := Option.ite_none_right_eq_some.mp h
      obtain rfl := Option.some.inj hs
      exact .ready (at_iff.mp hat).1 (at_iff.mp hat).2
    · cases h
  case close p =>
    obtain ⟨⟨hat, hne⟩, rfl⟩ := h
    exact .close (at_iff.mp hat).1 (at_iff.mp hat).2 hne
  case exit p =>
    obtain ⟨hat, rfl⟩ := h
    exact .exit (at_iff.mp hat).1 (at_iff.mp hat).2
  case wait p =>
    obtain ⟨hat, rfl⟩ := h
    exact .wait (at_iff.mp hat).1 (at_iff.mp hat).2
  case kill p pid =>
    obtain ⟨hat, rfl⟩ := h
    exact .kill (at_iff.mp hat).1 (at_iff.mp hat).2

/-- After `userinit`: init is ready to run and the rest of the table is zero. -/
def initial : State where
  proc p :=
    if p = initproc then ⟨.runnable, 1, none, none, false, 1⟩
    else ⟨.unused, 0, none, none, false, 0⟩
  pc _ := .user
  nextpid := 2
  log := []

end SistemasOperacionais.Xv6.Proc
