import SistemasOperacionais.Xv6.Proc.Model

/-!
# `sleep` and `wakeup`, statement by statement

The part of `proc.c` that switches between processes: `scheduler`, `sched`, `yield`, `sleep` and
`wakeup`, with every statement a step of its own, on any number of processors. Locks belong to
processors, as they do in `spinlock.c`, which is what lets `ptable.lock` be taken by the scheduler
and released by the process it has switched to.

A context is a process or the scheduler of a processor, and has a stack of frames. The frame `code`
stands for kernel code that is not modelled: it may take and release locks, call the functions
below, and wake or start other processes while it holds `ptable.lock`, as `kill`, `exit` and `fork`
do. Interrupts push another `code`; they are off while the processor holds a lock.
-/

namespace SistemasOperacionais.Xv6.Sleep

open Foundations Function
open Proc (Procstate)

/-- The locks, `ptable.lock` apart from the others. -/
inductive Lock
  | ptable
  | other (a : ℕ)
  deriving DecidableEq, Repr

/-- The next statement of a function that has been called. -/
inductive Frame (n : ℕ)
  | code
  /-- `sleep`: the test of `lk`, and `acquire(&ptable.lock)` -/
  | sleepEnter (chan : ℕ) (lk : Lock)
  /-- `release(lk)`, where `lk` is not `ptable.lock` -/
  | sleepRelease (chan a : ℕ)
  /-- `proc->chan = chan` -/
  | sleepChan (chan : ℕ) (lk : Lock)
  /-- `proc->state = SLEEPING` -/
  | sleepState (chan : ℕ) (lk : Lock)
  /-- `sched()` -/
  | sleepSched (chan : ℕ) (lk : Lock)
  /-- switched away in `sched` -/
  | asleep (chan : ℕ) (lk : Lock)
  /-- `proc->chan = 0` -/
  | sleepTidy (lk : Lock)
  /-- `release(&ptable.lock)`, if `lk` is another lock -/
  | sleepUnlock (a : ℕ)
  /-- `acquire(lk)` -/
  | sleepRelock (a : ℕ)
  | sleepReturn (lk : Lock)
  /-- `wakeup`: `acquire(&ptable.lock)` -/
  | wakeupEnter (chan : ℕ)
  /-- the loop of `wakeup1`, with the slots that are left -/
  | wakeupLoop (chan : ℕ) (rest : List (Fin n))
  /-- `release(&ptable.lock)` -/
  | wakeupLeave (chan : ℕ)
  /-- `yield`: `acquire(&ptable.lock)` -/
  | yieldEnter
  /-- `proc->state = RUNNABLE` -/
  | yieldState
  | yieldSched
  | yielded
  /-- `release(&ptable.lock)` of `yield` and of `forkret` -/
  | yieldLeave
  /-- `exit`, with the lock held: `proc->state = ZOMBIE` -/
  | exitState
  | exitSched
  | exited
  /-- `scheduler`: `acquire(&ptable.lock)` -/
  | idle
  /-- the loop of `scheduler` over the table, with the lock held -/
  | scan
  deriving DecidableEq, Repr

/-- The fields of `struct proc` that matter here. -/
structure Entry where
  state : Procstate
  chan : ℕ
  deriving DecidableEq, Repr

/-- A process or the scheduler of a processor. -/
abbrev Context (κ : Type*) (n : ℕ) := Fin n ⊕ κ

structure State (κ : Type*) (n : ℕ) where
  proc : Fin n → Entry
  stack : Context κ n → List (Frame n)
  /-- What each processor executes. -/
  run : κ → Context κ n
  /-- Which processor holds a lock. -/
  lock : Lock → Option κ
  /-- The locks a processor holds; `cpu->ncli` is their number. -/
  held : κ → List Lock

variable {κ : Type*} {n : ℕ} [DecidableEq κ]

namespace State

def setStack (s : State κ n) (x : Context κ n) (l : List (Frame n)) : State κ n :=
  { s with stack := update s.stack x l }

def setProc (s : State κ n) (p : Fin n) (e : Entry) : State κ n :=
  { s with proc := update s.proc p e }

omit [DecidableEq κ] in
@[simp] theorem setProc_self (s : State κ n) (p : Fin n) (e : Entry) :
    (s.setProc p e).proc p = e := update_self ..

omit [DecidableEq κ] in
theorem setProc_of_ne (s : State κ n) {p q : Fin n} (e : Entry) (h : q ≠ p) :
    (s.setProc p e).proc q = s.proc q := update_of_ne h ..

def setState (s : State κ n) (p : Fin n) (st : Procstate) : State κ n :=
  s.setProc p ⟨st, (s.proc p).chan⟩

def setChan (s : State κ n) (p : Fin n) (chan : ℕ) : State κ n :=
  s.setProc p ⟨(s.proc p).state, chan⟩

/-- The processor goes on with another context. -/
def swtch (s : State κ n) (c : κ) (x : Context κ n) : State κ n :=
  { s with run := update s.run c x }

/-- `acquire(l)`: it waits while the lock is taken, and panics if this processor holds it. -/
def acquire (s : State κ n) (c : κ) (l : Lock) : Option (State κ n) :=
  if s.lock l = none then
    some { s with lock := update s.lock l (some c), held := update s.held c (l :: s.held c) }
  else none

/-- `release(l)`; a panic unless the processor holds the lock. -/
def release (s : State κ n) (c : κ) (l : Lock) : Option (State κ n) :=
  if s.lock l = some c then
    some { s with lock := update s.lock l none, held := update s.held c ((s.held c).erase l) }
  else none

/-- `sched()`: a panic unless `ptable.lock` is held, alone, and the state is not `RUNNING`. The
processor goes back to its scheduler, and `f` is where the process will go on. -/
def sched (s : State κ n) (c : κ) (p : Fin n) (f : Frame n) (rest : List (Frame n)) :
    Option (State κ n) :=
  if s.lock .ptable = some c ∧ (s.held c).length = 1 ∧ (s.proc p).state ≠ .running then
    some ((s.setStack (.inl p) (f :: rest)).swtch c (.inr c))
  else none

/-- One round of the loop of `wakeup1`. -/
def wake (s : State κ n) (chan : ℕ) (p : Fin n) : State κ n :=
  if (s.proc p).state = .sleeping ∧ (s.proc p).chan = chan then s.setState p .runnable else s

def stepProc (s : State κ n) (c : κ) (p : Fin n) (rest : List (Frame n)) :
    Frame n → Option (State κ n)
  | .sleepEnter chan (.other a) =>
    (s.acquire c .ptable).map fun s ↦ s.setStack (.inl p) (.sleepRelease chan a :: rest)
  | .sleepEnter chan .ptable => some (s.setStack (.inl p) (.sleepChan chan .ptable :: rest))
  | .sleepRelease chan a =>
    (s.release c (.other a)).map fun s ↦ s.setStack (.inl p) (.sleepChan chan (.other a) :: rest)
  | .sleepChan chan lk => some ((s.setChan p chan).setStack (.inl p) (.sleepState chan lk :: rest))
  | .sleepState chan lk =>
    some ((s.setState p .sleeping).setStack (.inl p) (.sleepSched chan lk :: rest))
  | .sleepSched chan lk => s.sched c p (.asleep chan lk) rest
  | .sleepTidy (.other a) => some ((s.setChan p 0).setStack (.inl p) (.sleepUnlock a :: rest))
  | .sleepTidy .ptable => some ((s.setChan p 0).setStack (.inl p) (.sleepReturn .ptable :: rest))
  | .sleepUnlock a =>
    (s.release c .ptable).map fun s ↦ s.setStack (.inl p) (.sleepRelock a :: rest)
  | .sleepRelock a =>
    (s.acquire c (.other a)).map fun s ↦ s.setStack (.inl p) (.sleepReturn (.other a) :: rest)
  | .sleepReturn _ => some (s.setStack (.inl p) rest)
  | .yieldEnter =>
    (s.acquire c .ptable).map fun s ↦ s.setStack (.inl p) (.yieldState :: rest)
  | .yieldState => some ((s.setState p .runnable).setStack (.inl p) (.yieldSched :: rest))
  | .yieldSched => s.sched c p .yielded rest
  | .yieldLeave => (s.release c .ptable).map fun s ↦ s.setStack (.inl p) rest
  | .exitState => some ((s.setState p .zombie).setStack (.inl p) (.exitSched :: rest))
  | .exitSched => s.sched c p .exited rest
  | _ => none

/-- The next statement of `wakeup`, which may also run in an interrupt of the scheduler. -/
def stepWakeup (s : State κ n) (c : κ) (rest : List (Frame n)) : Frame n → Option (State κ n)
  | .wakeupEnter chan =>
    (s.acquire c .ptable).map fun s' ↦
      s'.setStack (s.run c) (.wakeupLoop chan (List.finRange n) :: rest)
  | .wakeupLoop chan (p :: ps) =>
    some ((s.wake chan p).setStack (s.run c) (.wakeupLoop chan ps :: rest))
  | .wakeupLoop chan [] => some (s.setStack (s.run c) (.wakeupLeave chan :: rest))
  | .wakeupLeave _ => (s.release c .ptable).map fun s' ↦ s'.setStack (s.run c) rest
  | _ => none

/-- The next statement of the scheduler, apart from the choice of a process. -/
def stepSched (s : State κ n) (c : κ) (rest : List (Frame n)) : Frame n → Option (State κ n)
  | .idle => (s.acquire c .ptable).map fun s ↦ s.setStack (.inr c) (.scan :: rest)
  | .scan => (s.release c .ptable).map fun s ↦ s.setStack (.inr c) (.idle :: rest)
  | _ => none

/-- Where a process that is switched to goes on. -/
def resumed : Frame n → Frame n
  | .asleep _ lk => .sleepTidy lk
  | .yielded => .yieldLeave
  | f => f

/-- The scheduler has found `p` to be `RUNNABLE`: `p->state = RUNNING` and the switch. -/
def choose (s : State κ n) (c : κ) (p : Fin n) : Option (State κ n) :=
  match s.stack (.inl p) with
  | f :: rest =>
    if (s.proc p).state = .runnable then
      some (((s.setState p .running).setStack (.inl p) (resumed f :: rest)).swtch c (.inl p))
    else none
  | [] => none

end State

/-- The places at which a processor may be interrupted, once it holds no lock. -/
def Frame.open : Frame n → Bool
  | .code | .sleepRelock _ | .wakeupEnter _ | .yieldEnter | .idle => true
  | _ => false

inductive Op (κ : Type*) (n : ℕ)
  /-- The processor executes the next statement. -/
  | step (c : κ)
  | acquire (c : κ) (l : Lock)
  | release (c : κ) (l : Lock)
  | sleep (c : κ) (chan : ℕ) (lk : Lock)
  | wakeup (c : κ) (chan : ℕ)
  | yield (c : κ)
  | exit (c : κ)
  /-- `kill` or `wakeup1`, with the lock held: a process that sleeps is made `RUNNABLE`. -/
  | poke (c : κ) (p : Fin n)
  /-- `fork`, with the lock held: a new process is made `RUNNABLE`. -/
  | spawn (c : κ) (p : Fin n)
  | interrupt (c : κ)
  | iret (c : κ)
  /-- The scheduler switches to a process. -/
  | choose (c : κ) (p : Fin n)

namespace State

/-- Kernel code that is not modelled calls a function. -/
def call (s : State κ n) (c : κ) (f : Frame n) : Option (State κ n) :=
  match s.stack (s.run c) with
  | .code :: rest => some (s.setStack (s.run c) (f :: .code :: rest))
  | _ => none

/-- The processor executes code that is not modelled. -/
def inCode (s : State κ n) (c : κ) : Bool := (s.stack (s.run c)).head? = some .code

def exec (s : State κ n) : Op κ n → Option (State κ n)
  | .step c =>
    match s.stack (s.run c), s.run c with
    | f :: rest, .inl p => (s.stepProc c p rest f).or (s.stepWakeup c rest f)
    | f :: rest, .inr _ => (s.stepSched c rest f).or (s.stepWakeup c rest f)
    | [], _ => none
  | .acquire c l => if s.inCode c then s.acquire c l else none
  | .release c l => if s.inCode c then s.release c l else none
  -- the callers of `sleep` hold `lk`
  | .sleep c chan lk =>
    if (s.run c).isLeft ∧ s.lock lk = some c then s.call c (.sleepEnter chan lk) else none
  | .wakeup c chan => s.call c (.wakeupEnter chan)
  | .yield c => if (s.run c).isLeft then s.call c .yieldEnter else none
  | .exit c =>
    if (s.run c).isLeft ∧ s.lock .ptable = some c then s.call c .exitState else none
  | .poke c p =>
    if s.inCode c ∧ s.lock .ptable = some c ∧ (s.proc p).state = .sleeping then
      some (s.setState p .runnable)
    else none
  | .spawn c p =>
    if s.inCode c ∧ s.lock .ptable = some c ∧ (s.proc p).state = .embryo then
      some (s.setState p .runnable)
    else none
  | .interrupt c =>
    match s.stack (s.run c) with
    | f :: rest =>
      if s.held c = [] ∧ f.open then some (s.setStack (s.run c) (.code :: f :: rest)) else none
    | [] => none
  | .iret c =>
    match s.stack (s.run c) with
    | .code :: f :: rest =>
      if s.held c = [] then some (s.setStack (s.run c) (f :: rest)) else none
    | _ => none
  | .choose c p =>
    match s.stack (s.run c), s.run c with
    | .scan :: _, .inr _ => s.choose c p
    | _, _ => none

end State

def Step (s : State κ n) (a : Op κ n) (s' : State κ n) : Prop := s.exec a = some s'

/-- At the start every processor is in its scheduler and every process waits to run for the first
time, or to be started first; it will return from `forkret` into its code. -/
def initial (κ : Type*) (ready : Fin n → Bool) : State κ n where
  proc p := ⟨if ready p then .runnable else .embryo, 0⟩
  stack
    | .inl _ => [.yieldLeave, .code]
    | .inr _ => [.idle]
  run c := .inr c
  lock _ := none
  held _ := []

end SistemasOperacionais.Xv6.Sleep
