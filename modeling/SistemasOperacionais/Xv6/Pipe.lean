import SistemasOperacionais.Foundations.Trace
import SistemasOperacionais.Foundations.Ring

/-!
# Pipes

`pipe.c`: a ring of `PIPESIZE` bytes with two counters of type `uint`, filled by `pipewrite` and
emptied by `piperead`. Any number of threads call them, and a thread that holds `p->lock` advances
by one byte at a time, so that sleeping in the middle of a write is a state like any other.

`pipeclose` may be called at any moment, whoever is inside. Closing both ends frees the pipe, and
then nothing happens to it any more; that no thread is inside by then is a matter of the reference
counts of `file.c`.

The bytes ever stored and the bytes ever delivered are kept as two lists beside the pipe. The true
counters are their lengths, and `Foundations.Ring` says how they show in the words `nread` and
`nwrite`.
-/

namespace SistemasOperacionais.Xv6

open Foundations Function

def pipeSize : ℕ := 512

/-- `struct pipe`, without its lock. -/
structure Pipe where
  data : ℕ → UInt8
  nread : UInt32
  nwrite : UInt32
  readopen : Bool
  writeopen : Bool

namespace Pipe

/-! ## The program -/

/-- The two calls, with the buffer of the caller. -/
inductive Call
  | pipewrite (addr : ℕ → UInt8) (n : ℤ)
  | piperead (n : ℤ)

/-- Where a thread stands. -/
inductive Pc
  | idle
  /-- `acquire(&p->lock)` of `pipewrite` -/
  | writeAcquire (addr : ℕ → UInt8) (n : ℤ)
  /-- `i < n` of `pipewrite`, and the test for a full pipe -/
  | writeLoop (addr : ℕ → UInt8) (n : ℤ) (i : ℕ)
  /-- inside `sleep(&p->nwrite, &p->lock)` -/
  | writeAsleep (addr : ℕ → UInt8) (n : ℤ) (i : ℕ)
  /-- woken up, about to take the lock again -/
  | writeWoken (addr : ℕ → UInt8) (n : ℤ) (i : ℕ)
  /-- `acquire(&p->lock)` of `piperead` -/
  | readAcquire (n : ℤ)
  /-- `p->nread == p->nwrite && p->writeopen` -/
  | readWait (n : ℤ)
  /-- inside `sleep(&p->nread, &p->lock)` -/
  | readAsleep (n : ℤ)
  | readWoken (n : ℤ)
  /-- `i < n` of `piperead` -/
  | readCopy (n : ℤ) (i : ℕ)
  /-- `return i` -/
  | readReturn (n : ℤ) (i : ℕ)

/-- The places where a thread holds `p->lock`. -/
def Pc.holding : Pc → Bool
  | .writeLoop .. | .readWait .. | .readCopy .. => true
  | _ => false

/-- What threads sleep on: the addresses of the two counters. -/
inductive Chan
  | nread
  | nwrite
deriving DecidableEq

def Pc.wake (c : Chan) : Pc → Pc
  | .writeAsleep addr n i => if c = .nwrite then .writeWoken addr n i else .writeAsleep addr n i
  | .readAsleep n => if c = .nread then .readWoken n else .readAsleep n
  | pc => pc

structure State (ι : Type*) where
  pipe : Pipe
  /-- The thread that holds `p->lock`. -/
  lock : Option ι
  /-- Both ends are closed: `kfree((char*)p)`. -/
  freed : Bool
  killed : ι → Bool
  loc : ι → Pc
  /-- The bytes stored by `pipewrite` so far, in order. -/
  stored : List UInt8
  /-- The bytes delivered by `piperead` so far, in order. -/
  delivered : List UInt8

variable {ι : Type*}

/-- `pipealloc`; the memory of the ring comes from `kalloc` as it is. -/
def initial (ι : Type*) (data : ℕ → UInt8) : State ι where
  pipe := ⟨data, 0, 0, true, true⟩
  lock := none
  freed := false
  killed _ := false
  loc _ := .idle
  stored := []
  delivered := []

inductive Label (ι : Type*)
  /-- The thread calls `pipewrite` or `piperead`. -/
  | call (t : ι) (c : Call)
  /-- The thread takes its next step. -/
  | run (t : ι)
  /-- The thread is killed, which also wakes it up. -/
  | kill (t : ι)
  | pipeclose (writable : Bool)

namespace State

def wakeup (s : State ι) (c : Chan) : State ι := { s with loc := fun t ↦ (s.loc t).wake c }

section Program

variable [DecidableEq ι]

def goto (s : State ι) (t : ι) (pc : Pc) : State ι := { s with loc := update s.loc t pc }

def acquire (s : State ι) (t : ι) (pc : Pc) : Option (State ι) :=
  if s.lock = none then some ({ s with lock := some t }.goto t pc) else none

/-- `release(&p->lock)`, and what comes after it. `sleep` releases the lock in the same way. -/
def release (s : State ι) (t : ι) (pc : Pc) : State ι := { s with lock := none }.goto t pc

/-- `p->data[p->nwrite++ % PIPESIZE] = c` -/
def store (s : State ι) (c : UInt8) : State ι :=
  { s with
    pipe := { s.pipe with
      data := update s.pipe.data (s.pipe.nwrite.toNat % pipeSize) c
      nwrite := s.pipe.nwrite + 1 }
    stored := s.stored ++ [c] }

/-- `addr[i] = p->data[p->nread++ % PIPESIZE]` -/
def deliver (s : State ι) : State ι :=
  { s with
    pipe := { s.pipe with nread := s.pipe.nread + 1 }
    delivered := s.delivered ++ [s.pipe.data (s.pipe.nread.toNat % pipeSize)] }

def full (p : Pipe) : Bool := p.nwrite = p.nread + UInt32.ofNat pipeSize

def empty (p : Pipe) : Bool := p.nread = p.nwrite

/-- The next step of thread `t`. -/
def run (s : State ι) (t : ι) : Option (State ι) :=
  match s.loc t with
  | .idle | .writeAsleep .. | .readAsleep .. => none
  | .writeAcquire addr n => s.acquire t (.writeLoop addr n 0)
  | .writeLoop addr n i => some <|
    if i < n then
      if full s.pipe then
        if !s.pipe.readopen || s.killed t then s.release t .idle
        else (s.wakeup .nread).release t (.writeAsleep addr n i)
      else (s.store (addr i)).goto t (.writeLoop addr n (i + 1))
    else (s.wakeup .nread).release t .idle
  | .writeWoken addr n i => s.acquire t (.writeLoop addr n i)
  | .readAcquire n => s.acquire t (.readWait n)
  | .readWait n => some <|
    if empty s.pipe && s.pipe.writeopen then
      if s.killed t then s.release t .idle else s.release t (.readAsleep n)
    else s.goto t (.readCopy n 0)
  | .readWoken n => s.acquire t (.readWait n)
  | .readCopy n i => some <|
    if i < n ∧ ¬empty s.pipe then s.deliver.goto t (.readCopy n (i + 1))
    else (s.wakeup .nwrite).release t (.readReturn n i)
  | .readReturn _ _ => some (s.goto t .idle)

def call (s : State ι) (t : ι) : Call → Option (State ι)
  | .pipewrite addr n =>
    if s.loc t matches .idle then some (s.goto t (.writeAcquire addr n)) else none
  | .piperead n => if s.loc t matches .idle then some (s.goto t (.readAcquire n)) else none

def pipeclose (s : State ι) (writable : Bool) : Option (State ι) :=
  if s.lock = none then
    let s := if writable then { s with pipe := { s.pipe with writeopen := false } }.wakeup .nread
      else { s with pipe := { s.pipe with readopen := false } }.wakeup .nwrite
    some { s with freed := !s.pipe.readopen && !s.pipe.writeopen }
  else none

def exec (s : State ι) (a : Label ι) : Option (State ι) :=
  if s.freed then none
  else
    match a with
    | .call t c => s.call t c
    | .run t => s.run t
    | .kill t =>
      some { s with
        killed := update s.killed t true
        loc := update s.loc t (((s.loc t).wake .nread).wake .nwrite) }
    | .pipeclose writable => s.pipeclose writable

end Program

end State

def Step [DecidableEq ι] (s : State ι) (a : Label ι) (s' : State ι) : Prop := s.exec a = some s'

/-! ## The bytes -/

/-- What the words and the ring say about the bytes stored and delivered. -/
structure Books (p : Pipe) (delivered stored : List UInt8) : Prop where
  nread : p.nread.toNat = delivered.length % 2 ^ 32
  nwrite : p.nwrite.toNat = stored.length % 2 ^ 32
  ring : Ring pipeSize p.data delivered.length stored
  order : delivered = stored.take delivered.length

namespace Books

variable {p : Pipe} {delivered stored : List UInt8}

theorem pipeSize_lt : pipeSize < 2 ^ 32 := by decide

theorem empty_iff (h : Books p delivered stored) :
    State.empty p = true ↔ delivered.length = stored.length := by
  rw [State.empty, decide_eq_true_iff, ← UInt32.toNat_inj, h.nread, h.nwrite,
    h.ring.empty_iff pipeSize_lt]

theorem full_iff (h : Books p delivered stored) :
    State.full p = true ↔ stored.length = delivered.length + pipeSize := by
  have hsize : (UInt32.ofNat pipeSize).toNat = pipeSize := rfl
  rw [State.full, decide_eq_true_iff, ← UInt32.toNat_inj, UInt32.toNat_add, h.nread, h.nwrite,
    hsize, h.ring.full_iff pipeSize_lt]

theorem toNat_add_one {x : UInt32} {k : ℕ} (h : x.toNat = k % 2 ^ 32) :
    (x + 1).toNat = (k + 1) % 2 ^ 32 := by
  have hone : (1 : UInt32).toNat = 1 := rfl
  rw [UInt32.toNat_add, hone, h, Nat.mod_add_mod]

theorem place {x : UInt32} {k : ℕ} (h : x.toNat = k % 2 ^ 32) :
    x.toNat % pipeSize = k % pipeSize := by
  rw [h, Nat.mod_mod_of_dvd _ (show pipeSize ∣ 2 ^ 32 by decide)]

variable {ι : Type*} {s : State ι}

theorem store (h : Books s.pipe s.delivered s.stored) (hfull : State.full s.pipe ≠ true)
    (c : UInt8) :
    Books (s.store c).pipe (s.store c).delivered (s.store c).stored where
  nread := h.nread
  nwrite := by
    rw [State.store, List.length_append]
    exact toNat_add_one h.nwrite
  ring := by
    have hfree : s.stored.length < s.delivered.length + pipeSize :=
      h.ring.cap.lt_of_ne fun heq ↦ hfull (h.full_iff.mpr heq)
    simp only [State.store, place h.nwrite]
    exact h.ring.push hfree c
  order := by
    simp only [State.store]
    rw [List.take_append_of_le_length h.ring.le, ← h.order]

theorem deliver (h : Books s.pipe s.delivered s.stored) (hne : State.empty s.pipe ≠ true) :
    Books s.deliver.pipe s.deliver.delivered s.deliver.stored := by
  have hlt : s.delivered.length < s.stored.length :=
    h.ring.le.lt_of_ne fun heq ↦ hne (h.empty_iff.mpr heq)
  have hlen : s.deliver.delivered.length = s.delivered.length + 1 := by simp [State.deliver]
  refine ⟨?_, h.nwrite, ?_, ?_⟩
  · rw [hlen]
    exact toNat_add_one h.nread
  · rw [hlen]
    exact h.ring.pop hlt
  · rw [hlen]
    simp only [State.deliver]
    rw [place h.nread, h.ring.held _ hlt le_rfl, List.take_succ_eq_append_getElem hlt, ← h.order]

end Books

/-! ## The lock -/

section Lock

variable {s s' : State ι} {t : ι}

@[simp] theorem Pc.holding_wake (pc : Pc) (c : Chan) : (pc.wake c).holding = pc.holding := by
  cases pc <;> simp only [Pc.wake] <;> split <;> rfl

theorem Pc.wake_of_holding {pc : Pc} (c : Chan) (h : pc.holding = true) : pc.wake c = pc := by
  cases pc <;> first | rfl | cases h

/-- The thread that holds the lock is where the program holds it, and a reader about to copy its
first byte finds one, or the write end closed. -/
structure Locked (s : State ι) : Prop where
  holder : ∀ t, (s.loc t).holding = true → s.lock = some t
  copying : ∀ t n, s.loc t = .readCopy n 0 → s.pipe.writeopen = true →
    s.delivered.length ≠ s.stored.length

namespace Locked

theorem outside (h : Locked s) (ht : (s.loc t).holding = true) {u : ι} (hne : u ≠ t) :
    (s.loc u).holding = false := by
  by_contra hu
  have heq := (h.holder u (Bool.eq_true_of_not_eq_false hu)).symm.trans (h.holder t ht)
  exact hne (Option.some.inj heq)

theorem outside_of_free (h : Locked s) (hfree : s.lock = none) (u : ι) :
    (s.loc u).holding = false := by
  by_contra hu
  have heq := h.holder u (Bool.eq_true_of_not_eq_false hu)
  rw [hfree] at heq
  cases heq

theorem of_free (hout : ∀ u, (s.loc u).holding = false) : Locked s where
  holder u hu := by
    rw [hout u] at hu
    cases hu
  copying u n hu := by
    have hfalse := hout u
    rw [hu] at hfalse
    cases hfalse

/-- A state in which only `t` may hold the lock. -/
theorem of_alone (hout : ∀ u, u ≠ t → (s.loc u).holding = false)
    (ht : (s.loc t).holding = true → s.lock = some t)
    (hcopy : ∀ n, s.loc t = .readCopy n 0 → s.pipe.writeopen = true →
      s.delivered.length ≠ s.stored.length) : Locked s where
  holder u hu := by
    obtain rfl | hne := eq_or_ne u t
    · exact ht hu
    · rw [hout u hne] at hu
      cases hu
  copying u n hu := by
    obtain rfl | hne := eq_or_ne u t
    · exact hcopy n hu
    · have hfalse := hout u hne
      rw [hu] at hfalse
      cases hfalse

theorem congr (h : Locked s) (hloc : ∀ u, (s'.loc u).holding = true → s'.loc u = s.loc u)
    (hlock : s'.lock = s.lock) (hpipe : s'.pipe = s.pipe) (hstored : s'.stored = s.stored)
    (hdelivered : s'.delivered = s.delivered) : Locked s' where
  holder u hu := by
    rw [hlock]
    exact h.holder u (hloc u hu ▸ hu)
  copying u n hu := by
    rw [hpipe, hstored, hdelivered]
    exact h.copying u n ((hloc u (hu ▸ rfl)).symm.trans hu)

variable [DecidableEq ι]

theorem of_outside (h : Locked s) {pc : Pc} (hpc : pc.holding = false) : Locked (s.goto t pc) := by
  refine h.congr (fun u hu ↦ ?_) rfl rfl rfl rfl
  obtain rfl | hne := eq_or_ne u t
  · simp only [State.goto, update_self, hpc] at hu
    cases hu
  · simp only [State.goto, update_of_ne hne]

theorem acquire (h : Locked s) {pc : Pc} (hs : s.acquire t pc = some s')
    (hpc : ∀ n, pc ≠ .readCopy n 0) : Locked s' := by
  rw [State.acquire, Option.ite_none_right_eq_some] at hs
  obtain ⟨hfree, rfl⟩ := hs.imp_right Option.some.inj
  refine of_alone (t := t) (fun u hne ↦ ?_) (fun _ ↦ rfl) fun n hn ↦ ?_
  · simp only [State.goto, update_of_ne hne]
    exact h.outside_of_free hfree u
  · simp only [State.goto, update_self] at hn
    exact absurd hn (hpc n)

/-- The holder of the lock goes on; nothing is said about what it does to the pipe. -/
theorem goto (h : Locked s) (ht : (s.loc t).holding = true) {pc : Pc} (hloc : s'.loc = s.loc)
    (hlock : s'.lock = s.lock)
    (hcopy : ∀ n, pc = .readCopy n 0 → s'.pipe.writeopen = true →
      s'.delivered.length ≠ s'.stored.length) : Locked (s'.goto t pc) := by
  refine of_alone (t := t) (fun u hne ↦ ?_) (fun _ ↦ ?_) fun n hn ↦ ?_
  · simp only [State.goto, update_of_ne hne, hloc]
    exact h.outside ht hne
  · exact hlock.trans (h.holder t ht)
  · simp only [State.goto, update_self] at hn
    exact hcopy n hn

/-- The holder of the lock releases it, possibly after waking others up. -/
theorem release (h : Locked s) (ht : (s.loc t).holding = true) {pc : Pc}
    (hloc : ∀ u, (s'.loc u).holding = (s.loc u).holding) (hpc : pc.holding = false) :
    Locked (s'.release t pc) := by
  refine of_alone (t := t) (fun u hne ↦ ?_) (fun hhold ↦ ?_) fun n hn ↦ ?_
  · simp only [State.release, State.goto, update_of_ne hne, hloc]
    exact h.outside ht hne
  · simp only [State.release, State.goto, update_self, hpc] at hhold
    cases hhold
  · simp only [State.release, State.goto, update_self] at hn
    rw [hn] at hpc
    cases hpc

end Locked

end Lock

/-! ## Runs -/

structure Inv (s : State ι) : Prop where
  books : Books s.pipe s.delivered s.stored
  locked : Locked s

theorem Inv.initial (data : ℕ → UInt8) : Inv (initial ι data) where
  books := ⟨rfl, rfl, .nil data, rfl⟩
  locked := ⟨nofun, nofun⟩

section Steps

variable [DecidableEq ι] {s s' : State ι} {t : ι}

namespace Inv

theorem acquire (h : Inv s) {pc : Pc} (hs : s.acquire t pc = some s')
    (hpc : ∀ n, pc ≠ .readCopy n 0) : Inv s' := by
  refine ⟨?_, h.locked.acquire hs hpc⟩
  rw [State.acquire, Option.ite_none_right_eq_some] at hs
  obtain ⟨-, rfl⟩ := hs.imp_right Option.some.inj
  exact h.books

theorem run (h : Inv s) (hs : s.run t = some s') : Inv s' := by
  have hhold : ∀ pc, s.loc t = pc → pc.holding = true → (s.loc t).holding = true :=
    fun _ hpc hhold ↦ hpc ▸ hhold
  rw [State.run] at hs
  split at hs
  case h_1 => cases hs
  case h_2 => cases hs
  case h_3 => cases hs
  case h_4 addr n hpc => exact h.acquire hs nofun
  case h_5 addr n i hpc =>
    have ht := hhold _ hpc rfl
    obtain rfl := Option.some.inj hs
    split_ifs with hi hfull hdead
    · exact ⟨h.books, h.locked.release ht (fun _ ↦ rfl) rfl⟩
    · exact ⟨h.books, h.locked.release ht (fun _ ↦ Pc.holding_wake ..) rfl⟩
    · exact ⟨h.books.store hfull _, h.locked.goto ht rfl rfl nofun⟩
    · exact ⟨h.books, h.locked.release ht (fun _ ↦ Pc.holding_wake ..) rfl⟩
  case h_6 addr n i hpc => exact h.acquire hs nofun
  case h_7 n hpc => exact h.acquire hs nofun
  case h_8 n hpc =>
    have ht := hhold _ hpc rfl
    obtain rfl := Option.some.inj hs
    split_ifs with hwait hkilled
    · exact ⟨h.books, h.locked.release ht (fun _ ↦ rfl) rfl⟩
    · exact ⟨h.books, h.locked.release ht (fun _ ↦ rfl) rfl⟩
    · refine ⟨h.books, h.locked.goto ht rfl rfl fun _ _ hopen heq ↦ ?_⟩
      rw [h.books.empty_iff.mpr heq, hopen] at hwait
      exact hwait rfl
  case h_9 n hpc => exact h.acquire hs nofun
  case h_10 n i hpc =>
    have ht := hhold _ hpc rfl
    obtain rfl := Option.some.inj hs
    split_ifs with hmore
    · exact ⟨h.books.deliver hmore.2, h.locked.goto ht rfl rfl nofun⟩
    · exact ⟨h.books, h.locked.release ht (fun _ ↦ Pc.holding_wake ..) rfl⟩
  case h_11 n i hpc =>
    obtain rfl := Option.some.inj hs
    exact ⟨h.books, h.locked.of_outside rfl⟩

theorem call (h : Inv s) {c : Call} (hs : s.call t c = some s') : Inv s' := by
  cases c <;>
  · rw [State.call, Option.ite_none_right_eq_some] at hs
    obtain ⟨-, rfl⟩ := hs.imp_right Option.some.inj
    exact ⟨h.books, h.locked.of_outside rfl⟩

theorem kill (h : Inv s) (t : ι) :
    Inv { s with
      killed := update s.killed t true
      loc := update s.loc t (((s.loc t).wake .nread).wake .nwrite) } := by
  refine ⟨h.books, h.locked.congr (fun u hu ↦ ?_) rfl rfl rfl rfl⟩
  obtain rfl | hne := eq_or_ne u t
  · simp only [update_self, Pc.holding_wake] at hu ⊢
    rw [Pc.wake_of_holding _ hu, Pc.wake_of_holding _ hu]
  · simp only [update_of_ne hne]

omit [DecidableEq ι] in
theorem pipeclose (h : Inv s) {writable : Bool} (hs : s.pipeclose writable = some s') : Inv s' := by
  rw [State.pipeclose, Option.ite_none_right_eq_some] at hs
  obtain ⟨hfree, rfl⟩ := hs.imp_right Option.some.inj
  have hout := h.locked.outside_of_free hfree
  cases writable with
  | true =>
    exact ⟨⟨h.books.nread, h.books.nwrite, h.books.ring, h.books.order⟩,
      .of_free fun u ↦ (Pc.holding_wake ..).trans (hout u)⟩
  | false =>
    exact ⟨⟨h.books.nread, h.books.nwrite, h.books.ring, h.books.order⟩,
      .of_free fun u ↦ (Pc.holding_wake ..).trans (hout u)⟩

theorem step (h : Inv s) {a : Label ι} (hs : Step s a s') : Inv s' := by
  rw [Step, State.exec.eq_def] at hs
  split at hs
  · cases hs
  · cases a with
    | call t c => exact h.call hs
    | run t => exact h.run hs
    | kill t => exact Option.some.inj hs ▸ h.kill t
    | pipeclose writable => exact h.pipeclose hs

end Inv

/-! ## First in, first out -/

structure Fifo (s : State ι) : Prop where
  order : s.delivered <+: s.stored
  bound : (s.pipe.nwrite - s.pipe.nread).toNat ≤ pipeSize
  /-- A byte that has not been read is still in its place. -/
  kept : ∀ (k : ℕ) (hk : k < s.stored.length), s.delivered.length ≤ k →
    s.pipe.data (k % pipeSize) = s.stored[k]

omit [DecidableEq ι] in
theorem Inv.fifo (h : Inv s) : Fifo s where
  order := by
    rw [h.books.order]
    exact List.take_prefix _ _
  bound := by
    rw [UInt32.toNat_sub, h.books.nread, h.books.nwrite, h.books.ring.sub_mod_eq Books.pipeSize_lt]
    have hcap := h.books.ring.cap
    omega
  kept := h.books.ring.held

theorem run_readReturn {n : ℤ} {i : ℕ} (hs : s.run t = some s')
    (hret : s'.loc t = .readReturn n i) : s.loc t = .readCopy n i := by
  have hacq : ∀ {pc}, s.acquire t pc = some s' → s'.loc t = pc := by
    intro pc h
    rw [State.acquire, Option.ite_none_right_eq_some] at h
    obtain ⟨-, rfl⟩ := h.imp_right Option.some.inj
    exact update_self ..
  rw [State.run] at hs
  split at hs
  case h_10 m k hpc =>
    obtain rfl := Option.some.inj hs
    split_ifs at hret
    · simp [State.goto] at hret
    · simp only [State.release, State.goto, update_self, Pc.readReturn.injEq] at hret
      rw [hpc, hret.1, hret.2]
  case h_5 | h_8 =>
    obtain rfl := Option.some.inj hs
    split_ifs at hret <;> simp [State.release, State.goto] at hret
  case h_11 =>
    obtain rfl := Option.some.inj hs
    simp [State.goto] at hret
  case h_4 | h_6 | h_7 | h_9 =>
    rw [hacq hs] at hret
    cases hret
  all_goals cases hs

theorem Inv.eof (h : Inv s) {n : ℤ} (hn : 0 < n) (hs : s.run t = some s')
    (hret : s'.loc t = .readReturn n 0) : s'.delivered = s'.stored ∧ s'.pipe.writeopen = false := by
  have hpc := run_readReturn hs hret
  have hempty : State.empty s.pipe = true := by
    by_contra hne
    rw [State.run, hpc] at hs
    simp only [Nat.cast_zero, hn, hne] at hs
    obtain rfl := Option.some.inj hs
    simp [State.goto] at hret
  rw [State.run, hpc] at hs
  simp only [hempty, not_true_eq_false, and_false, if_false, Option.some.injEq] at hs
  obtain rfl := hs
  have hlen := h.books.empty_iff.mp hempty
  constructor
  · have horder := h.books.order
    rw [hlen, List.take_length] at horder
    exact horder
  · by_contra hopen
    exact h.locked.copying t n hpc (Bool.eq_true_of_not_eq_false hopen) hlen

/-- **Pipes are first in, first out.** The second part says what it means that a read of at least
one byte returns `0`. -/
theorem fifo_of_trace {data : ℕ → UInt8} {hist : List (State ι × Label ι)}
    (tr : Trace Step (initial ι data) hist s) :
    Fifo s ∧ ∀ t n s', 0 < n → Step s (.run t) s' → s'.loc t = .readReturn n 0 →
      s'.delivered = s'.stored ∧ s'.pipe.writeopen = false := by
  have hinv : Inv s := tr.invariant (.initial data) fun hi hs ↦ hi.step hs
  refine ⟨hinv.fifo, fun t n s' hn hs hret ↦ ?_⟩
  rw [Step, State.exec.eq_def, Option.ite_none_left_eq_some] at hs
  exact hinv.eof hn hs.2 hret

end Steps

/-- The writer stores two bytes, the reader fetches them, the write end is closed, and the reader
reads once more, up to the loop that copies. -/
def twoBytes : List (Label Bool) :=
  [[.call true (.pipewrite UInt8.ofNat 2)], List.replicate 4 (.run true),
    [.call false (.piperead 3)], List.replicate 6 (.run false), [.pipeclose true],
    [.call false (.piperead 3)], List.replicate 2 (.run false)].flatten

theorem fifo_of_trace_twoBytes : ∃ hist s s', Trace Step (initial Bool UInt8.ofNat) hist s ∧
    hist.map Prod.snd = twoBytes ∧ Step s (.run false) s' ∧ Fifo s ∧ s'.delivered = s'.stored ∧
    s'.pipe.writeopen = false := by
  have hrun : (execute State.exec (initial Bool UInt8.ofNat) twoBytes).map
      (fun s ↦ (s.exec (.run false)).map fun s' ↦ s'.loc false) = some (some (.readReturn 3 0)) :=
    rfl
  obtain ⟨hist, s, tr, hlab, hlast⟩ : ∃ hist s, Trace Step _ hist s ∧ _ :=
    exists_trace_of_execute_map (fun _ _ _ ↦ id) hrun
  obtain ⟨s', hs, hret⟩ := Option.map_eq_some_iff.mp hlast
  obtain ⟨hfifo, heof⟩ := fifo_of_trace tr
  exact ⟨hist, s, s', tr, hlab, hs, hfifo, heof false 3 s' (by decide) hs hret⟩

/-! ## Sleeping and waking up -/

/-- What a thread sleeps on. -/
def Pc.sleeps : Pc → Option Chan
  | .readAsleep _ => some .nread
  | .writeAsleep .. => some .nwrite
  | _ => none

/-- Whom a thread with the lock is going to wake up. -/
def Pc.wakes : Pc → Option Chan
  | .writeLoop .. => some .nread
  | .readCopy .. => some .nwrite
  | _ => none

/-- What a thread sleeps for. -/
def Chan.stuck (p : Pipe) : Chan → Bool
  | .nread => State.empty p && p.writeopen
  | .nwrite => State.full p && p.readopen

/-- Nobody sleeps for nothing. -/
def Awake (s : State ι) : Prop :=
  s.lock = none → ∀ t c, (s.loc t).sleeps = some c → c.stuck s.pipe

/-- No writer gives up at a full pipe while a reader sleeps. -/
def Attends (s : State ι) : Label ι → Prop
  | .run t => ∀ addr n i, s.loc t = .writeLoop addr n i → i < n → State.full s.pipe →
      (!s.pipe.readopen || s.killed t) → ∀ u, (s.loc u).sleeps ≠ some .nread
  | _ => True

/-- Who sleeps for nothing is going to be woken up. -/
def Sleeps (s : State ι) : Prop :=
  ∀ t c, (s.loc t).sleeps = some c → c.stuck s.pipe ∨ ∃ u, (s.loc u).wakes = some c

section Sleeping

variable [DecidableEq ι] {s s' : State ι} {t : ι}

theorem Pc.sleeps_wake {pc : Pc} {c d : Chan} (h : (pc.wake c).sleeps = some d) :
    pc.sleeps = some d ∧ d ≠ c := by
  cases pc <;> grind [Pc.wake, Pc.sleeps]

theorem Pc.wakes_wake (pc : Pc) (c : Chan) : (pc.wake c).wakes = pc.wakes := by
  cases pc <;> grind [Pc.wake, Pc.wakes]

theorem Sleeps.run (h : Sleeps s) (hg : Attends s (.run t)) (hs : s.run t = some s') :
    Sleeps s' := by
  intro u c hu
  have hold := h u c
  rw [Attends] at hg
  rw [State.run] at hs
  split at hs
  case h_1 | h_2 | h_3 => cases hs
  case h_4 | h_6 | h_7 | h_9 =>
    rw [State.acquire, Option.ite_none_right_eq_some] at hs
    obtain ⟨-, rfl⟩ := hs.imp_right Option.some.inj
    simp only [State.goto, update_apply] at hu ⊢
    grind [Pc.sleeps, Pc.wakes]
  case h_5 | h_8 | h_10 =>
    -- the lock is kept or somebody is woken up, unless the guard applies
    obtain rfl := Option.some.inj hs
    simp only [State.goto, State.release, State.wakeup, State.store, State.deliver] at hu ⊢
    cases c <;> split_ifs at hu ⊢ <;> simp only [update_apply] at hu ⊢ <;>
      grind [Pc.sleeps, Pc.wakes, Pc.sleeps_wake, Pc.wakes_wake, Chan.stuck]
  case h_11 =>
    obtain rfl := Option.some.inj hs
    simp only [State.goto, update_apply] at hu ⊢
    grind [Pc.sleeps, Pc.wakes]

omit [DecidableEq ι] in
theorem Sleeps.awake (h : Sleeps s) (hl : Locked s) : Awake s := by
  intro hfree t c ht
  refine (h t c ht).resolve_right ?_
  rintro ⟨u, hu⟩
  have hout := hl.outside_of_free hfree u
  cases hpc : s.loc u <;> simp_all [Pc.wakes, Pc.holding]

theorem Sleeps.step (h : Sleeps s) (hl : Locked s) {a : Label ι} (hg : Attends s a)
    (hs : Step s a s') : Sleeps s' := by
  rw [Step, State.exec.eq_def, Option.ite_none_left_eq_some] at hs
  obtain ⟨-, hs⟩ := hs
  cases a with
  | run t => exact h.run hg hs
  | call t c =>
    intro u d hu
    have hold := h u d
    cases c <;>
    · simp only [State.call, Option.ite_none_right_eq_some] at hs
      obtain ⟨hidle, rfl⟩ := hs.imp_right Option.some.inj
      simp only [State.goto, update_apply] at hu ⊢
      grind [Pc.sleeps, Pc.wakes]
  | kill t =>
    intro u d hu
    have hold := h u d
    obtain rfl := Option.some.inj hs
    simp only [update_apply] at hu ⊢
    grind [Pc.sleeps_wake, Pc.wakes_wake]
  | pipeclose writable =>
    intro u d hu
    change s.pipeclose writable = some s' at hs
    rw [State.pipeclose, Option.ite_none_right_eq_some] at hs
    obtain ⟨hfree, rfl⟩ := hs.imp_right Option.some.inj
    cases writable <;> obtain ⟨hd, hne⟩ := Pc.sleeps_wake hu <;>
      have hstuck := h.awake hl hfree u d hd <;> cases d <;>
      first | exact absurd rfl hne | exact .inl hstuck

theorem Inv.not_awake (h : Inv s) {a : Label ι} (hg : ¬Attends s a) (hs : Step s a s') :
    ¬Awake s' := by
  cases a with
  | run t =>
    simp only [Attends, not_forall, not_not] at hg
    obtain ⟨addr, n, i, hpc, hi, hfull, hdead, u, hu⟩ := hg
    have hne : u ≠ t := by
      rintro rfl
      rw [hpc] at hu
      cases hu
    rw [Step, State.exec, Option.ite_none_left_eq_some] at hs
    simp only [State.run, hpc, hi, hfull, hdead, if_true, Option.some.injEq] at hs
    obtain ⟨-, rfl⟩ := hs
    intro hawake
    have hstuck := hawake rfl u .nread (by simpa [State.release, State.goto, hne] using hu)
    have hempty : State.empty s.pipe = true := (Bool.and_eq_true_iff.mp hstuck).1
    have hlen := h.books.empty_iff.mp hempty
    have hcap := h.books.full_iff.mp hfull
    rw [pipeSize] at hcap
    omega
  | _ => exact absurd trivial hg

/-- **When a thread is left asleep**: a writer gives up at a full pipe without a `wakeup`. -/
theorem awake_everywhere_iff {data : ℕ → UInt8} {hist : List (State ι × Label ι)}
    (tr : Trace Step (initial ι data) hist s) :
    Trace.Everywhere Awake hist s ↔ Trace.Guarded Attends hist := by
  refine Trace.everywhere_iff (I := fun s ↦ Inv s ∧ Sleeps s) ⟨.initial data, nofun⟩ ?_
    (fun h hg hs ↦ ⟨h.1.step hs, h.2.step h.1.locked hg hs⟩) (fun h ↦ h.1.not_awake) tr
  exact fun h ↦ h.2.awake h.1.locked

end Sleeping

/-- A reader sleeps, a writer stores a byte and wakes it up, and the reader fetches the byte and
sleeps again. -/
def sleepTwice : List (Label Bool) :=
  [[.call false (.piperead 1)], List.replicate 2 (.run false),
    [.call true (.pipewrite UInt8.ofNat 1)], List.replicate 3 (.run true),
    List.replicate 5 (.run false), [.call false (.piperead 1)],
    List.replicate 2 (.run false)].flatten

theorem awake_everywhere_iff_sleepTwice : ∃ hist s,
    Trace Step (initial Bool UInt8.ofNat) hist s ∧ hist.map Prod.snd = sleepTwice ∧
      s.delivered = [0] ∧ (s.loc false).sleeps = some .nread ∧ Trace.Everywhere Awake hist s := by
  have hrun : (execute State.exec (initial Bool UInt8.ofNat) sleepTwice).map
      (fun s ↦ (s.delivered, (s.loc false).sleeps)) = some ([0], some .nread) := by decide
  have hfull : ∀ x ∈ history State.exec (initial Bool UInt8.ofNat) sleepTwice,
      ¬State.full x.1.pipe := by decide
  obtain ⟨s, hs, hend⟩ := Option.map_eq_some_iff.mp hrun
  obtain ⟨t, hlab⟩ : Trace Step _ _ s ∧ _ := trace_of_execute (fun _ _ _ ↦ id) hs
  obtain ⟨hdel, hasleep⟩ := Prod.mk.inj hend
  refine ⟨_, s, t, hlab, hdel, hasleep, (awake_everywhere_iff t).mpr fun x hx ↦ ?_⟩
  cases x.2 with
  | run _ => exact fun _ _ _ _ _ h ↦ absurd h (hfull x hx)
  | _ => trivial

end Pipe

end SistemasOperacionais.Xv6
