import SistemasOperacionais.Foundations.Trace

/-!
# The message queue with a condition variable

`produtor-consumidor.py`: one `Produtor` and one `Consumidor` share a list and a `Condition`. A
`Condition` is a lock together with the list of the threads that wait to be notified; `wait` gives
up the lock, and a thread that has been notified takes it again before it goes on.

The waits are guarded by `if`, so a thread that wakes up does not look at the list again, and one
`notify` serves both directions. It works because the two threads never wait at the same time: a
waiting `Produtor` means a full list and a waiting `Consumidor` an empty one, up to the moment
between a change of the list and the notification.
-/

namespace SistemasOperacionais.FilaMensagens

open Foundations

def maxNum : ℕ := 5

inductive Thread
  | produtor
  | consumidor
deriving DecidableEq

/-- `threading.Condition` -/
structure Condition where
  /-- Who holds the lock. -/
  dono : Option Thread
  /-- The threads that wait and have not been notified, oldest first. -/
  esperando : List Thread

namespace Condition

def acquire (c : Condition) (t : Thread) : Option Condition :=
  if c.dono = none then some { c with dono := some t } else none

def release (c : Condition) : Condition := { c with dono := none }

/-- `wait` up to the point where the thread stands still. -/
def wait (c : Condition) (t : Thread) : Condition := ⟨none, c.esperando ++ [t]⟩

/-- The rest of `wait`: once notified, the thread takes the lock again. -/
def acorda (c : Condition) (t : Thread) : Option Condition :=
  if t ∈ c.esperando then none else c.acquire t

def notify (c : Condition) : Condition := { c with esperando := c.esperando.tail }

end Condition

/-- What `randint(0, 5)` may give. -/
abbrev Mensagem := Fin 6

/-- The next statement of `Produtor.run`. -/
inductive PcProdutor
  /-- `mutex.acquire()` -/
  | adquire
  /-- `if len(fila) == MAX_NUM` -/
  | testa
  /-- `mutex.wait()` -/
  | espera
  /-- inside `wait` -/
  | dorme
  /-- `num = randint(0, 5)` -/
  | sorteia
  /-- `fila.append(num)` -/
  | anexa (num : Mensagem)
  /-- `mutex.notify()` -/
  | notifica
  /-- `mutex.release()` -/
  | libera
deriving DecidableEq

/-- The next statement of `Consumidor.run`. -/
inductive PcConsumidor
  /-- `mutex.acquire()` -/
  | adquire
  /-- `if not fila` -/
  | testa
  /-- `mutex.wait()` -/
  | espera
  /-- inside `wait` -/
  | dorme
  /-- `num = fila.pop(0)` -/
  | retira
  /-- `mutex.notify()` -/
  | notifica
  /-- `mutex.release()` -/
  | libera
  /-- ended by the `IndexError` of `pop` -/
  | morto
deriving DecidableEq

structure Estado where
  fila : List Mensagem
  mutex : Condition
  produtor : PcProdutor
  consumidor : PcConsumidor
  /-- The messages appended so far, oldest first. -/
  produzidas : List Mensagem
  /-- The messages removed so far. -/
  consumidas : List Mensagem

def inicial : Estado := ⟨[], ⟨none, []⟩, .adquire, .adquire, [], []⟩

/-- One statement of the `Produtor`, with the outcome of `randint` should it be called. -/
def Estado.produz (s : Estado) (sorteio : Mensagem) : Option Estado :=
  match s.produtor with
  | .adquire => (s.mutex.acquire .produtor).map fun c ↦ { s with mutex := c, produtor := .testa }
  | .testa => some { s with produtor := if s.fila.length = maxNum then .espera else .sorteia }
  | .espera => some { s with mutex := s.mutex.wait .produtor, produtor := .dorme }
  | .dorme => (s.mutex.acorda .produtor).map fun c ↦ { s with mutex := c, produtor := .sorteia }
  | .sorteia => some { s with produtor := .anexa sorteio }
  | .anexa num =>
    some { s with
      fila := s.fila ++ [num]
      produzidas := s.produzidas ++ [num]
      produtor := .notifica }
  | .notifica => some { s with mutex := s.mutex.notify, produtor := .libera }
  | .libera => some { s with mutex := s.mutex.release, produtor := .adquire }

def Estado.consome (s : Estado) : Option Estado :=
  match s.consumidor with
  | .adquire =>
    (s.mutex.acquire .consumidor).map fun c ↦ { s with mutex := c, consumidor := .testa }
  | .testa => some { s with consumidor := if s.fila = [] then .espera else .retira }
  | .espera => some { s with mutex := s.mutex.wait .consumidor, consumidor := .dorme }
  | .dorme =>
    (s.mutex.acorda .consumidor).map fun c ↦ { s with mutex := c, consumidor := .retira }
  | .retira =>
    match s.fila with
    | [] => some { s with consumidor := .morto }
    | num :: resto =>
      some { s with
        fila := resto
        consumidas := s.consumidas ++ [num]
        consumidor := .notifica }
  | .notifica => some { s with mutex := s.mutex.notify, consumidor := .libera }
  | .libera => some { s with mutex := s.mutex.release, consumidor := .adquire }
  | .morto => none

/-- Who moves, and what `randint` gives. -/
inductive Rotulo
  | produtor (sorteio : Mensagem)
  | consumidor

def Estado.executa (s : Estado) : Rotulo → Option Estado
  | .produtor sorteio => s.produz sorteio
  | .consumidor => s.consome

def Passo (s : Estado) (a : Rotulo) (s' : Estado) : Prop := s.executa a = some s'

/-! ## The invariant -/

def PcProdutor.dentro : PcProdutor → Bool
  | .adquire | .dorme => false
  | _ => true

def PcConsumidor.dentro : PcConsumidor → Bool
  | .adquire | .dorme | .morto => false
  | _ => true

/-- The owner of the lock is the thread that is inside. -/
def Dono (p c : Bool) : Option Thread → Prop
  | none => p = false ∧ c = false
  | some .produtor => p = true ∧ c = false
  | some .consumidor => p = false ∧ c = true

theorem Dono.of_produtor {c : Bool} {d : Option Thread} (h : Dono true c d) :
    d = some .produtor ∧ c = false := by
  match d, h with
  | some .produtor, h => exact ⟨rfl, h.2⟩

theorem Dono.of_consumidor {p : Bool} {d : Option Thread} (h : Dono p true d) :
    d = some .consumidor ∧ p = false := by
  match d, h with
  | some .consumidor, h => exact ⟨rfl, h.1⟩

/-- What the `Produtor` knows about the length of the list while it holds the lock. -/
def PcProdutor.Sabe (n : ℕ) : PcProdutor → Prop
  | .espera => n = maxNum
  | .sorteia | .anexa _ => n < maxNum
  | .notifica => 0 < n
  | _ => True

def PcConsumidor.Sabe (n : ℕ) : PcConsumidor → Prop
  | .espera => n = 0
  | .retira => 0 < n
  | .notifica => n < maxNum
  | .morto => False
  | _ => True

/-- What the waiting threads mean for a list of length `n`. A thread in `wait` that is not on the
list of waiting threads has been notified. -/
def Espera (n : ℕ) (p : PcProdutor) (c : PcConsumidor) : List Thread → Prop
  | [] => (p = .dorme → n < maxNum) ∧ (c = .dorme → 0 < n)
  | [.produtor] => p = .dorme ∧ (n = maxNum ∨ n + 1 = maxNum ∧ c = .notifica)
  | [.consumidor] => c = .dorme ∧ (n = 0 ∨ n = 1 ∧ p = .notifica)
  | _ => False

structure Invariante (s : Estado) : Prop where
  dono : Dono s.produtor.dentro s.consumidor.dentro s.mutex.dono
  fila : s.produzidas = s.consumidas ++ s.fila
  cabem : s.fila.length ≤ maxNum
  sabeP : s.produtor.Sabe s.fila.length
  sabeC : s.consumidor.Sabe s.fila.length
  espera : Espera s.fila.length s.produtor s.consumidor s.mutex.esperando

theorem Invariante.inicial : Invariante inicial where
  dono := ⟨rfl, rfl⟩
  fila := rfl
  cabem := Nat.zero_le _
  sabeP := trivial
  sabeC := trivial
  espera := ⟨nofun, nofun⟩

/-! ### The waiting threads -/

namespace Espera

variable {n : ℕ} {p p' : PcProdutor} {c c' : PcConsumidor} {L : List Thread}

theorem cases (h : Espera n p c L) : L = [] ∨ L = [.produtor] ∨ L = [.consumidor] := by
  match L, h with
  | [], _ => exact Or.inl rfl
  | [.produtor], _ => exact Or.inr (Or.inl rfl)
  | [.consumidor], _ => exact Or.inr (Or.inr rfl)

/-- The `Produtor` moves on without touching the list or the waiting threads. -/
theorem segueP (h : Espera n p c L) (hp : p ≠ .dorme) (hp' : p ≠ .notifica) (hn : p' ≠ .dorme) :
    Espera n p' c L := by
  obtain rfl | rfl | rfl := h.cases <;> simp_all [Espera]

theorem segueC (h : Espera n p c L) (hc : c ≠ .dorme) (hc' : c ≠ .notifica) (hn : c' ≠ .dorme) :
    Espera n p c' L := by
  obtain rfl | rfl | rfl := h.cases <;> simp_all [Espera]

theorem waitP (h : Espera n .espera c L) (hn : n = maxNum) :
    Espera n .dorme c (L ++ [.produtor]) := by
  obtain rfl | rfl | rfl := h.cases
  · exact ⟨rfl, Or.inl hn⟩
  · exact absurd h.1 nofun
  · obtain ⟨-, h | ⟨-, h⟩⟩ := h
    · exact absurd (hn.symm.trans h) (by decide)
    · exact absurd h nofun

theorem waitC (h : Espera n p .espera L) (hn : n = 0) : Espera n p .dorme (L ++ [.consumidor]) := by
  obtain rfl | rfl | rfl := h.cases
  · exact ⟨rfl, Or.inl hn⟩
  · obtain ⟨-, h | ⟨-, h⟩⟩ := h
    · exact absurd (h.symm.trans hn) (by decide)
    · exact absurd h nofun
  · exact absurd h.1 nofun

theorem acordaP (h : Espera n .dorme c L) (hL : .produtor ∉ L) :
    n < maxNum ∧ Espera n .sorteia c L := by
  obtain rfl | rfl | rfl := h.cases
  · exact ⟨h.1 rfl, nofun, h.2⟩
  · simp at hL
  · obtain ⟨hc, rfl | ⟨-, h⟩⟩ := h
    · exact ⟨by decide, hc, Or.inl rfl⟩
    · exact absurd h nofun

theorem acordaC (h : Espera n p .dorme L) (hL : .consumidor ∉ L) :
    0 < n ∧ Espera n p .retira L := by
  obtain rfl | rfl | rfl := h.cases
  · exact ⟨h.2 rfl, h.1, nofun⟩
  · obtain ⟨hp, rfl | ⟨-, h⟩⟩ := h
    · exact ⟨by decide, hp, Or.inl rfl⟩
    · exact absurd h nofun
  · simp at hL

theorem anexa {num : Mensagem} (h : Espera n (.anexa num) c L) : Espera (n + 1) .notifica c L := by
  obtain rfl | rfl | rfl := h.cases
  · exact ⟨nofun, fun _ ↦ Nat.succ_pos n⟩
  · exact absurd h.1 nofun
  · obtain ⟨hc, rfl | ⟨-, h⟩⟩ := h
    · exact ⟨hc, Or.inr ⟨rfl, rfl⟩⟩
    · exact absurd h nofun

theorem retira (h : Espera (n + 1) p .retira L) (hn : n < maxNum) : Espera n p .notifica L := by
  obtain rfl | rfl | rfl := h.cases
  · exact ⟨fun _ ↦ hn, nofun⟩
  · obtain ⟨hp, h | ⟨-, h⟩⟩ := h
    · exact ⟨hp, Or.inr ⟨h, rfl⟩⟩
    · exact absurd h nofun
  · exact absurd h.1 nofun

theorem notifyP (h : Espera n .notifica c L) (hn : 0 < n) : Espera n .libera c L.tail := by
  obtain rfl | rfl | rfl := h.cases
  · exact ⟨nofun, h.2⟩
  · exact absurd h.1 nofun
  · exact ⟨nofun, fun _ ↦ hn⟩

theorem notifyC (h : Espera n p .notifica L) (hn : n < maxNum) : Espera n p .libera L.tail := by
  obtain rfl | rfl | rfl := h.cases
  · exact ⟨h.1, nofun⟩
  · exact ⟨fun _ ↦ hn, nofun⟩
  · exact absurd h.1 nofun

end Espera

/-! ### Steps -/

theorem PcProdutor.Sabe.of_fora {p : PcProdutor} (h : p.dentro = false) (n : ℕ) : p.Sabe n := by
  cases p <;> trivial

theorem PcConsumidor.Sabe.of_fora {c : PcConsumidor} {m : ℕ} (hm : c.Sabe m)
    (h : c.dentro = false) (n : ℕ) : c.Sabe n := by
  cases c <;> trivial

theorem acquire_eq_some {c c' : Condition} {t : Thread} :
    c.acquire t = some c' ↔ c.dono = none ∧ c' = { c with dono := some t } := by
  rw [Condition.acquire]
  split_ifs with h <;> simp [h, eq_comm]

theorem acorda_eq_some {c c' : Condition} {t : Thread} :
    c.acorda t = some c' ↔ t ∉ c.esperando ∧ c.dono = none ∧ c' = { c with dono := some t } := by
  rw [Condition.acorda]
  split_ifs with h <;> simp [h, acquire_eq_some]

namespace Invariante

variable {s s' : Estado}

theorem produz (hi : Invariante s) {sorteio : Mensagem} (h : s.produz sorteio = some s') :
    Invariante s' := by
  obtain ⟨fila, ⟨dono, L⟩, p, c, produzidas, consumidas⟩ := s
  have hdono := hi.dono
  cases p with
  | adquire =>
    obtain ⟨_, hc, rfl⟩ := Option.map_eq_some_iff.mp h
    obtain ⟨rfl : dono = none, rfl⟩ := acquire_eq_some.mp hc
    exact { hi with dono := ⟨rfl, hdono.2⟩, espera := hi.espera.segueP nofun nofun nofun }
  | testa =>
    obtain rfl := Option.some.inj h
    by_cases hcheia : fila.length = maxNum
    · rw [if_pos hcheia]
      exact { hi with sabeP := hcheia, espera := hi.espera.segueP nofun nofun nofun }
    · rw [if_neg hcheia]
      exact { hi with
        sabeP := hi.cabem.lt_of_ne hcheia
        espera := hi.espera.segueP nofun nofun nofun }
  | espera =>
    obtain rfl := Option.some.inj h
    obtain ⟨rfl, hc⟩ := hdono.of_produtor
    exact { hi with dono := ⟨rfl, hc⟩, sabeP := trivial, espera := hi.espera.waitP hi.sabeP }
  | dorme =>
    obtain ⟨_, hc, rfl⟩ := Option.map_eq_some_iff.mp h
    obtain ⟨hL, rfl : dono = none, rfl⟩ := acorda_eq_some.mp hc
    obtain ⟨hcabe, hespera⟩ := hi.espera.acordaP hL
    exact { hi with dono := ⟨rfl, hdono.2⟩, sabeP := hcabe, espera := hespera }
  | sorteia =>
    obtain rfl := Option.some.inj h
    exact { hi with espera := hi.espera.segueP nofun nofun nofun }
  | anexa num =>
    obtain rfl := Option.some.inj h
    obtain ⟨rfl, hc⟩ := hdono.of_produtor
    have hcabe : fila.length < maxNum := hi.sabeP
    have hfila : produzidas = consumidas ++ fila := hi.fila
    have hlen : (fila ++ [num]).length = fila.length + 1 := by simp
    refine { hi with
      fila := ?_
      cabem := ?_
      sabeP := ?_
      sabeC := hi.sabeC.of_fora hc _
      espera := ?_ }
    · rw [hfila, List.append_assoc]
    · exact hlen.trans_le hcabe
    · exact hlen.symm ▸ Nat.succ_pos _
    · exact hlen.symm ▸ hi.espera.anexa
  | notifica =>
    obtain rfl := Option.some.inj h
    exact { hi with sabeP := trivial, espera := hi.espera.notifyP hi.sabeP }
  | libera =>
    obtain rfl := Option.some.inj h
    obtain ⟨rfl, hc⟩ := hdono.of_produtor
    exact { hi with dono := ⟨rfl, hc⟩, espera := hi.espera.segueP nofun nofun nofun }

theorem consome (hi : Invariante s) (h : s.consome = some s') : Invariante s' := by
  obtain ⟨fila, ⟨dono, L⟩, p, c, produzidas, consumidas⟩ := s
  have hdono := hi.dono
  cases c with
  | adquire =>
    obtain ⟨_, hc, rfl⟩ := Option.map_eq_some_iff.mp h
    obtain ⟨rfl : dono = none, rfl⟩ := acquire_eq_some.mp hc
    exact { hi with dono := ⟨hdono.1, rfl⟩, espera := hi.espera.segueC nofun nofun nofun }
  | testa =>
    obtain rfl := Option.some.inj h
    by_cases hvazia : fila = []
    · rw [if_pos hvazia]
      exact { hi with
        sabeC := List.length_eq_zero_iff.mpr hvazia
        espera := hi.espera.segueC nofun nofun nofun }
    · rw [if_neg hvazia]
      exact { hi with
        sabeC := List.length_pos_iff.mpr hvazia
        espera := hi.espera.segueC nofun nofun nofun }
  | espera =>
    obtain rfl := Option.some.inj h
    obtain ⟨rfl, hp⟩ := hdono.of_consumidor
    exact { hi with dono := ⟨hp, rfl⟩, sabeC := trivial, espera := hi.espera.waitC hi.sabeC }
  | dorme =>
    obtain ⟨_, hc, rfl⟩ := Option.map_eq_some_iff.mp h
    obtain ⟨hL, rfl : dono = none, rfl⟩ := acorda_eq_some.mp hc
    obtain ⟨hnum, hespera⟩ := hi.espera.acordaC hL
    exact { hi with dono := ⟨hdono.1, rfl⟩, sabeC := hnum, espera := hespera }
  | retira =>
    obtain ⟨rfl, hp⟩ := hdono.of_consumidor
    cases fila with
    | nil => exact absurd hi.sabeC (Nat.lt_irrefl 0)
    | cons num resto =>
      obtain rfl := Option.some.inj h
      have hfila : produzidas = consumidas ++ num :: resto := hi.fila
      have hcabe : resto.length < maxNum := hi.cabem
      refine { hi with
        fila := ?_
        cabem := hcabe.le
        sabeP := .of_fora hp _
        sabeC := hcabe
        espera := hi.espera.retira hcabe }
      rw [hfila, List.append_cons]
  | notifica =>
    obtain rfl := Option.some.inj h
    exact { hi with sabeC := trivial, espera := hi.espera.notifyC hi.sabeC }
  | libera =>
    obtain rfl := Option.some.inj h
    obtain ⟨rfl, hp⟩ := hdono.of_consumidor
    exact { hi with dono := ⟨hp, rfl⟩, espera := hi.espera.segueC nofun nofun nofun }
  | morto => cases h

theorem passo (hi : Invariante s) {a : Rotulo} (h : Passo s a s') : Invariante s' := by
  cases a with
  | produtor sorteio => exact hi.produz h
  | consumidor => exact hi.consome h

end Invariante

/-! ## Correctness -/

/-- What the two threads promise in each state. -/
structure Correto (s : Estado) : Prop where
  cabem : s.fila.length ≤ maxNum
  /-- `pop(0)` finds a message. -/
  pop : s.consumidor = .retira → s.fila ≠ []
  ordem : s.consumidas <+: s.produzidas
  /-- The two threads do not both wait to be notified. -/
  acordado : ¬(s.produtor = .dorme ∧ .produtor ∈ s.mutex.esperando ∧
    s.consumidor = .dorme ∧ .consumidor ∈ s.mutex.esperando)

theorem Invariante.correto {s : Estado} (hi : Invariante s) : Correto s where
  cabem := hi.cabem
  pop := by
    intro hc hvazia
    have hsabe := hi.sabeC
    rw [hc, hvazia] at hsabe
    exact Nat.lt_irrefl 0 hsabe
  ordem := ⟨s.fila, hi.fila.symm⟩
  acordado := by
    rintro ⟨-, hP, -, hC⟩
    obtain h | h | h := hi.espera.cases <;> simp [h] at hP hC

theorem correto_of_reachable {s : Estado} (h : Reachable Passo inicial s) : Correto s := by
  obtain ⟨hist, t⟩ := h
  exact (t.invariant (I := Invariante) .inicial fun hi hs ↦ hi.passo hs).correto

/-- The `Consumidor` sleeps, is notified and removes the message that woke it up. -/
theorem correto_of_reachable_notified : ∃ s, Reachable Passo inicial s ∧
    s.consumidas = [3] ∧ Correto s := by
  have hrun : (execute Estado.executa inicial
      [List.replicate 3 .consumidor, List.replicate 6 (.produtor 3),
        List.replicate 2 .consumidor].flatten).map Estado.consumidas = some [3] := rfl
  obtain ⟨hist, s, t, -, hnum⟩ : ∃ hist s, Trace Passo _ hist s ∧ _ :=
    exists_trace_of_execute_map (fun _ _ _ ↦ id) hrun
  exact ⟨s, ⟨hist, t⟩, hnum, correto_of_reachable ⟨hist, t⟩⟩

end SistemasOperacionais.FilaMensagens
