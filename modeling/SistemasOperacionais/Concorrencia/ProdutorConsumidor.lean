import SistemasOperacionais.Foundations.Trace
import SistemasOperacionais.Foundations.Handoff
import SistemasOperacionais.Concorrencia.Semaforo

/-!
# The bounded buffer with semaphores

`ProdutorConsumidor.c`: one producer and one consumer share a ring of `MAX_BUF` places, a mutex and
two semaphores to sleep on. The threads advance by one statement at a time, in any order.

The statements between two operations on the mutex touch the ring, the count and the flags, and the
invariant `Invariante` says what they can be at each pair of places in the two programs. How the
threads put each other to sleep and wake each other up is the pattern of `Foundations.Handoff`,
used twice: the producer waits for free places, the consumer for items.

`item_id` is an `int`. All the rest holds in runs of any length, but the numbers printed by the
consumer are `1, 2, 3, …` only up to the largest `int`.
-/

namespace SistemasOperacionais.ProdutorConsumidor

open Foundations Handoff Function Mysem

def maxBuf : ℕ := 10

/-! ## The program -/

/-- The next statement of `producer`. -/
inductive PcProdutor
  /-- `sem_change(sem_ID, 0, -1)` -/
  | trava
  /-- `if(count==MAX_BUF)` -/
  | testa
  /-- `fflag=1` -/
  | levanta
  /-- `sem_change(sem_ID, 0, 1)`, before going to sleep -/
  | solta
  /-- `sem_change(sem_ID, 2, -1)` -/
  | dorme
  /-- `sem_change(sem_ID, 0, -1)`, after it -/
  | retrava
  /-- `count++` -/
  | conta
  /-- `buffer[head]=item_id++` -/
  | guarda
  /-- `if(count==1 && eflag==1)` -/
  | olha
  /-- `eflag=0` -/
  | baixa
  /-- `sem_change(sem_ID, 1, 1)` -/
  | acorda
  /-- `head=(head+1)%MAX_BUF` -/
  | avanca
  /-- `sem_change(sem_ID, 0, 1)` -/
  | libera
deriving DecidableEq

/-- The next statement of `consumer`. -/
inductive PcConsumidor
  /-- `sem_change(sem_ID, 0, -1)` -/
  | trava
  /-- `if(count==0)` -/
  | testa
  /-- `eflag=1` -/
  | levanta
  /-- `sem_change(sem_ID, 0, 1)`, before going to sleep -/
  | solta
  /-- `sem_change(sem_ID, 1, -1)` -/
  | dorme
  /-- `sem_change(sem_ID, 0, -1)`, after it -/
  | retrava
  /-- `count--` -/
  | conta
  /-- `printf("consumed item:%d \n", buffer[tail])` -/
  | retira
  /-- `tail=(tail+1)%MAX_BUF` -/
  | avanca
  /-- `if(count==MAX_BUF-1 && fflag==1)` -/
  | olha
  /-- `fflag=0` -/
  | baixa
  /-- `sem_change(sem_ID, 2, 1)` -/
  | acorda
  /-- `sem_change(sem_ID, 0, 1)` -/
  | libera
deriving DecidableEq

structure Estado where
  buffer : ℕ → Int32
  head : ℕ
  tail : ℕ
  itemId : Int32
  count : ℤ
  fflag : ℕ
  eflag : ℕ
  /-- `{ Mutex, Empty, Full }` -/
  sem : Conjunto
  produtor : PcProdutor
  consumidor : PcConsumidor
  /-- What the consumer has printed. -/
  saida : List Int32

/-- The values that `main` means for the three semaphores. -/
def valores : Conjunto := fun i ↦ if i = 0 then 1 else 0

/-- `sem_init_diff_val(3, values)` with `values = {1, 0, 0}` does initialise them so. -/
theorem semInitDiffVal_valores (m : ByteMemory) (a : ℕ) :
    semInitDiffVal m a 3 [1, 0, 0] = valores := by
  funext i
  by_cases hi : i < 3
  · interval_cases i
    · exact semInitDiffVal_apply (x := 1) hi rfl
    · exact semInitDiffVal_apply (x := 1) hi rfl
    · exact semInitDiffVal_apply (x := 0) hi rfl
  · rw [semInitDiffVal, if_neg hi, valores, if_neg (by omega)]

def inicial : Estado := ⟨fun _ ↦ 0, 0, 0, 1, 0, 0, 0, valores, .trava, .trava, []⟩

/-- One statement of `producer`; `none` while it waits for a semaphore. -/
def Estado.producer (s : Estado) : Option Estado :=
  match s.produtor with
  | .trava => (semChange s.sem 0 (-1)).map fun S ↦ { s with sem := S, produtor := .testa }
  | .testa => some { s with produtor := if s.count = maxBuf then .levanta else .conta }
  | .levanta => some { s with fflag := 1, produtor := .solta }
  | .solta => (semChange s.sem 0 1).map fun S ↦ { s with sem := S, produtor := .dorme }
  | .dorme => (semChange s.sem 2 (-1)).map fun S ↦ { s with sem := S, produtor := .retrava }
  | .retrava => (semChange s.sem 0 (-1)).map fun S ↦ { s with sem := S, produtor := .conta }
  | .conta => some { s with count := s.count + 1, produtor := .guarda }
  | .guarda =>
    some { s with
      buffer := update s.buffer s.head s.itemId
      itemId := s.itemId + 1
      produtor := .olha }
  | .olha => some { s with produtor := if s.count = 1 ∧ s.eflag = 1 then .baixa else .avanca }
  | .baixa => some { s with eflag := 0, produtor := .acorda }
  | .acorda => (semChange s.sem 1 1).map fun S ↦ { s with sem := S, produtor := .avanca }
  | .avanca => some { s with head := (s.head + 1) % maxBuf, produtor := .libera }
  | .libera => (semChange s.sem 0 1).map fun S ↦ { s with sem := S, produtor := .trava }

def Estado.consumer (s : Estado) : Option Estado :=
  match s.consumidor with
  | .trava => (semChange s.sem 0 (-1)).map fun S ↦ { s with sem := S, consumidor := .testa }
  | .testa => some { s with consumidor := if s.count = 0 then .levanta else .conta }
  | .levanta => some { s with eflag := 1, consumidor := .solta }
  | .solta => (semChange s.sem 0 1).map fun S ↦ { s with sem := S, consumidor := .dorme }
  | .dorme => (semChange s.sem 1 (-1)).map fun S ↦ { s with sem := S, consumidor := .retrava }
  | .retrava => (semChange s.sem 0 (-1)).map fun S ↦ { s with sem := S, consumidor := .conta }
  | .conta => some { s with count := s.count - 1, consumidor := .retira }
  | .retira => some { s with saida := s.saida ++ [s.buffer s.tail], consumidor := .avanca }
  | .avanca => some { s with tail := (s.tail + 1) % maxBuf, consumidor := .olha }
  | .olha =>
    some { s with
      consumidor := if s.count = maxBuf - 1 ∧ s.fflag = 1 then .baixa else .libera }
  | .baixa => some { s with fflag := 0, consumidor := .acorda }
  | .acorda => (semChange s.sem 2 1).map fun S ↦ { s with sem := S, consumidor := .libera }
  | .libera => (semChange s.sem 0 1).map fun S ↦ { s with sem := S, consumidor := .trava }

inductive Thread
  | produtor
  | consumidor
deriving DecidableEq

def Estado.executa (s : Estado) : Thread → Option Estado
  | .produtor => s.producer
  | .consumidor => s.consumer

def Passo (s : Estado) (t : Thread) (s' : Estado) : Prop := s.executa t = some s'

/-! ## The places of the two programs -/

/-- The thread holds the mutex. -/
def PcProdutor.dentro : PcProdutor → ℕ
  | .trava | .dorme | .retrava => 0
  | _ => 1

def PcConsumidor.dentro : PcConsumidor → ℕ
  | .trava | .dorme | .retrava => 0
  | _ => 1

def PcProdutor.espera : PcProdutor → Waiter
  | .solta => .marked
  | .dorme => .asleep
  | .retrava => .woken
  | _ => .away

def PcConsumidor.espera : PcConsumidor → Waiter
  | .solta => .marked
  | .dorme => .asleep
  | .retrava => .woken
  | _ => .away

def PcProdutor.avisa : PcProdutor → Signaller
  | .olha => .supplied
  | .baixa => .lowering
  | .acorda => .posting
  | _ => .idle

def PcConsumidor.avisa : PcConsumidor → Signaller
  | .avanca | .olha => .supplied
  | .baixa => .lowering
  | .acorda => .posting
  | _ => .idle

/-- `count` runs ahead of the ring by this much. -/
def PcProdutor.adianta : PcProdutor → ℤ
  | .guarda => 1
  | _ => 0

def PcConsumidor.adianta : PcConsumidor → ℤ
  | .retira => 1
  | _ => 0

/-- The index lags behind the ring by this much. -/
def PcProdutor.atrasa : PcProdutor → ℕ
  | .olha | .baixa | .acorda | .avanca => 1
  | _ => 0

def PcConsumidor.atrasa : PcConsumidor → ℕ
  | .avanca => 1
  | _ => 0

/-- What the producer has learnt about the `k` stored and the `n` printed items. -/
def PcProdutor.Sabe (k n : ℕ) : PcProdutor → Prop
  | .levanta => k = n + maxBuf
  | .conta | .guarda => k < n + maxBuf
  | _ => True

def PcConsumidor.Sabe (k n : ℕ) : PcConsumidor → Prop
  | .levanta => k = n
  | .conta | .retira => n < k
  | _ => True

theorem PcProdutor.fora {p : PcProdutor} (h : p.dentro = 0) (k n : ℕ) :
    p.Sabe k n ∧ p.adianta = 0 ∧ p.atrasa = 0 ∧ p.avisa = .idle ∧ p.espera ≠ .marked := by
  cases p <;> simp [dentro, Sabe, adianta, atrasa, avisa, espera] at h ⊢

theorem PcConsumidor.fora {c : PcConsumidor} (h : c.dentro = 0) (k n : ℕ) :
    c.Sabe k n ∧ c.adianta = 0 ∧ c.atrasa = 0 ∧ c.avisa = .idle ∧ c.espera ≠ .marked := by
  cases c <;> simp [dentro, Sabe, adianta, atrasa, avisa, espera] at h ⊢

/-! ## The invariant -/

/-- The number of item `j`, counted from `0`. -/
def numero (j : ℕ) : Int32 := Int32.ofNat (j + 1)

/-- Storing item `k` does not overwrite one that has still to be printed. -/
theorem guarda_no_anel {buffer : ℕ → Int32} {k n : ℕ}
    (h : ∀ j, n ≤ j → j < k → buffer (j % maxBuf) = numero j) (hcabe : k < n + maxBuf) :
    ∀ j, n ≤ j → j < k + 1 → update buffer (k % maxBuf) (numero k) (j % maxBuf) = numero j := by
  intro j hlo hhi
  obtain rfl | hlt := (Nat.lt_succ_iff.mp hhi).eq_or_lt
  · rw [update_self]
  · have hne : j % maxBuf ≠ k % maxBuf := by
      unfold maxBuf at hcabe ⊢
      omega
    rw [update_of_ne hne, h j hlo hlt]

/-- `k` items have been stored. The items printed are the first ones, those not yet printed stand in
the ring, and the rest of the state is what the places of the two threads say. -/
structure Invariante (s : Estado) (k : ℕ) : Prop where
  mutex : s.sem 0 + s.produtor.dentro + s.consumidor.dentro = 1
  impressos : s.saida.length ≤ k
  cabem : k ≤ s.saida.length + maxBuf
  sabeP : s.produtor.Sabe k s.saida.length
  sabeC : s.consumidor.Sabe k s.saida.length
  count : s.count = k - s.saida.length + s.produtor.adianta - s.consumidor.adianta
  head : s.head < maxBuf ∧ (s.head + s.produtor.atrasa) % maxBuf = k % maxBuf
  tail : s.tail < maxBuf ∧ (s.tail + s.consumidor.atrasa) % maxBuf = s.saida.length % maxBuf
  itemId : s.itemId = numero k
  buffer : ∀ j, s.saida.length ≤ j → j < k → s.buffer (j % maxBuf) = numero j
  saida : s.saida = (List.range s.saida.length).map numero
  lugares : Inv s.produtor.espera s.consumidor.avisa s.fflag (s.sem 2) (s.saida.length + maxBuf - k)
  itens : Inv s.consumidor.espera s.produtor.avisa s.eflag (s.sem 1) (k - s.saida.length)

theorem Invariante.inicial : Invariante inicial 0 where
  mutex := rfl
  impressos := le_rfl
  cabem := Nat.zero_le _
  sabeP := trivial
  sabeC := trivial
  count := rfl
  head := ⟨by decide, rfl⟩
  tail := ⟨by decide, rfl⟩
  itemId := rfl
  buffer := by simp
  saida := rfl
  lugares := ⟨rfl, rfl, trivial⟩
  itens := ⟨rfl, rfl, trivial⟩

namespace Invariante

variable {s s' : Estado} {k : ℕ}

/-! ### A step of the producer -/

theorem consumidor_fora (hi : Invariante s k) (h : s.produtor.dentro = 1) :
    s.consumidor.dentro = 0 := by
  have hm := hi.mutex
  omega

theorem produtor_fora (hi : Invariante s k) (h : s.consumidor.dentro = 1) :
    s.produtor.dentro = 0 := by
  have hm := hi.mutex
  omega

theorem producer (hi : Invariante s k) (h : s.producer = some s') : ∃ k', Invariante s' k' := by
  obtain ⟨buffer, head, tail, itemId, count, fflag, eflag, S, p, c, saida⟩ := s
  have hmutex := hi.mutex
  have hcount := hi.count
  cases p with
  | trava =>
    obtain ⟨hpos : 0 < S 0, rfl⟩ := map_semChange_neg_one.mp h
    simp [PcProdutor.dentro] at hmutex
    exact ⟨k, { hi with mutex := by simp [PcProdutor.dentro]; omega }⟩
  | testa =>
    obtain rfl := Option.some.inj h
    obtain ⟨-, hadianta, -, -, -⟩ := PcConsumidor.fora (hi.consumidor_fora rfl) k saida.length
    simp [PcProdutor.adianta, hadianta] at hcount
    by_cases hcheio : count = maxBuf
    · rw [if_pos hcheio]
      refine ⟨k, { hi with sabeP := ?_ }⟩
      simp only [PcProdutor.Sabe]
      omega
    · rw [if_neg hcheio]
      have hcabem := hi.cabem
      refine ⟨k, { hi with sabeP := ?_ }⟩
      simp only [PcProdutor.Sabe] at hcabem ⊢
      omega
  | levanta =>
    obtain rfl := Option.some.inj h
    obtain ⟨-, -, -, havisa, -⟩ := PcConsumidor.fora (hi.consumidor_fora rfl) k saida.length
    have hcheio := hi.sabeP
    refine ⟨k, { hi with sabeP := trivial, lugares := ?_ }⟩
    have hl := hi.lugares
    simp only at hl havisa ⊢
    rw [havisa] at hl ⊢
    simp only [PcProdutor.Sabe] at hcheio
    exact hl.raise (by omega)
  | solta =>
    obtain rfl := Option.some.inj h
    exact ⟨k, { hi with
      mutex := by simpa [PcProdutor.dentro] using hmutex
      lugares := hi.lugares.sleep }⟩
  | dorme =>
    obtain ⟨hpos, rfl⟩ := map_semChange_neg_one.mp h
    exact ⟨k, { hi with lugares := hi.lugares.wake hpos }⟩
  | retrava =>
    obtain ⟨hpos : 0 < S 0, rfl⟩ := map_semChange_neg_one.mp h
    simp [PcProdutor.dentro] at hmutex
    obtain ⟨-, -, -, havisa, -⟩ := PcConsumidor.fora (c := c) (by omega) k saida.length
    have hl : Inv .woken c.avisa fflag (S 2) (saida.length + maxBuf - k) := hi.lugares
    have hlugar := hl.stock_pos
    rw [havisa] at hl
    refine ⟨k, { hi with mutex := ?_, sabeP := ?_, lugares := ?_ }⟩
    · simp [PcProdutor.dentro]
      omega
    · simp only [PcProdutor.Sabe]
      omega
    · simp only [havisa]
      exact hl.resume
  | conta =>
    obtain rfl := Option.some.inj h
    exact ⟨k, { hi with count := by simp [PcProdutor.adianta] at hcount ⊢; omega }⟩
  | guarda =>
    obtain rfl := Option.some.inj h
    have hcabe : k < saida.length + maxBuf := hi.sabeP
    obtain ⟨hsabeC, hadianta, -, -, hc⟩ :=
      PcConsumidor.fora (hi.consumidor_fora rfl) (k + 1) saida.length
    have himp : saida.length ≤ k := hi.impressos
    have hhead : head = k % maxBuf := by
      obtain ⟨hlt, hmod⟩ := hi.head
      simpa [PcProdutor.atrasa, Nat.mod_eq_of_lt hlt] using hmod
    refine ⟨k + 1, { hi with
      impressos := himp.trans (Nat.le_succ k)
      cabem := hcabe
      sabeP := trivial
      sabeC := hsabeC
      count := ?_
      head := ?_
      itemId := ?_
      buffer := ?_
      lugares := hi.lugares.use _
      itens := ?_ }⟩
    · simp [PcProdutor.adianta, hadianta] at hcount ⊢
      omega
    · refine ⟨hi.head.1, ?_⟩
      simp [PcProdutor.atrasa, hhead]
    · rw [hi.itemId]
      simp [numero, Int32.ofNat_add]
    · have hid : itemId = numero k := hi.itemId
      rw [hid, hhead]
      exact guarda_no_anel hi.buffer hcabe
    · have hit := hi.itens.supply hc
      rwa [← Nat.sub_add_comm himp] at hit
  | olha =>
    obtain rfl := Option.some.inj h
    obtain ⟨-, hadianta, -, -, -⟩ := PcConsumidor.fora (hi.consumidor_fora rfl) k saida.length
    simp [PcProdutor.adianta, hadianta] at hcount
    have hit : Inv c.espera .supplied eflag (S 1) (k - saida.length) := hi.itens
    by_cases htest : count = 1 ∧ eflag = 1
    · rw [if_pos htest]
      obtain ⟨-, rfl⟩ := htest
      exact ⟨k, { hi with itens := hit.notice }⟩
    · rw [if_neg htest]
      exact ⟨k, { hi with itens := hit.pass (by omega) }⟩
  | baixa =>
    obtain rfl := Option.some.inj h
    exact ⟨k, { hi with itens := hi.itens.lower }⟩
  | acorda =>
    obtain rfl := Option.some.inj h
    exact ⟨k, { hi with itens := hi.itens.post }⟩
  | avanca =>
    obtain rfl := Option.some.inj h
    obtain ⟨-, hmod⟩ := hi.head
    refine ⟨k, { hi with head := ⟨Nat.mod_lt _ (by decide), ?_⟩ }⟩
    simpa [PcProdutor.atrasa] using hmod
  | libera =>
    obtain rfl := Option.some.inj h
    exact ⟨k, { hi with mutex := by simpa [PcProdutor.dentro] using hmutex }⟩

/-! ### A step of the consumer -/

theorem consumer (hi : Invariante s k) (h : s.consumer = some s') : Invariante s' k := by
  obtain ⟨buffer, head, tail, itemId, count, fflag, eflag, S, p, c, saida⟩ := s
  have hmutex := hi.mutex
  have hcount := hi.count
  cases c with
  | trava =>
    obtain ⟨hpos : 0 < S 0, rfl⟩ := map_semChange_neg_one.mp h
    simp [PcConsumidor.dentro] at hmutex
    exact { hi with mutex := by simp [PcConsumidor.dentro]; omega }
  | testa =>
    obtain rfl := Option.some.inj h
    obtain ⟨-, hadianta, -, -, -⟩ := PcProdutor.fora (hi.produtor_fora rfl) k saida.length
    simp [PcConsumidor.adianta, hadianta] at hcount
    by_cases hvazio : count = 0
    · rw [if_pos hvazio]
      refine { hi with sabeC := ?_ }
      simp only [PcConsumidor.Sabe]
      omega
    · rw [if_neg hvazio]
      have himp : saida.length ≤ k := hi.impressos
      refine { hi with sabeC := ?_ }
      simp only [PcConsumidor.Sabe]
      omega
  | levanta =>
    obtain rfl := Option.some.inj h
    obtain ⟨-, -, -, havisa : p.avisa = .idle, -⟩ :=
      PcProdutor.fora (hi.produtor_fora rfl) k saida.length
    have hvazio : k = saida.length := hi.sabeC
    have hit : Inv .away p.avisa eflag (S 1) (k - saida.length) := hi.itens
    rw [havisa] at hit
    refine { hi with sabeC := trivial, itens := ?_ }
    simp only [havisa]
    exact hit.raise (by omega)
  | solta =>
    obtain rfl := Option.some.inj h
    exact { hi with
      mutex := by simpa [PcConsumidor.dentro, Nat.add_right_comm] using hmutex
      itens := hi.itens.sleep }
  | dorme =>
    obtain ⟨hpos, rfl⟩ := map_semChange_neg_one.mp h
    exact { hi with itens := hi.itens.wake hpos }
  | retrava =>
    obtain ⟨hpos : 0 < S 0, rfl⟩ := map_semChange_neg_one.mp h
    simp [PcConsumidor.dentro] at hmutex
    obtain ⟨-, -, -, havisa, -⟩ := PcProdutor.fora (p := p) (by omega) k saida.length
    have hit : Inv .woken p.avisa eflag (S 1) (k - saida.length) := hi.itens
    have hitem := hit.stock_pos
    rw [havisa] at hit
    refine { hi with mutex := ?_, sabeC := ?_, itens := ?_ }
    · simp [PcConsumidor.dentro]
      omega
    · simp only [PcConsumidor.Sabe]
      omega
    · simp only [havisa]
      exact hit.resume
  | conta =>
    obtain rfl := Option.some.inj h
    exact { hi with count := by simp [PcConsumidor.adianta] at hcount ⊢; omega }
  | retira =>
    obtain rfl := Option.some.inj h
    have hitem : saida.length < k := hi.sabeC
    have hcabem : k ≤ saida.length + maxBuf := hi.cabem
    obtain ⟨hsabeP, hadianta, -, -, hp⟩ :=
      PcProdutor.fora (hi.produtor_fora rfl) k (saida.length + 1)
    have htail : tail = saida.length % maxBuf := by
      obtain ⟨hlt, hmod⟩ := hi.tail
      simpa [PcConsumidor.atrasa, Nat.mod_eq_of_lt hlt] using hmod
    have hprox : buffer tail = numero saida.length := by
      rw [htail]
      exact hi.buffer _ le_rfl hitem
    have hlen : (saida ++ [buffer tail]).length = saida.length + 1 := by simp
    refine { hi with
      impressos := ?_
      cabem := ?_
      sabeP := ?_
      sabeC := trivial
      count := ?_
      tail := ?_
      buffer := ?_
      saida := ?_
      lugares := ?_
      itens := hi.itens.use _ } <;> simp only [hlen]
    · exact hitem
    · omega
    · exact hsabeP
    · simp [PcConsumidor.adianta, hadianta] at hcount ⊢
      omega
    · refine ⟨hi.tail.1, ?_⟩
      simp [PcConsumidor.atrasa, htail]
    · exact fun j hlo hhi ↦ hi.buffer j ((Nat.le_succ _).trans hlo) hhi
    · rw [List.range_succ, List.map_append, ← hi.saida, List.map_singleton, hprox]
    · have hl := hi.lugares.supply hp
      rwa [← Nat.sub_add_comm hcabem, Nat.add_right_comm] at hl
  | avanca =>
    obtain rfl := Option.some.inj h
    obtain ⟨-, hmod⟩ := hi.tail
    refine { hi with tail := ⟨Nat.mod_lt _ (by decide), ?_⟩ }
    simpa [PcConsumidor.atrasa] using hmod
  | olha =>
    obtain rfl := Option.some.inj h
    obtain ⟨-, hadianta, -, -, -⟩ := PcProdutor.fora (hi.produtor_fora rfl) k saida.length
    simp [PcConsumidor.adianta, hadianta] at hcount
    have hl : Inv p.espera .supplied fflag (S 2) (saida.length + maxBuf - k) := hi.lugares
    by_cases htest : count = maxBuf - 1 ∧ fflag = 1
    · rw [if_pos htest]
      obtain ⟨-, rfl⟩ := htest
      exact { hi with lugares := hl.notice }
    · rw [if_neg htest]
      exact { hi with lugares := hl.pass (by omega) }
  | baixa =>
    obtain rfl := Option.some.inj h
    exact { hi with lugares := hi.lugares.lower }
  | acorda =>
    obtain rfl := Option.some.inj h
    exact { hi with lugares := hi.lugares.post }
  | libera =>
    obtain rfl := Option.some.inj h
    exact { hi with mutex := by simpa [PcConsumidor.dentro, Nat.add_right_comm] using hmutex }

theorem passo (hi : Invariante s k) {t : Thread} (h : Passo s t s') : ∃ k', Invariante s' k' := by
  cases t with
  | produtor => exact hi.producer h
  | consumidor => exact ⟨k, hi.consumer h⟩

end Invariante

theorem invariante_of_trace {hist : List (Estado × Thread)} {s : Estado}
    (t : Trace Passo inicial hist s) : ∃ k, Invariante s k :=
  t.invariant (I := fun s ↦ ∃ k, Invariante s k) ⟨0, .inicial⟩ fun ⟨_, hi⟩ hs ↦ hi.passo hs

/-! ## No deadlock -/

theorem producer_eq_none {s : Estado} (h : s.producer = none) :
    s.produtor = .dorme ∧ s.sem 2 = 0 ∨ s.produtor.dentro = 0 ∧ s.sem 0 = 0 := by
  unfold Estado.producer at h
  split at h <;> simp_all [semChange_neg_one_eq_none, PcProdutor.dentro]

theorem consumer_eq_none {s : Estado} (h : s.consumer = none) :
    s.consumidor = .dorme ∧ s.sem 1 = 0 ∨ s.consumidor.dentro = 0 ∧ s.sem 0 = 0 := by
  unfold Estado.consumer at h
  split at h <;> simp_all [semChange_neg_one_eq_none, PcConsumidor.dentro]

theorem Invariante.exists_passo {s : Estado} {k : ℕ} (hi : Invariante s k) :
    ∃ t s', Passo s t s' := by
  by_contra hno
  push Not at hno
  have hp := producer_eq_none (Option.eq_none_iff_forall_ne_some.mpr (hno .produtor))
  have hc := consumer_eq_none (Option.eq_none_iff_forall_ne_some.mpr (hno .consumidor))
  have hmutex := hi.mutex
  obtain ⟨hp, hfull⟩ | ⟨hp, hzero⟩ := hp
  · obtain ⟨hc, hempty⟩ | ⟨hc, hzero⟩ := hc
    · -- both asleep: the ring would be full and empty
      have hl := hi.lugares
      have hit := hi.itens
      rw [hp, hc, hfull] at hl
      rw [hp, hc, hempty] at hit
      have hcheio := hl.stock_eq_zero
      have hvazio := hit.stock_eq_zero
      unfold maxBuf at hcheio
      omega
    · rw [hp, hc, hzero] at hmutex
      exact absurd hmutex (by decide)
  · obtain ⟨hc, -⟩ | ⟨hc, -⟩ := hc
    · rw [hp, hc, hzero] at hmutex
      exact absurd hmutex (by decide)
    · omega

/-! ## Correctness -/

def intMax : ℕ := 2 ^ 31 - 1

theorem toInt_numero {j : ℕ} (h : j < intMax) : (numero j).toInt = j + 1 := by
  have hlt : j + 1 < 2 ^ 31 := by
    unfold intMax at h
    omega
  rw [numero, Int32.toInt_ofNat_of_lt hlt]
  push_cast
  rfl

/-- What the program promises in each of its states. -/
structure Correto (s : Estado) : Prop where
  saida : s.saida.map Int32.toInt = (List.range s.saida.length).map fun j : ℕ ↦ (j : ℤ) + 1
  livre : 0 < s.sem 0 →
    0 ≤ s.count ∧ s.count ≤ maxBuf ∧ (s.head : ℤ) = (s.tail + s.count) % maxBuf
  empty : s.sem 1 ≤ 1
  full : s.sem 2 ≤ 1
  avanca : ∃ t s', Passo s t s'

namespace Invariante

variable {s s' : Estado} {k : ℕ}

theorem livre (hi : Invariante s k) (hpos : 0 < s.sem 0) :
    0 ≤ s.count ∧ s.count ≤ maxBuf ∧ (s.head : ℤ) = (s.tail + s.count) % maxBuf := by
  have hmutex := hi.mutex
  obtain ⟨-, hadP, hatP, -⟩ := PcProdutor.fora (p := s.produtor) (by omega) 0 0
  obtain ⟨-, hadC, hatC, -⟩ := PcConsumidor.fora (c := s.consumidor) (by omega) 0 0
  have hcount := hi.count
  have himp := hi.impressos
  have hcabem := hi.cabem
  obtain ⟨hhead, hhmod⟩ := hi.head
  obtain ⟨htail, htmod⟩ := hi.tail
  rw [hadP, hadC] at hcount
  rw [hatP] at hhmod
  rw [hatC] at htmod
  unfold maxBuf at *
  omega

theorem correto_iff (hi : Invariante s k) : Correto s ↔ s.saida.length ≤ intMax := by
  constructor
  · intro hok
    by_contra hlen
    have hlt : intMax < s.saida.length := by omega
    have h := congrArg (·[intMax]?) hok.saida
    rw [hi.saida] at h
    simp [hlt] at h
    exact absurd h (by decide)
  · intro hlen
    refine ⟨?_, hi.livre, hi.itens.sem_le_one, hi.lugares.sem_le_one, hi.exists_passo⟩
    conv_lhs => rw [hi.saida]
    rw [List.map_map]
    refine List.map_congr_left fun j hj ↦ toInt_numero ?_
    have hj := List.mem_range.mp hj
    omega

end Invariante

/-- The numbers of the items fit into an `int`: when the consumer is about to print, fewer than
`INT_MAX` items have been printed. -/
def Cabe (s : Estado) (t : Thread) : Prop :=
  t = .consumidor → s.consumidor = .retira → s.saida.length < intMax

theorem length_saida {s s' : Estado} {t : Thread} (h : Passo s t s') :
    s'.saida.length =
      s.saida.length + if t = .consumidor ∧ s.consumidor = .retira then 1 else 0 := by
  cases t with
  | produtor =>
    simp only [Passo, Estado.executa, Estado.producer] at h
    split at h <;> simp at h <;> first | obtain rfl := h | obtain ⟨_, -, rfl⟩ := h
    all_goals simp
  | consumidor =>
    simp only [Passo, Estado.executa, Estado.consumer] at h
    split at h <;> simp at h <;> first | obtain rfl := h | obtain ⟨_, -, rfl⟩ := h
    all_goals simp [*]

theorem correto_everywhere_iff {hist : List (Estado × Thread)} {s : Estado}
    (t : Trace Passo inicial hist s) :
    Trace.Everywhere Correto hist s ↔ Trace.Guarded Cabe hist := by
  refine Trace.everywhere_iff (I := fun s ↦ (∃ k, Invariante s k) ∧ s.saida.length ≤ intMax)
    ⟨⟨0, .inicial⟩, Nat.zero_le _⟩ ?_ ?_ ?_ t
  · rintro s ⟨⟨k, hi⟩, hlen⟩
    exact hi.correto_iff.mpr hlen
  · rintro s a s' ⟨⟨k, hi⟩, hlen⟩ hC hs
    refine ⟨hi.passo hs, ?_⟩
    rw [length_saida hs]
    split_ifs with hret
    · exact hC hret.1 hret.2
    · exact hlen
  · rintro s a s' ⟨⟨k, hi⟩, -⟩ hC hs hok
    obtain ⟨k', hi'⟩ := hi.passo hs
    have hlen := hi'.correto_iff.mp hok
    refine hC fun ha hret ↦ ?_
    rw [length_saida hs, if_pos ⟨ha, hret⟩] at hlen
    exact hlen

/-! ### Producing and consuming in turns -/

/-- One item through the ring while nobody has to wait. -/
def ciclo : List Thread := List.replicate 7 .produtor ++ List.replicate 7 .consumidor

/-- Both threads are at the beginning and the ring is empty. -/
structure Repouso (s : Estado) (n : ℕ) : Prop where
  produtor : s.produtor = .trava
  consumidor : s.consumidor = .trava
  sem : s.sem 0 = 1
  count : s.count = 0
  fflag : s.fflag = 0
  eflag : s.eflag = 0
  saida : s.saida.length = n

section Round

variable {buffer : ℕ → Int32} {head tail : ℕ} {itemId : Int32} {S : Conjunto} {saida : List Int32}

theorem semChange_trava (hS : S 0 = 1) : semChange S 0 (-1) = some (update S 0 0) := by
  rw [semChange_neg_one_eq_some, hS]
  exact ⟨Nat.one_pos, rfl⟩

theorem semChange_libera (hS : S 0 = 1) : semChange (update S 0 0) 0 1 = some S := by
  rw [semChange_one, update_self, update_idem, Nat.zero_add, ← hS, update_eq_self]

theorem execute_produtor (hS : S 0 = 1) :
    execute Estado.executa ⟨buffer, head, tail, itemId, 0, 0, 0, S, .trava, .trava, saida⟩
        (List.replicate 7 .produtor) =
      some ⟨update buffer head itemId, (head + 1) % maxBuf, tail, itemId + 1, 1, 0, 0, S, .trava,
        .trava, saida⟩ := by
  have hcheio : (0 : ℤ) ≠ maxBuf := by decide
  simp only [List.replicate, execute, Estado.executa, Estado.producer, semChange_trava hS,
    semChange_libera hS, hcheio, if_false, Option.map_some, Option.bind_some, zero_add, zero_ne_one,
    and_false]

theorem execute_consumidor (hS : S 0 = 1) :
    execute Estado.executa ⟨buffer, head, tail, itemId, 1, 0, 0, S, .trava, .trava, saida⟩
        (List.replicate 7 .consumidor) =
      some ⟨buffer, head, (tail + 1) % maxBuf, itemId, 0, 0, 0, S, .trava, .trava,
        saida ++ [buffer tail]⟩ := by
  simp only [List.replicate, execute, Estado.executa, Estado.consumer, semChange_trava hS,
    semChange_libera hS, if_false, Option.map_some, Option.bind_some, one_ne_zero, zero_ne_one,
    sub_self, and_false]

theorem execute_ciclo (hS : S 0 = 1) :
    execute Estado.executa ⟨buffer, head, tail, itemId, 0, 0, 0, S, .trava, .trava, saida⟩ ciclo =
      some ⟨update buffer head itemId, (head + 1) % maxBuf, (tail + 1) % maxBuf, itemId + 1, 0, 0,
        0, S, .trava, .trava, saida ++ [update buffer head itemId tail]⟩ := by
  rw [ciclo, execute_append, execute_produtor hS, Option.bind_some, execute_consumidor hS]

end Round

theorem Repouso.ciclo {s : Estado} {n : ℕ} (hr : Repouso s n) :
    ∃ s', execute Estado.executa s ciclo = some s' ∧ Repouso s' (n + 1) := by
  obtain ⟨buffer, head, tail, itemId, count, fflag, eflag, S, p, c, saida⟩ := s
  obtain ⟨rfl, rfl, hS, rfl, rfl, rfl, rfl⟩ := hr
  exact ⟨_, execute_ciclo hS, rfl, rfl, hS, rfl, rfl, rfl, List.length_append⟩

theorem execute_ciclos (n : ℕ) : ∃ s,
    execute Estado.executa inicial (List.replicate n ciclo).flatten = some s ∧ Repouso s n := by
  induction n with
  | zero => exact ⟨inicial, rfl, rfl, rfl, rfl, rfl, rfl, rfl, rfl⟩
  | succ n ih =>
    obtain ⟨s, hs, hr⟩ := ih
    obtain ⟨s', hs', hr'⟩ := hr.ciclo
    refine ⟨s', ?_, hr'⟩
    rw [List.replicate_succ', List.flatten_concat, execute_append, hs, Option.bind_some, hs']

/-- The first three items. -/
theorem correto_everywhere_iff_three : ∃ hist s, Trace Passo inicial hist s ∧
    s.saida.length = 3 ∧ (Trace.Everywhere Correto hist s ↔ Trace.Guarded Cabe hist) := by
  obtain ⟨s, hs, hr⟩ := execute_ciclos 3
  obtain ⟨hist, t, -⟩ : ∃ hist, Trace Passo _ hist s ∧ _ :=
    exists_trace_of_execute (fun _ _ _ ↦ id) hs
  exact ⟨hist, s, t, hr.saida, correto_everywhere_iff t⟩

/-- After `2³¹` rounds the last number printed is negative. -/
theorem correto_fails : ∃ hist s, Trace Passo inicial hist s ∧
    hist.map Prod.snd = (List.replicate (2 ^ 31) ciclo).flatten ∧ ¬Correto s := by
  obtain ⟨s, hs, hr⟩ := execute_ciclos (2 ^ 31)
  obtain ⟨hist, t, hlab⟩ : ∃ hist, Trace Passo _ hist s ∧ _ :=
    exists_trace_of_execute (fun _ _ _ ↦ id) hs
  refine ⟨hist, s, t, hlab, fun hok ↦ ?_⟩
  obtain ⟨k, hi⟩ := invariante_of_trace t
  have hlen := hi.correto_iff.mp hok
  rw [hr.saida, intMax] at hlen
  omega

end SistemasOperacionais.ProdutorConsumidor
