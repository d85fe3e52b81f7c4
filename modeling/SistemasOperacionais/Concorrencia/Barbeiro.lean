import SistemasOperacionais.Foundations.Trace
import SistemasOperacionais.Foundations.Threads
import SistemasOperacionais.Foundations.Handoff
import SistemasOperacionais.Concorrencia.Semaforo

/-!
# The sleeping barber

`Barbeiro.c`: one barber and any number of customers over five semaphores, of which the code uses
four: the mutex `0`, the semaphore `1` the barber sleeps on, and the pair `3`, `4` by which the
barber calls a customer to the chair and the customer says that it is free again.

The initial values are passed through `sem_init_diff_val`, which reads the array of `int`s as an
array of `unsigned short`s: the value meant for semaphore `2` ends up in semaphore `4`. The barber
therefore does not wait for the chair the first five times. The number of waiting customers is not
touched by this and stays between `0` and `MAX_C`.
-/

namespace SistemasOperacionais.Barbeiro

open Foundations Handoff Function Mysem

def maxC : ℕ := 5

/-! ## The program -/

/-- The next statement of `barber`. -/
inductive PcBarbeiro
  /-- `sem_change(sem_ID, 0, -1)` -/
  | trava
  /-- `if(customers_count==0)` -/
  | testa
  /-- `eflag=1` -/
  | levanta
  /-- `sem_change(sem_ID, 0, 1)`, before going to sleep -/
  | solta
  /-- `sem_change(sem_ID, 1, -1)` -/
  | dorme
  /-- `sem_change(sem_ID, 0, -1)`, after it -/
  | retrava
  /-- `customers_count--` -/
  | conta
  /-- `sem_change(sem_ID, 0, 1)` -/
  | libera
  /-- `sem_change(sem_ID, 3, 1)` -/
  | chama
  /-- `sem_change(sem_ID, 4, -1)` -/
  | espera
deriving DecidableEq

/-- The next statement of `customer`. -/
inductive PcCliente
  /-- `sem_change(sem_ID, 0, -1)` -/
  | trava
  /-- `if(customers_count==MAX_C)` -/
  | testa
  /-- `sem_change(sem_ID, 0, 1)`, before leaving -/
  | desiste
  /-- `customers_count++` -/
  | conta
  /-- `if(customers_count==1 && eflag==1)` -/
  | olha
  /-- `sem_change(sem_ID, 1, 1)` -/
  | acorda
  /-- `eflag=0` -/
  | baixa
  /-- `sem_change(sem_ID, 0, 1)` -/
  | libera
  /-- `sem_change(sem_ID, 3, -1)` -/
  | aguarda
  /-- in the chair, up to `sem_change(sem_ID, 4, 1)` -/
  | cadeira
  /-- after `return` -/
  | fim
deriving DecidableEq

structure Comum where
  sem : Conjunto
  customersCount : ℤ
  eflag : ℕ
  barbeiro : PcBarbeiro

/-- One statement of the barber; `none` while it waits for a semaphore. -/
def barber (m : Comum) : Option Comum :=
  match m.barbeiro with
  | .trava => (semChange m.sem 0 (-1)).map fun S ↦ { m with sem := S, barbeiro := .testa }
  | .testa => some { m with barbeiro := if m.customersCount = 0 then .levanta else .conta }
  | .levanta => some { m with eflag := 1, barbeiro := .solta }
  | .solta => (semChange m.sem 0 1).map fun S ↦ { m with sem := S, barbeiro := .dorme }
  | .dorme => (semChange m.sem 1 (-1)).map fun S ↦ { m with sem := S, barbeiro := .retrava }
  | .retrava => (semChange m.sem 0 (-1)).map fun S ↦ { m with sem := S, barbeiro := .conta }
  | .conta => some { m with customersCount := m.customersCount - 1, barbeiro := .libera }
  | .libera => (semChange m.sem 0 1).map fun S ↦ { m with sem := S, barbeiro := .chama }
  | .chama => (semChange m.sem 3 1).map fun S ↦ { m with sem := S, barbeiro := .espera }
  | .espera => (semChange m.sem 4 (-1)).map fun S ↦ { m with sem := S, barbeiro := .trava }

def customer (m : Comum) : PcCliente → Option (Comum × PcCliente)
  | .trava => (semChange m.sem 0 (-1)).map fun S ↦ ({ m with sem := S }, .testa)
  | .testa => some (m, if m.customersCount = maxC then .desiste else .conta)
  | .desiste => (semChange m.sem 0 1).map fun S ↦ ({ m with sem := S }, .fim)
  | .conta => some ({ m with customersCount := m.customersCount + 1 }, .olha)
  | .olha => some (m, if m.customersCount = 1 ∧ m.eflag = 1 then .acorda else .libera)
  | .acorda => (semChange m.sem 1 1).map fun S ↦ ({ m with sem := S }, .baixa)
  | .baixa => some ({ m with eflag := 0 }, .libera)
  | .libera => (semChange m.sem 0 1).map fun S ↦ ({ m with sem := S }, .aguarda)
  | .aguarda => (semChange m.sem 3 (-1)).map fun S ↦ ({ m with sem := S }, .cadeira)
  | .cadeira => (semChange m.sem 4 1).map fun S ↦ ({ m with sem := S }, .fim)
  | .fim => none

variable {κ : Type*}

abbrev Estado (κ : Type*) := Threads Comum PcCliente κ

/-- The semaphores as `main` creates them, with its array at address `a` of the memory `mem`. -/
def inicial (κ : Type*) (mem : ByteMemory) (a : ℕ) : Estado κ :=
  ⟨⟨semInitDiffVal mem a 5 [1, 0, maxC, 0, 0], 0, 0, .trava⟩, fun _ ↦ .trava⟩

inductive Quem (κ : Type*)
  | barbeiro
  | cliente (i : κ)
deriving DecidableEq

theorem semInitDiffVal_array (mem : ByteMemory) (a : ℕ) :
    semInitDiffVal mem a 5 [1, 0, maxC, 0, 0] =
      fun i ↦ if i = 0 then 1 else if i = 4 then maxC else 0 := by
  funext i
  by_cases hi : i < 5
  · interval_cases i
    · exact semInitDiffVal_apply (x := 1) hi rfl
    · exact semInitDiffVal_apply (x := 1) hi rfl
    · exact semInitDiffVal_apply (x := 0) hi rfl
    · exact semInitDiffVal_apply (x := 0) hi rfl
    · exact semInitDiffVal_apply (x := maxC) hi rfl
  · rw [semInitDiffVal, if_neg hi, if_neg (by omega), if_neg (by omega)]

theorem inicial_eq (mem : ByteMemory) (a : ℕ) : inicial κ mem a =
    ⟨⟨fun i ↦ if i = 0 then 1 else if i = 4 then maxC else 0, 0, 0, .trava⟩, fun _ ↦ .trava⟩ := by
  rw [inicial, semInitDiffVal_array]

section Step

variable [DecidableEq κ]

def executa (s : Estado κ) : Quem κ → Option (Estado κ)
  | .barbeiro => (barber s.shared).map fun m ↦ { s with shared := m }
  | .cliente i => Threads.step (fun _ ↦ customer) s i

def Passo (s : Estado κ) (q : Quem κ) (s' : Estado κ) : Prop := executa s q = some s'

theorem passo_barbeiro {s s' : Estado κ} :
    Passo s .barbeiro s' ↔ ∃ m, barber s.shared = some m ∧ s' = ⟨m, s.loc⟩ := by
  simp [Passo, executa, eq_comm]

theorem passo_cliente {s s' : Estado κ} {i : κ} :
    Passo s (.cliente i) s' ↔
      ∃ m c, customer s.shared (s.loc i) = some (m, c) ∧ s' = ⟨m, update s.loc i c⟩ := by
  rw [Passo, executa, Threads.step_eq_some]

end Step

/-! ## The waiting room -/

def PcBarbeiro.dentro : PcBarbeiro → ℕ
  | .testa | .levanta | .solta | .conta | .libera => 1
  | _ => 0

def PcBarbeiro.fase : PcBarbeiro → Waiter
  | .solta => .marked
  | .dorme => .asleep
  | .retrava => .woken
  | _ => .away

/-- What the barber knows about `customers_count`. -/
def PcBarbeiro.Sabe (n : ℤ) : PcBarbeiro → Prop
  | .levanta => n = 0
  | .conta => 0 < n
  | _ => True

def PcCliente.dentro : PcCliente → Bool
  | .testa | .desiste | .conta | .olha | .acorda | .baixa | .libera => true
  | _ => false

def PcCliente.avisa : PcCliente → Signaller
  | .olha => .supplied
  | .acorda => .ringing
  | .baixa => .clearing
  | _ => .idle

/-- What the customer knows about `customers_count`. -/
def PcCliente.Sabe (n : ℤ) : PcCliente → Prop
  | .conta => n < maxC
  | _ => True

theorem PcBarbeiro.fora {b : PcBarbeiro} (h : b.dentro = 0) (n : ℤ) :
    b.Sabe n ∧ b.fase ≠ .marked := by
  cases b <;> simp [dentro, Sabe, fase] at h ⊢

theorem PcCliente.Sabe.of_fora {c : PcCliente} (h : c.dentro = false) (n : ℤ) : c.Sabe n := by
  cases c <;> trivial

/-- The customers taken together are where the one inside the mutex is. -/
structure Sinal (loc : κ → PcCliente) (g : Signaller) : Prop where
  dentro : ∀ i, (loc i).dentro = true → (loc i).avisa = g
  fora : (∀ i, (loc i).dentro = false) → g = .idle

theorem Sinal.of_outros [DecidableEq κ] {loc : κ → PcCliente} {i : κ} {c : PcCliente}
    (h : ∀ j, j ≠ i → (loc j).dentro = false) (hc : c.dentro = false → c.avisa = .idle) :
    Sinal (update loc i c) c.avisa where
  dentro j hj := by
    obtain rfl | hne := eq_or_ne j i
    · rw [update_self]
    · rw [update_of_ne hne, h j hne] at hj
      cases hj
  fora hall := by
    have hi := hall i
    rw [update_self] at hi
    exact hc hi

theorem Sinal.of_fora [DecidableEq κ] {loc : κ → PcCliente} {i : κ} {c : PcCliente} {g : Signaller}
    (hs : Sinal loc g) (hi : (loc i).dentro = false) (hc : c.dentro = false) :
    Sinal (update loc i c) g where
  dentro j hj := by
    obtain rfl | hne := eq_or_ne j i
    · rw [update_self, hc] at hj
      cases hj
    · rw [update_of_ne hne] at hj ⊢
      exact hs.dentro j hj
  fora hall := by
    refine hs.fora fun j ↦ ?_
    obtain rfl | hne := eq_or_ne j i
    · exact hi
    · have hj := hall j
      rwa [update_of_ne hne] at hj

section Invariant

variable [Fintype κ]

/-- The customers in the waiting room are counted correctly; `g` is where the customers are in the
protocol that wakes the barber up. -/
structure Invariante (s : Estado κ) (g : Signaller) : Prop where
  mutex : s.shared.sem 0 + s.shared.barbeiro.dentro + tally PcCliente.dentro s.loc = 1
  minimo : 0 ≤ s.shared.customersCount
  maximo : s.shared.customersCount ≤ maxC
  sabeB : s.shared.barbeiro.Sabe s.shared.customersCount
  sabeC : ∀ i, (s.loc i).Sabe s.shared.customersCount
  sinal : Sinal s.loc g
  sono : Inv s.shared.barbeiro.fase g s.shared.eflag (s.shared.sem 1)
    s.shared.customersCount.toNat

theorem Invariante.inicial (mem : ByteMemory) (a : ℕ) : Invariante (inicial κ mem a) .idle where
  mutex := by
    have hzero : tally PcCliente.dentro (Barbeiro.inicial κ mem a).loc = 0 :=
      tally_eq_zero fun _ ↦ rfl
    rw [hzero, inicial_eq]
    rfl
  minimo := le_rfl
  maximo := Int.natCast_nonneg maxC
  sabeB := trivial
  sabeC _ := trivial
  sinal := ⟨nofun, fun _ ↦ rfl⟩
  sono := by
    rw [inicial_eq]
    exact ⟨rfl, rfl, trivial⟩

namespace Invariante

variable {s : Estado κ} {g : Signaller}

theorem clientes_fora (hi : Invariante s g)
    (h : s.shared.barbeiro.dentro = 1 ∨ 0 < s.shared.sem 0) :
    ∀ i, (s.loc i).dentro = false := by
  intro i
  by_contra hne
  have hpos := tally_pos (p := PcCliente.dentro) (f := s.loc) (Bool.eq_true_of_not_eq_false hne)
  have hm := hi.mutex
  omega

theorem idle (hi : Invariante s g) (h : s.shared.barbeiro.dentro = 1 ∨ 0 < s.shared.sem 0) :
    g = .idle := hi.sinal.fora (hi.clientes_fora h)

theorem barber (hi : Invariante s g) {m : Comum} (h : barber s.shared = some m) :
    Invariante ⟨m, s.loc⟩ g := by
  obtain ⟨⟨S, n, eflag, b⟩, loc⟩ := s
  have hmutex := hi.mutex
  have hmin : 0 ≤ n := hi.minimo
  cases b with
  | trava =>
    obtain ⟨hpos : 0 < S 0, rfl⟩ := map_semChange_neg_one.mp h
    simp only [PcBarbeiro.dentro] at hmutex
    exact { hi with mutex := by simp [PcBarbeiro.dentro]; omega }
  | testa =>
    obtain rfl := Option.some.inj h
    by_cases hvazio : n = 0
    · rw [if_pos hvazio]
      exact { hi with sabeB := hvazio }
    · rw [if_neg hvazio]
      exact { hi with sabeB := hmin.lt_of_ne' hvazio }
  | levanta =>
    obtain rfl := Option.some.inj h
    obtain rfl := hi.idle (Or.inl rfl)
    have hzero : n = 0 := hi.sabeB
    exact { hi with sabeB := trivial, sono := hi.sono.raise (by simp [hzero]) }
  | solta =>
    obtain rfl := Option.some.inj h
    simp only [PcBarbeiro.dentro] at hmutex
    exact { hi with
      mutex := by simp [PcBarbeiro.dentro]; omega
      sono := hi.sono.sleep }
  | dorme =>
    obtain ⟨hpos, rfl⟩ := map_semChange_neg_one.mp h
    exact { hi with sono := hi.sono.wake hpos }
  | retrava =>
    obtain ⟨hpos : 0 < S 0, rfl⟩ := map_semChange_neg_one.mp h
    obtain rfl := hi.idle (Or.inr hpos)
    simp only [PcBarbeiro.dentro] at hmutex
    have hone : 0 < n.toNat := hi.sono.stock_pos
    refine { hi with mutex := ?_, sabeB := ?_, sono := hi.sono.resume }
    · simp [PcBarbeiro.dentro]
      omega
    · simp only [PcBarbeiro.Sabe]
      omega
  | conta =>
    obtain rfl := Option.some.inj h
    have hone : 0 < n := hi.sabeB
    have hmax : n ≤ maxC := hi.maximo
    exact { hi with
      minimo := by dsimp only; omega
      maximo := by dsimp only; omega
      sabeB := trivial
      sabeC := fun i ↦ .of_fora (hi.clientes_fora (Or.inl rfl) i) _
      sono := hi.sono.use _ }
  | libera =>
    obtain rfl := Option.some.inj h
    simp only [PcBarbeiro.dentro] at hmutex
    exact { hi with mutex := by simp [PcBarbeiro.dentro]; omega }
  | chama =>
    obtain rfl := Option.some.inj h
    exact { hi with }
  | espera =>
    obtain ⟨-, rfl⟩ := map_semChange_neg_one.mp h
    exact { hi with }

theorem cliente_dentro (hi : Invariante s g) {i : κ} (h : (s.loc i).dentro = true) :
    s.shared.sem 0 = 0 ∧ s.shared.barbeiro.dentro = 0 ∧
      (∀ j, j ≠ i → (s.loc j).dentro = false) ∧ g = (s.loc i).avisa := by
  have hpos := tally_pos h
  have hm := hi.mutex
  refine ⟨by omega, by omega, fun j hne ↦ ?_, (hi.sinal.dentro i h).symm⟩
  by_contra hj
  exact hne (eq_of_tally_le_one (by omega) (Bool.eq_true_of_not_eq_false hj) h)

variable [DecidableEq κ] {i : κ} {m : Comum} {c : PcCliente}

/-- The customer inside the mutex takes a step: what it leaves behind has to be consistent by
itself, because nobody else knows anything. -/
theorem passo_dentro (hi : Invariante s g) (h : (s.loc i).dentro = true)
    (hsem : m.sem 0 + c.dentro.toNat = 1) (hb : m.barbeiro = s.shared.barbeiro)
    (hmin : 0 ≤ m.customersCount) (hmax : m.customersCount ≤ maxC) (hc : c.Sabe m.customersCount)
    (hfora : c.dentro = false → c.avisa = .idle)
    (hsono : Inv s.shared.barbeiro.fase c.avisa m.eflag (m.sem 1) m.customersCount.toNat) :
    Invariante ⟨m, update s.loc i c⟩ c.avisa := by
  obtain ⟨hzero, hbarb, houtros, -⟩ := hi.cliente_dentro h
  have hu := tally_update PcCliente.dentro s.loc i c
  have hmutex := hi.mutex
  rw [h, Bool.toNat_true] at hu
  refine ⟨?_, hmin, hmax, ?_, ?_, .of_outros houtros hfora, hb ▸ hsono⟩
  · simp only [hb]
    omega
  · simp only [hb]
    exact (PcBarbeiro.fora hbarb _).1
  · refine (forall_update_iff s.loc fun _ pc ↦ pc.Sabe m.customersCount).mpr ⟨hc, fun j hne ↦ ?_⟩
    exact .of_fora (houtros j hne) _

theorem passo_fora (hi : Invariante s g) (h : (s.loc i).dentro = false) (hc : c.dentro = false)
    (hm : ∀ k, k = 0 ∨ k = 1 → m.sem k = s.shared.sem k) (hb : m.barbeiro = s.shared.barbeiro)
    (hn : m.customersCount = s.shared.customersCount) (he : m.eflag = s.shared.eflag) :
    Invariante ⟨m, update s.loc i c⟩ g := by
  have hu := tally_update PcCliente.dentro s.loc i c
  have hmutex := hi.mutex
  rw [h, hc, Bool.toNat_false] at hu
  refine ⟨?_, hn ▸ hi.minimo, hn ▸ hi.maximo, ?_, ?_, hi.sinal.of_fora h hc, ?_⟩
  · simp only [hb, hm 0 (Or.inl rfl)]
    omega
  · simp only [hb, hn]
    exact hi.sabeB
  · simp only [hn]
    exact (forall_update_iff s.loc fun _ pc ↦ pc.Sabe s.shared.customersCount).mpr
      ⟨.of_fora hc _, fun j _ ↦ hi.sabeC j⟩
  · simp only [hb, hn, he, hm 1 (Or.inr rfl)]
    exact hi.sono

theorem customer_dentro (hi : Invariante s g) (hin : (s.loc i).dentro = true)
    (h : customer s.shared (s.loc i) = some (m, c)) :
    Invariante ⟨m, update s.loc i c⟩ c.avisa := by
  obtain ⟨hzero, hbarb, -, hg⟩ := hi.cliente_dentro hin
  have hpasso := hi.passo_dentro (m := m) (c := c) hin
  have hmin := hi.minimo
  have hmax := hi.maximo
  have hsabe := hi.sabeC i
  have hsono := hi.sono
  rw [hg] at hsono
  generalize s.loc i = pc at h hin hsabe hsono
  cases pc with
  | trava | aguarda | cadeira | fim => cases hin
  | testa =>
    obtain ⟨rfl, rfl⟩ := Prod.mk.inj (Option.some.inj h)
    by_cases hcheio : s.shared.customersCount = maxC
    · rw [if_pos hcheio] at hpasso ⊢
      exact hpasso (by rw [hzero]; rfl) rfl hmin hmax trivial nofun hsono
    · rw [if_neg hcheio] at hpasso ⊢
      exact hpasso (by rw [hzero]; rfl) rfl hmin hmax (hmax.lt_of_ne hcheio) nofun hsono
  | conta =>
    obtain ⟨rfl, rfl⟩ := Prod.mk.inj (Option.some.inj h)
    have hstock : (s.shared.customersCount + 1).toNat = s.shared.customersCount.toNat + 1 := by
      omega
    refine hpasso (by rw [hzero]; rfl) rfl (by dsimp only; omega) hsabe trivial nofun ?_
    simp only [hstock]
    exact hsono.supply (PcBarbeiro.fora hbarb 0).2
  | olha =>
    obtain ⟨rfl, rfl⟩ := Prod.mk.inj (Option.some.inj h)
    by_cases htest : s.shared.customersCount = 1 ∧ s.shared.eflag = 1
    · rw [if_pos htest] at hpasso ⊢
      rw [htest.2] at hsono hpasso
      exact hpasso (by rw [hzero]; rfl) rfl hmin hmax trivial nofun hsono.answer
    · rw [if_neg htest] at hpasso ⊢
      exact hpasso (by rw [hzero]; rfl) rfl hmin hmax trivial nofun (hsono.pass (by omega))
  | acorda =>
    obtain ⟨rfl, rfl⟩ := Prod.mk.inj (Option.some.inj h)
    exact hpasso (by simp [hzero, PcCliente.dentro]) rfl hmin hmax trivial nofun hsono.ring
  | baixa =>
    obtain ⟨rfl, rfl⟩ := Prod.mk.inj (Option.some.inj h)
    exact hpasso (by rw [hzero]; rfl) rfl hmin hmax trivial nofun hsono.clear
  | desiste | libera =>
    obtain ⟨rfl, rfl⟩ := Prod.mk.inj (Option.some.inj h)
    exact hpasso (by simp [hzero, PcCliente.dentro]) rfl hmin hmax trivial (fun _ ↦ rfl) hsono

theorem customer (hi : Invariante s g) (h : customer s.shared (s.loc i) = some (m, c)) :
    ∃ g', Invariante ⟨m, update s.loc i c⟩ g' := by
  cases hin : (s.loc i).dentro with
  | true => exact ⟨_, hi.customer_dentro hin h⟩
  | false =>
    have hfora := fun hc ↦ hi.passo_fora (m := m) (c := c) hin hc
    cases hl : s.loc i with
    | trava =>
      rw [hl] at h
      obtain ⟨hpos, heq⟩ := map_semChange_neg_one.mp h
      obtain ⟨rfl, rfl⟩ := Prod.mk.inj heq
      have htodos := hi.clientes_fora (Or.inr hpos)
      obtain rfl := hi.idle (Or.inr hpos)
      have hu := tally_update PcCliente.dentro s.loc i .testa
      have hmutex := hi.mutex
      simp [hl, PcCliente.dentro] at hu
      refine ⟨.idle, { hi with
        mutex := ?_
        sabeC := ?_
        sinal := .of_outros (fun j _ ↦ htodos j) nofun }⟩
      · simp
        omega
      · exact (forall_update_iff s.loc fun _ pc ↦ pc.Sabe s.shared.customersCount).mpr
          ⟨trivial, fun j _ ↦ hi.sabeC j⟩
    | aguarda =>
      rw [hl] at h
      obtain ⟨-, heq⟩ := map_semChange_neg_one.mp h
      obtain ⟨rfl, rfl⟩ := Prod.mk.inj heq
      refine ⟨g, hfora rfl ?_ rfl rfl rfl⟩
      rintro k (rfl | rfl) <;> rfl
    | cadeira =>
      rw [hl] at h
      obtain ⟨rfl, rfl⟩ := Prod.mk.inj (Option.some.inj h)
      refine ⟨g, hfora rfl ?_ rfl rfl rfl⟩
      rintro k (rfl | rfl) <;> rfl
    | fim =>
      rw [hl] at h
      cases h
    | testa | desiste | conta | olha | acorda | baixa | libera =>
      rw [hl] at hin
      cases hin

theorem passo (hi : Invariante s g) {q : Quem κ} {s' : Estado κ} (h : Passo s q s') :
    ∃ g', Invariante s' g' := by
  cases q with
  | barbeiro =>
    obtain ⟨m, hm, rfl⟩ := passo_barbeiro.mp h
    exact ⟨g, hi.barber hm⟩
  | cliente i =>
    obtain ⟨m, c, hex, rfl⟩ := passo_cliente.mp h
    exact hi.customer hex

end Invariante

/-! ## The chair -/

/-- The barber has called a customer and waits for the chair. -/
def PcBarbeiro.chamou : PcBarbeiro → ℕ
  | .espera => 1
  | _ => 0

/-- Between `sem_change(sem_ID, 3, -1)` and `sem_change(sem_ID, 4, 1)`. -/
def sentado : PcCliente → Bool
  | .cadeira => true
  | _ => false

/-- A call is answered by one customer: it is still to be taken up, or the customer sits in the
chair, or has left it and said so. -/
structure Cadeira (s : Estado κ) : Prop where
  sobra : maxC ≤ s.shared.sem 4
  chamada : s.shared.sem 3 + tally sentado s.loc + s.shared.sem 4 =
    maxC + s.shared.barbeiro.chamou

theorem Cadeira.inicial (mem : ByteMemory) (a : ℕ) : Cadeira (inicial κ mem a) := by
  have hzero : tally sentado (Barbeiro.inicial κ mem a).loc = 0 := tally_eq_zero fun _ ↦ rfl
  constructor
  · rw [inicial_eq]
    exact le_rfl
  · rw [hzero, inicial_eq]
    rfl

namespace Cadeira

variable {s : Estado κ}

theorem barber (hc : Cadeira s) (hg : s.shared.barbeiro = .espera → maxC < s.shared.sem 4)
    {m : Comum} (h : barber s.shared = some m) : Cadeira ⟨m, s.loc⟩ := by
  obtain ⟨⟨S, n, eflag, b⟩, loc⟩ := s
  obtain ⟨hsobra, hch⟩ := hc
  simp only at hsobra hch hg
  cases b with
  | trava | dorme | retrava =>
    obtain ⟨-, rfl⟩ := map_semChange_neg_one.mp h
    exact ⟨hsobra, hch⟩
  | testa =>
    obtain rfl := Option.some.inj h
    by_cases hvazio : n = 0
    · rw [if_pos hvazio]
      exact ⟨hsobra, hch⟩
    · rw [if_neg hvazio]
      exact ⟨hsobra, hch⟩
  | levanta | solta | conta | libera =>
    obtain rfl := Option.some.inj h
    exact ⟨hsobra, hch⟩
  | chama =>
    obtain rfl := Option.some.inj h
    simp only [PcBarbeiro.chamou] at hch
    refine ⟨hsobra, ?_⟩
    simp [PcBarbeiro.chamou]
    omega
  | espera =>
    -- the unit taken is one that a customer has put there
    obtain ⟨-, rfl⟩ := map_semChange_neg_one.mp h
    have hmais := hg rfl
    simp only [PcBarbeiro.chamou] at hch
    constructor
    · simp
      omega
    · simp [PcBarbeiro.chamou]
      omega

theorem alheia [DecidableEq κ] (hc : Cadeira s) {i : κ} {m : Comum} {c : PcCliente}
    (hm : m.sem 3 = s.shared.sem 3 ∧ m.sem 4 = s.shared.sem 4 ∧ m.barbeiro = s.shared.barbeiro)
    (hi : sentado (s.loc i) = false) (hsent : sentado c = false) :
    Cadeira ⟨m, update s.loc i c⟩ := by
  obtain ⟨h3, h4, hb⟩ := hm
  have hu := tally_update sentado s.loc i c
  rw [hi, hsent, Nat.add_right_cancel_iff] at hu
  constructor
  · simp only [h4]
    exact hc.sobra
  · simp only [h3, h4, hb, hu]
    exact hc.chamada

theorem customer [DecidableEq κ] (hc : Cadeira s) {i : κ} {m : Comum} {c : PcCliente}
    (h : customer s.shared (s.loc i) = some (m, c)) : Cadeira ⟨m, update s.loc i c⟩ := by
  have halheia := hc.alheia (i := i) (m := m) (c := c)
  have hu := tally_update sentado s.loc i c
  have hch := hc.chamada
  generalize s.loc i = pc at h hu halheia
  cases pc with
  | trava =>
    obtain ⟨-, heq⟩ := map_semChange_neg_one.mp h
    obtain ⟨rfl, rfl⟩ := Prod.mk.inj heq
    exact halheia ⟨rfl, rfl, rfl⟩ rfl rfl
  | testa | olha =>
    obtain ⟨rfl, rfl⟩ := Prod.mk.inj (Option.some.inj h)
    exact halheia ⟨rfl, rfl, rfl⟩ rfl (by split <;> rfl)
  | desiste | conta | acorda | baixa | libera =>
    obtain ⟨rfl, rfl⟩ := Prod.mk.inj (Option.some.inj h)
    exact halheia ⟨rfl, rfl, rfl⟩ rfl rfl
  | aguarda =>
    obtain ⟨hpos, heq⟩ := map_semChange_neg_one.mp h
    obtain ⟨rfl, rfl⟩ := Prod.mk.inj heq
    simp only [sentado, Bool.toNat_false, Bool.toNat_true, Nat.add_zero] at hu
    refine ⟨hc.sobra, ?_⟩
    simp [hu]
    omega
  | cadeira =>
    obtain ⟨rfl, rfl⟩ := Prod.mk.inj (Option.some.inj h)
    have hsobra := hc.sobra
    simp only [sentado, Bool.toNat_false, Bool.toNat_true, Nat.add_zero] at hu
    constructor
    · simp
      omega
    · simp
      omega
  | fim => cases h

end Cadeira

end Invariant

/-! ## Runs -/

/-- At most one customer sits in the chair, and the waiting room is not overfull. -/
structure Correto (s : Estado κ) : Prop where
  cadeira : ∀ i j, s.loc i = .cadeira → s.loc j = .cadeira → i = j
  minimo : 0 ≤ s.shared.customersCount
  maximo : s.shared.customersCount ≤ maxC

/-- The barber goes on only on a unit of semaphore `4` that a customer has put there, and not on
one of those left by the initialisation. -/
def EsperaCliente (s : Estado κ) (q : Quem κ) : Prop :=
  q = .barbeiro → s.shared.barbeiro = .espera → maxC < s.shared.sem 4

instance [DecidableEq κ] (s : Estado κ) (q : Quem κ) : Decidable (EsperaCliente s q) :=
  inferInstanceAs (Decidable (_ → _ → _))

section Runs

variable [Fintype κ]

theorem Cadeira.unico {s : Estado κ} (hc : Cadeira s) (i j : κ) (hi : s.loc i = .cadeira)
    (hj : s.loc j = .cadeira) : i = j := by
  have hch := hc.chamada
  have hsobra := hc.sobra
  have hle : s.shared.barbeiro.chamou ≤ 1 := by cases s.shared.barbeiro <;> decide
  have hone : tally sentado s.loc ≤ 1 := by omega
  exact eq_of_tally_le_one hone (by rw [hi]; rfl) (by rw [hj]; rfl)

variable [DecidableEq κ] {mem : ByteMemory} {a : ℕ} {hist : List (Estado κ × Quem κ)}
  {s : Estado κ}

theorem Cadeira.passo (hc : Cadeira s) {q : Quem κ} {s' : Estado κ} (hg : EsperaCliente s q)
    (h : Passo s q s') : Cadeira s' := by
  cases q with
  | barbeiro =>
    obtain ⟨m, hm, rfl⟩ := passo_barbeiro.mp h
    exact hc.barber (hg rfl) hm
  | cliente i =>
    obtain ⟨m, c, hex, rfl⟩ := passo_cliente.mp h
    exact hc.customer hex

theorem cadeira_everywhere (t : Trace Passo (inicial κ mem a) hist s)
    (hg : Trace.Guarded EsperaCliente hist) : Trace.Everywhere Correto hist s := by
  have hinv := t.everywhere_of_guard (I := fun s ↦ (∃ g, Invariante s g) ∧ Cadeira s)
    ⟨⟨.idle, .inicial mem a⟩, .inicial mem a⟩
    (fun ⟨⟨_, hi⟩, hc⟩ hC hs ↦ ⟨hi.passo hs, hc.passo hC hs⟩) hg
  exact hinv.imp fun ⟨⟨_, hi⟩, hc⟩ ↦ ⟨hc.unico, hi.minimo, hi.maximo⟩

/-- The first customer wakes the barber up, and while it is in the chair the second one comes and
waits for its turn. -/
def doisClientes (i j : κ) : List (Quem κ) :=
  [List.replicate 4 .barbeiro, List.replicate 7 (.cliente i), List.replicate 5 .barbeiro,
    [.cliente i], List.replicate 5 (.cliente j), [.cliente i], List.replicate 6 .barbeiro,
    List.replicate 2 (.cliente j), [.barbeiro]].flatten

theorem cadeira_everywhere_dois : ∃ hist s, Trace Passo (inicial (Fin 2) (fun _ ↦ 0) 0) hist s ∧
    hist.map Prod.snd = doisClientes 0 1 ∧ Trace.Everywhere Correto hist s := by
  have hrun : (execute executa (inicial (Fin 2) (fun _ ↦ 0) 0) (doisClientes 0 1)).isSome := by
    rw [inicial_eq]
    decide +kernel
  obtain ⟨hist, s, t, hlab, hg⟩ : ∃ hist s, Trace Passo _ hist s ∧ _ :=
    exists_guarded_of_execute (C := EsperaCliente) (fun _ _ _ ↦ id) hrun
      (by rw [inicial_eq]; decide +kernel)
  exact ⟨hist, s, t, hlab, cadeira_everywhere t hg⟩

/-- The waiting room does not depend on how semaphore `4` was initialised. -/
theorem lotacao_of_trace (t : Trace Passo (inicial κ mem a) hist s) :
    0 ≤ s.shared.customersCount ∧ s.shared.customersCount ≤ maxC := by
  obtain ⟨g, hi⟩ := t.invariant (I := fun s ↦ ∃ g, Invariante s g) ⟨.idle, .inicial mem a⟩
    fun ⟨_, hi⟩ hs ↦ hi.passo hs
  exact ⟨hi.minimo, hi.maximo⟩

theorem lotacao_of_trace_dois : ∃ s,
    execute executa (inicial (Fin 2) (fun _ ↦ 0) 0) (doisClientes 0 1) = some s ∧
      s.shared.customersCount ≤ maxC := by
  have hrun : (execute executa (inicial (Fin 2) (fun _ ↦ 0) 0) (doisClientes 0 1)).isSome := by
    rw [inicial_eq]
    decide +kernel
  obtain ⟨s, hs⟩ := Option.isSome_iff_exists.mp hrun
  exact ⟨s, hs, (lotacao_of_trace (trace_of_execute (fun _ _ _ ↦ id) hs).1).2⟩

/-- Two customers wait, and the barber calls the second one without waiting for the first. -/
def doisNaCadeira (i j : κ) : List (Quem κ) :=
  [List.replicate 5 (.cliente i), List.replicate 5 (.cliente j), List.replicate 11 .barbeiro,
    [.cliente i, .cliente j]].flatten

theorem cadeira_fails : ∃ hist s, Trace Passo (inicial (Fin 2) (fun _ ↦ 0) 0) hist s ∧
    hist.map Prod.snd = doisNaCadeira 0 1 ∧ ¬Correto s := by
  have hrun : (execute executa (inicial (Fin 2) (fun _ ↦ 0) 0) (doisNaCadeira 0 1)).map
      (fun s ↦ (s.loc 0, s.loc 1)) = some (.cadeira, .cadeira) := by
    rw [inicial_eq]
    decide +kernel
  obtain ⟨hist, s, t, hlab, hpcs⟩ : ∃ hist s, Trace Passo _ hist s ∧ _ :=
    exists_trace_of_execute_map (fun _ _ _ ↦ id) hrun
  obtain ⟨h0, h1⟩ := Prod.mk.inj hpcs
  exact ⟨hist, s, t, hlab, fun hok ↦ absurd (hok.cadeira 0 1 h0 h1) (by decide)⟩

end Runs

end SistemasOperacionais.Barbeiro
