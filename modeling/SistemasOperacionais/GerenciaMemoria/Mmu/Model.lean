import SistemasOperacionais.Foundations.ByteMemory
import SistemasOperacionais.Foundations.LinkedList
import SistemasOperacionais.Foundations.Trace

/-!
# The allocator `MMU.c`

`MMU.c` keeps all its blocks, free and occupied, in one doubly linked list of `struct hole`; an
occupied block has its size negated. The program is modelled once, over the accesses it makes to the
headers, and read in two ways. In `registros` every header is a record of its own, and splitting a
block yields a new record: this is the bookkeeping without the addresses. In `bytes` the headers lie
in the bytes of the memory, where the code puts them, and may overlap.

Addresses are natural numbers below `2 ^ 64` and `NULL` is `0`. Sizes are C `int`s: every result of
`int` arithmetic is wrapped to 32 bits, as the compiled program wraps it, and since wrapping is
compatible with sums it is applied once to each right-hand side. Reading or writing a field through
`NULL` is a fault; the search loop takes fuel.
-/

namespace SistemasOperacionais.Mmu

open Foundations

/-- `hole_size`, the size of an `int`, its padding and two pointers on x86-64. -/
def holeSize : ℤ := 24

@[simp] theorem holeSize_eq : holeSize = 24 := rfl

/-- The value of an `int` expression whose mathematical value is `x`. -/
def wrap (x : ℤ) : ℤ := Int.bmod x (2 ^ 32)

/-- How a call can fail to return. -/
inductive Falha
  /-- A field was accessed through `NULL`. -/
  | nulo
  /-- The fuel of the search ran out. -/
  | combustivel
  deriving DecidableEq, Repr

/-- The accesses of the program to its headers. `corta` is the address it gives to a block split off
the end of another, and `avanca` and `recua` are the steps of `hole_size` between a header and what
the user holds. -/
structure Memoria (μ : Type) where
  tam : μ → ℕ → ℤ
  next : μ → ℕ → ℕ
  prev : μ → ℕ → ℕ
  setTam : μ → ℕ → ℤ → μ
  setNext : μ → ℕ → ℕ → μ
  setPrev : μ → ℕ → ℕ → μ
  corta : μ → ℕ → ℤ → ℤ → ℕ × μ
  avanca : ℕ → ℕ
  recua : ℕ → ℕ

/-! ## The two readings -/

structure Hole where
  tam : ℤ
  next : ℕ
  prev : ℕ
  deriving DecidableEq, Repr

/-- Headers as separate records; `novo` is the first handle not in use. -/
structure Registros where
  hole : ℕ → Hole
  novo : ℕ

/-- In this reading the user holds the handle of the header itself. -/
def registros : Memoria Registros where
  tam m p := (m.hole p).tam
  next m p := (m.hole p).next
  prev m p := (m.hole p).prev
  setTam m p v := { m with hole := Function.update m.hole p { m.hole p with tam := v } }
  setNext m p v := { m with hole := Function.update m.hole p { m.hole p with next := v } }
  setPrev m p v := { m with hole := Function.update m.hole p { m.hole p with prev := v } }
  corta m _ _ _ := (m.novo, { m with novo := m.novo + 1 })
  avanca p := p
  recua p := p

/-- The result of arithmetic on addresses, which are words of 64 bits. -/
def endereco (x : ℤ) : ℕ := (x % 2 ^ 64).toNat

/-- Headers in the bytes of the memory: `tam` at offset 0, `next` at 8, `prev` at 16. -/
def bytes : Memoria ByteMemory where
  tam m p := wrap (m.load p 4)
  next m p := m.load (p + 8) 8
  prev m p := m.load (p + 16) 8
  setTam m p v := m.store p 4 (v % 2 ^ 32).toNat
  setNext m p v := m.store (p + 8) 8 v
  setPrev m p v := m.store (p + 16) 8 v
  corta m p tam size := (endereco (p + tam - size - holeSize), m)
  avanca p := endereco (p + holeSize)
  recua p := endereco (p - holeSize)

/-! ## The program -/

namespace Memoria

variable {μ : Type} (M : Memoria μ)

def lerTam (m : μ) (p : ℕ) : Except Falha ℤ := if p = 0 then .error .nulo else .ok (M.tam m p)

def lerNext (m : μ) (p : ℕ) : Except Falha ℕ := if p = 0 then .error .nulo else .ok (M.next m p)

def lerPrev (m : μ) (p : ℕ) : Except Falha ℕ := if p = 0 then .error .nulo else .ok (M.prev m p)

def escreveTam (m : μ) (p : ℕ) (v : ℤ) : Except Falha μ :=
  if p = 0 then .error .nulo else .ok (M.setTam m p v)

def escreveNext (m : μ) (p v : ℕ) : Except Falha μ :=
  if p = 0 then .error .nulo else .ok (M.setNext m p v)

def escrevePrev (m : μ) (p v : ℕ) : Except Falha μ :=
  if p = 0 then .error .nulo else .ok (M.setPrev m p v)

/-- `if (n != NULL) n->prev = v`. -/
def ligaPrev (m : μ) (n v : ℕ) : μ := if n ≠ 0 then M.setPrev m n v else m

/-- The branch of `meu_aloca` that splits a block. -/
def divide (m : μ) (prevHole : ℕ) (size : ℤ) : Except Falha (ℕ × μ) := do
  let nextHole ← M.lerNext m prevHole
  let (aux, m) := M.corta m prevHole (← M.lerTam m prevHole) size
  let m ← M.escreveTam m aux (wrap (-size))
  let m ← M.escreveNext m aux nextHole
  let m ← M.escrevePrev m aux prevHole
  let m ← M.escreveNext m prevHole aux
  let m ← M.escreveTam m prevHole (wrap ((← M.lerTam m prevHole) - size - holeSize))
  return (M.avanca aux, M.ligaPrev m nextHole aux)

def alocaLoop (m : μ) (size : ℤ) : ℕ → ℕ → Except Falha (ℕ × μ)
  | 0, _ => .error .combustivel
  | n + 1, currentHole =>
    if currentHole = 0 then .ok (0, m)
    else do
      let t ← M.lerTam m currentHole
      if t = size then
        let m ← M.escreveTam m currentHole (wrap (-t))
        return (M.avanca currentHole, m)
      else if wrap (size + holeSize) < t then M.divide m currentHole size
      else alocaLoop m size n (← M.lerNext m currentHole)

/-- `meu_aloca`, with fuel `n`: the pointer returned and the memory. -/
def meuAloca (n : ℕ) (m : μ) (holeList : ℕ) (size : ℤ) : Except Falha (ℕ × μ) :=
  M.alocaLoop m size n holeList

/-- The part of `meu_desaloca` about the block after the one released. -/
def juntaNext (m : μ) (currentHole nextHole : ℕ) : Except Falha μ := do
  if nextHole ≠ 0 then
    let t ← M.lerTam m nextHole
    if 0 < t then
      let m ← M.escreveTam m currentHole (wrap ((← M.lerTam m currentHole) + holeSize + t))
      let m ← M.escreveNext m currentHole (← M.lerNext m nextHole)
      return M.ligaPrev m (← M.lerNext m currentHole) currentHole
    else .ok m
  else .ok m

/-- The part of `meu_desaloca` about the block before the one released. -/
def juntaPrev (m : μ) (prevHole currentHole : ℕ) : Except Falha μ := do
  if prevHole ≠ 0 then
    let t ← M.lerTam m prevHole
    if 0 < t then
      let m ← M.escreveTam m prevHole (wrap (t + (← M.lerTam m currentHole) + holeSize))
      let m ← M.escreveNext m prevHole (← M.lerNext m currentHole)
      return M.ligaPrev m (← M.lerNext m currentHole) prevHole
    else .ok m
  else .ok m

/-- `meu_desaloca`. Both neighbours are read before anything is changed. -/
def meuDesaloca (m : μ) (p : ℕ) : Except Falha μ := do
  let currentHole := M.recua p
  let prevHole ← M.lerPrev m currentHole
  let nextHole ← M.lerNext m currentHole
  let m ← M.escreveTam m currentHole (wrap (-(← M.lerTam m currentHole)))
  let m ← M.juntaNext m currentHole nextHole
  M.juntaPrev m prevHole currentHole

end Memoria

/-- The number of bytes `inicializa_memoria(n)` asks of `malloc`. -/
def tamanho (n : ℤ) : ℤ := if n < holeSize then wrap (holeSize + n) else n

/-- `inicializa_memoria(n)`, with `base` the address that `malloc` returned. -/
def Memoria.inicializaMemoria {μ : Type} (M : Memoria μ) (m : μ) (base : ℕ) (n : ℤ) : μ :=
  M.setPrev (M.setNext (M.setTam m base (wrap (tamanho n - holeSize))) base 0) base 0

/-! ## Runs -/

inductive Op
  | aloca (size : ℤ)
  | desaloca (p : ℕ)
  deriving DecidableEq, Repr

/-- The memory, the global `hole_list`, and the pointers handed out and not yet released, each with
the size it was requested for. -/
structure Sistema (μ : Type) where
  mem : μ
  holeList : ℕ
  vivos : List (ℕ × ℤ)

/-- One call that returns, with requests restricted to the sizes `ok`. -/
inductive Passo {μ : Type} (M : Memoria μ) (ok : ℤ → Prop) : Sistema μ → Op → Sistema μ → Prop
  | aloca {S : Sistema μ} {size : ℤ} {n p : ℕ} {m : μ} : ok size → p ≠ 0 →
      M.meuAloca n S.mem S.holeList size = .ok (p, m) →
      Passo M ok S (.aloca size) ⟨m, S.holeList, (p, size) :: S.vivos⟩
  | recusa {S : Sistema μ} {size : ℤ} {n : ℕ} {m : μ} : ok size →
      M.meuAloca n S.mem S.holeList size = .ok (0, m) →
      Passo M ok S (.aloca size) ⟨m, S.holeList, S.vivos⟩
  | desaloca {S : Sistema μ} {p : ℕ} {size : ℤ} {m : μ} : (p, size) ∈ S.vivos →
      M.meuDesaloca S.mem p = .ok m →
      Passo M ok S (.desaloca p) ⟨m, S.holeList, S.vivos.erase (p, size)⟩

/-- The `int` sizes. -/
def Inteiro (size : ℤ) : Prop := -2 ^ 31 ≤ size ∧ size < 2 ^ 31

/-- The positive ones. -/
def Positivo (size : ℤ) : Prop := 0 < size ∧ size < 2 ^ 31

instance : DecidablePred Inteiro := fun _ ↦ inferInstanceAs (Decidable (_ ∧ _))

instance : DecidablePred Positivo := fun _ ↦ inferInstanceAs (Decidable (_ ∧ _))

/-- The state after `inicializa_memoria(n)`, with nothing allocated. -/
def inicial {μ : Type} (M : Memoria μ) (lixo : μ) (base : ℕ) (n : ℤ) : Sistema μ :=
  ⟨M.inicializaMemoria lixo base n, base, []⟩

/-- A step, computed with fuel `n`. -/
def executa {μ : Type} (M : Memoria μ) (ok : ℤ → Prop) [DecidablePred ok] (n : ℕ)
    (S : Sistema μ) : Op → Option (Sistema μ)
  | .aloca size =>
    if ok size then
      match M.meuAloca n S.mem S.holeList size with
      | .ok (0, m) => some ⟨m, S.holeList, S.vivos⟩
      | .ok (p, m) => some ⟨m, S.holeList, (p, size) :: S.vivos⟩
      | .error _ => none
    else none
  | .desaloca p =>
    match S.vivos.find? fun x ↦ x.1 = p, M.meuDesaloca S.mem p with
    | some x, .ok m => some ⟨m, S.holeList, S.vivos.erase x⟩
    | _, _ => none

theorem passo_of_executa {μ : Type} {M : Memoria μ} {ok : ℤ → Prop} [DecidablePred ok] {n : ℕ}
    (S : Sistema μ) (op : Op) (S' : Sistema μ) (h : executa M ok n S op = some S') :
    Passo M ok S op S' := by
  cases op with
  | aloca size =>
    rw [executa] at h
    split at h
    · rename_i hok
      split at h
      · exact Option.some.inj h ▸ Passo.recusa hok ‹_›
      · exact Option.some.inj h ▸ Passo.aloca hok ‹_› ‹_›
      · exact absurd h (by simp)
    · exact absurd h (by simp)
  | desaloca p =>
    rw [executa] at h
    split at h
    · rename_i x m hx hm
      obtain ⟨q, size⟩ := x
      have hq : q = p := by simpa using List.find?_some hx
      subst hq
      exact Option.some.inj h ▸ Passo.desaloca (List.mem_of_find?_eq_some hx) hm
    · exact absurd h (by simp)

end SistemasOperacionais.Mmu
