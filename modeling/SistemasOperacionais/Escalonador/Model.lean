import Mathlib.Logic.Function.Basic
import Mathlib.Tactic

/-!
# The scheduler simulator

`simulador_so.c` simulates a processor shared by up to `NUM_PROCESSOS` processes. A process is a
function that reads and writes the registers of the simulated `_cpu`, and every timer tick calls
`escalonador`, which saves the registers in the table entry of the running process, moves on to
another process every `NUM_TICKS + 1` ticks, loads that process's registers and calls its function.

The state below is that of the globals, with the static variables of `escalonador` among them. The
fields that no function reads (`_cpu.id`, `estado`, `memoria` and `prontos`) are left out.
-/

namespace SistemasOperacionais.Escalonador

def numProcessos : ℤ := 20

def numTicks : ℤ := 2

theorem numTicks_eq : numTicks = 2 := rfl

/-- The registers that a process reads and writes. -/
structure Registradores where
  ci : Int32
  bd : Int32
  r0 : Int32
  r1 : Int32
  r2 : Int32
  r3 : Int32
  r4 : Int32
deriving DecidableEq

namespace Registradores

/-- Globals start at zero, and so do the registers of a new process. -/
def zero : Registradores := ⟨0, 0, 0, 0, 0, 0, 0⟩

end Registradores

/-- The function of a process. -/
abbrev Corpo := Registradores → Registradores

/-- An entry of `tabela_Processos`; a `processo` that is `none` is a null pointer. -/
structure Entrada where
  id : ℤ
  regs : Registradores
  processo : Option Corpo
  proximo : ℤ

structure Estado where
  processoId : ℤ
  pid : ℤ
  cpu : Registradores
  tabela : ℤ → Entrada
  contador : ℤ
  reentrada : ℤ

/-- How the simulator dies: `kernel_panic`, or a call through a null pointer. -/
inductive Falha
  | panico (mensagem : String)
  | nulo
deriving DecidableEq

def inicial : Estado where
  processoId := -1
  pid := 0
  cpu := .zero
  tabela _ := ⟨0, .zero, none, 0⟩
  contador := 0
  reentrada := 0

def Estado.altera (s : Estado) (i : ℤ) (f : Entrada → Entrada) : Estado :=
  { s with tabela := Function.update s.tabela i (f (s.tabela i)) }

/-! ## `escalonador` -/

def salvaContexto (s : Estado) : Estado := s.altera s.pid fun e ↦ { e with regs := s.cpu }

def restauraContexto (s : Estado) : Estado := { s with cpu := (s.tabela s.pid).regs }

def escolheProcesso (s : Estado) : ℤ :=
  let meuPid := (s.tabela s.pid).proximo
  if meuPid < 0 then s.processoId else meuPid

/-- `escalonador` up to the call of the process. -/
def despacha (s : Estado) : Except Falha Estado :=
  if s.reentrada > 0 then .error (.panico "\n\nChamando escalonador 2x!!!\n\n")
  else
    let s := salvaContexto { s with reentrada := 1 }
    let s := { s with contador := s.contador + 1 }
    let s := if s.contador > numTicks then { s with pid := escolheProcesso s, contador := 0 } else s
    .ok { restauraContexto s with reentrada := 0 }

/-- The call `(tabela_Processos[pid].processo)()`. -/
def chama (s : Estado) : Except Falha Estado :=
  match (s.tabela s.pid).processo with
  | none => .error .nulo
  | some f => .ok { s with cpu := f s.cpu }

def escalonador (s : Estado) : Except Falha Estado := do
  chama (← despacha s)

/-! ## `cria_processo` -/

/-- The ten assignments of `cria_processo`, in order. The first one also increments
`processo_id`, which the others use as the index. -/
def atribuicoes (proc : Corpo) : List (Estado → Estado) :=
  [fun s ↦ { s with processoId := s.processoId + 1 }.altera (s.processoId + 1)
      fun e ↦ { e with id := s.processoId + 1 },
    fun s ↦ s.altera s.processoId fun e ↦ { e with regs := { e.regs with ci := 0 } },
    fun s ↦ s.altera s.processoId fun e ↦ { e with regs := { e.regs with bd := 0 } },
    fun s ↦ s.altera s.processoId fun e ↦ { e with regs := { e.regs with r0 := 0 } },
    fun s ↦ s.altera s.processoId fun e ↦ { e with regs := { e.regs with r1 := 0 } },
    fun s ↦ s.altera s.processoId fun e ↦ { e with regs := { e.regs with r2 := 0 } },
    fun s ↦ s.altera s.processoId fun e ↦ { e with regs := { e.regs with r3 := 0 } },
    fun s ↦ s.altera s.processoId fun e ↦ { e with regs := { e.regs with r4 := 0 } },
    fun s ↦ s.altera s.processoId fun e ↦ { e with processo := some proc },
    fun s ↦ s.altera s.processoId fun e ↦
      { e with proximo := if s.processoId > 0 then s.processoId - 1 else -1 }]

def criaProcesso (s : Estado) (proc : Corpo) : Except Falha Estado :=
  if s.processoId < numProcessos - 1 then .ok ((atribuicoes proc).foldl (fun s f ↦ f s) s)
  else .error (.panico "muitos processos")

/-! ## The processes of `main` -/

def processo1 : Corpo := fun c ↦
  if c.ci = 0 then { c with ci := c.ci + 1 } else if c.ci = 1 then { c with ci := 0 } else c

def processo2 : Corpo := fun c ↦
  if c.ci = 0 ∨ c.ci = 1 ∨ c.ci = 2 then { c with ci := c.ci + 1 }
  else if c.ci = 3 then { c with ci := 0 } else c

/-- `processo_3` and `processo_4` differ from `processo_1` in the text they print. -/
def processo3 : Corpo := processo1

def processo4 : Corpo := processo1

/-- The processes that `main` creates, in order. -/
def principal : List Corpo := [processo1, processo2, processo3, processo4]

/-! ## Runs of completed calls -/

/-- A completed call of `cria_processo`, or a timer tick. -/
inductive Evento
  | cria (proc : Corpo)
  | tick

/-- What a tick did: the result of `escolhe_processo` if it was called, the number of processes at
the time, `pid` before and after, and the registers the process saw when it was activated. -/
structure Ativacao where
  escolhido : Option ℤ
  criados : ℤ
  antes : ℤ
  pid : ℤ
  visto : Registradores

/-- The record of a tick that `despacha` takes from `s` to `d`. -/
def ativacao (s d : Estado) : Ativacao where
  escolhido := if s.contador + 1 > numTicks then some (escolheProcesso s) else none
  criados := s.processoId + 1
  antes := s.pid
  pid := d.pid
  visto := d.cpu

/-- Run a sequence of events and record what every tick did. -/
def roda : Estado → List Evento → Except Falha (List Ativacao × Estado)
  | s, [] => .ok ([], s)
  | s, .cria proc :: es => do
    let s ← criaProcesso s proc
    roda s es
  | s, .tick :: es => do
    let d ← despacha s
    let (log, s') ← roda (← chama d) es
    return (ativacao s d :: log, s')

end SistemasOperacionais.Escalonador
