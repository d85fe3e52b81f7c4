import SistemasOperacionais.Foundations.Trace
import SistemasOperacionais.Foundations.Threads

/-!
# Readers and writers

`LeitorRedator.c`: any number of readers and writers. `no_wait` queues everybody at the door,
`no_acc` is held by a writer or by the readers as a group, and `no_of_readers` is changed under
`counter` but tested after `counter` has been released. The first reader is meant to take `no_acc`
for the group and the last one to give it back.

Because the tests come late, a reader that was the last one may no longer be when it looks, and two
readers may both believe to be the last. The first breaks progress and the second exclusion. For
each of the two properties there is a condition on the steps of a run under which it holds.
-/

namespace SistemasOperacionais.LeitorRedator

open Foundations Function

/-! ## The program -/

/-- The next step of `reader`: `check_and_wait`, then `read`. -/
inductive PcLeitor
  /-- `pthread_mutex_trylock(&no_wait)` -/
  | tenta
  /-- `pthread_mutex_lock(&no_wait)` -/
  | aguarda
  /-- `pthread_mutex_lock(&counter)`, on the way in -/
  | travaEntrada
  /-- `no_of_readers++` -/
  | incrementa
  /-- `pthread_mutex_unlock(&counter)` -/
  | destravaEntrada
  /-- `if(no_of_readers==1)` -/
  | testaPrimeiro
  /-- `pthread_mutex_lock(&no_acc)` -/
  | bloqueia
  /-- `pthread_mutex_unlock(&no_wait)` -/
  | abre
  /-- between `reading...` and `finished reading` -/
  | lendo
  /-- `pthread_mutex_lock(&counter)`, on the way out -/
  | travaSaida
  /-- `no_of_readers--` -/
  | decrementa
  /-- `pthread_mutex_unlock(&counter)` -/
  | destravaSaida
  /-- `if(no_of_readers==0)` -/
  | testaUltimo
  /-- `pthread_mutex_unlock(&no_acc)` -/
  | desbloqueia
deriving DecidableEq

/-- The next step of `writer`: `check_and_wait_if_busy`, then `write`. -/
inductive PcRedator
  /-- `pthread_mutex_trylock(&no_wait)` -/
  | tenta
  /-- `pthread_mutex_lock(&no_wait)` -/
  | aguarda
  /-- `pthread_mutex_lock(&no_acc)` -/
  | bloqueia
  /-- `pthread_mutex_unlock(&no_wait)` -/
  | abre
  /-- between `writing...` and `finished writing` -/
  | escrevendo
  /-- `pthread_mutex_unlock(&no_acc)` -/
  | desbloqueia
deriving DecidableEq

inductive Pc
  | leitor (pc : PcLeitor)
  | redator (pc : PcRedator)
deriving DecidableEq

/-- The variables shared by the threads; a mutex is `true` while it is locked. -/
structure Comum where
  noWait : Bool
  noAcc : Bool
  counter : Bool
  noOfReaders : ℤ

/-- One step of a reader; `none` while it waits for a mutex. An unlock releases the mutex whoever
has locked it. -/
def reader (m : Comum) : PcLeitor → Option (Comum × Pc)
  | .tenta =>
    if m.noWait then some (m, .leitor .aguarda)
    else some ({ m with noWait := true }, .leitor .travaEntrada)
  | .aguarda =>
    if m.noWait then none else some ({ m with noWait := true }, .leitor .travaEntrada)
  | .travaEntrada =>
    if m.counter then none else some ({ m with counter := true }, .leitor .incrementa)
  | .incrementa => some ({ m with noOfReaders := m.noOfReaders + 1 }, .leitor .destravaEntrada)
  | .destravaEntrada => some ({ m with counter := false }, .leitor .testaPrimeiro)
  | .testaPrimeiro => some (m, .leitor (if m.noOfReaders = 1 then .bloqueia else .abre))
  | .bloqueia => if m.noAcc then none else some ({ m with noAcc := true }, .leitor .abre)
  | .abre => some ({ m with noWait := false }, .leitor .lendo)
  | .lendo => some (m, .leitor .travaSaida)
  | .travaSaida =>
    if m.counter then none else some ({ m with counter := true }, .leitor .decrementa)
  | .decrementa => some ({ m with noOfReaders := m.noOfReaders - 1 }, .leitor .destravaSaida)
  | .destravaSaida => some ({ m with counter := false }, .leitor .testaUltimo)
  | .testaUltimo => some (m, .leitor (if m.noOfReaders = 0 then .desbloqueia else .tenta))
  | .desbloqueia => some ({ m with noAcc := false }, .leitor .tenta)

def writer (m : Comum) : PcRedator → Option (Comum × Pc)
  | .tenta =>
    if m.noWait then some (m, .redator .aguarda)
    else some ({ m with noWait := true }, .redator .bloqueia)
  | .aguarda =>
    if m.noWait then none else some ({ m with noWait := true }, .redator .bloqueia)
  | .bloqueia => if m.noAcc then none else some ({ m with noAcc := true }, .redator .abre)
  | .abre => some ({ m with noWait := false }, .redator .escrevendo)
  | .escrevendo => some (m, .redator .desbloqueia)
  | .desbloqueia => some ({ m with noAcc := false }, .redator .tenta)

def executa (m : Comum) : Pc → Option (Comum × Pc)
  | .leitor pc => reader m pc
  | .redator pc => writer m pc

variable {ι : Type*}

abbrev Estado (ι : Type*) := Threads Comum Pc ι

/-- What a thread was created for. -/
inductive Papel
  | leitor
  | redator

def Papel.inicio : Papel → Pc
  | .leitor => .leitor .tenta
  | .redator => .redator .tenta

def inicial (papel : ι → Papel) : Estado ι := ⟨⟨false, false, false, 0⟩, fun i ↦ (papel i).inicio⟩

section Runs

variable [DecidableEq ι]

def Passo (s : Estado ι) (i : ι) (s' : Estado ι) : Prop :=
  Threads.step (fun _ ↦ executa) s i = some s'

end Runs

/-! ## Regions of the programs -/

/-- Holds `no_wait`. -/
def entrando : Pc → Bool
  | .leitor .travaEntrada | .leitor .incrementa | .leitor .destravaEntrada
  | .leitor .testaPrimeiro | .leitor .bloqueia | .leitor .abre
  | .redator .bloqueia | .redator .abre => true
  | _ => false

/-- Holds `counter`. -/
def contando : Pc → Bool
  | .leitor .incrementa | .leitor .destravaEntrada
  | .leitor .decrementa | .leitor .destravaSaida => true
  | _ => false

/-- Counted in `no_of_readers`, before its test for the first reader. -/
def chegando : Pc → Bool
  | .leitor .destravaEntrada | .leitor .testaPrimeiro => true
  | _ => false

/-- Counted, and waiting for `no_acc`. -/
def bloqueado : Pc → Bool
  | .leitor .bloqueia => true
  | _ => false

/-- Counted, with the right to read. -/
def admitido : Pc → Bool
  | .leitor .abre | .leitor .lendo | .leitor .travaSaida | .leitor .decrementa => true
  | _ => false

/-- No longer counted, before its test for the last reader. -/
def decidindo : Pc → Bool
  | .leitor .destravaSaida | .leitor .testaUltimo => true
  | _ => false

/-- About to unlock `no_acc` for the readers. -/
def devolvendo : Pc → Bool
  | .leitor .desbloqueia => true
  | _ => false

/-- A writer that has locked `no_acc`. -/
def escrita : Pc → Bool
  | .redator .abre | .redator .escrevendo | .redator .desbloqueia => true
  | _ => false

/-! ## Counting threads

The properties do not depend on which thread is where, only on how many are in each region. The
steps of the program are steps of the system of counters below (`muda_of_passo`). -/

/-- The shared variables and the number of threads in each region. -/
structure Resumo extends Comum where
  entrando : ℕ
  contando : ℕ
  chegando : ℕ
  bloqueado : ℕ
  admitido : ℕ
  decidindo : ℕ
  devolvendo : ℕ
  escrita : ℕ

def resumo [Fintype ι] (s : Estado ι) : Resumo :=
  { s.shared with
    entrando := tally entrando s.loc
    contando := tally contando s.loc
    chegando := tally chegando s.loc
    bloqueado := tally bloqueado s.loc
    admitido := tally admitido s.loc
    decidindo := tally decidindo s.loc
    devolvendo := tally devolvendo s.loc
    escrita := tally escrita s.loc }

/-- The two kinds of steps that the properties depend on. -/
inductive Acao
  | incrementa
  | decrementa
  | outra

def acao : Pc → Acao
  | .leitor .incrementa => .incrementa
  | .leitor .decrementa => .decrementa
  | _ => .outra

/-- The steps of the counters. -/
inductive Muda : Resumo → Acao → Resumo → Prop
  | nada {r} : Muda r .outra r
  | entra {r} : r.noWait = false →
      Muda r .outra { r with noWait := true, entrando := r.entrando + 1 }
  | trava {r} : r.counter = false →
      Muda r .outra { r with counter := true, contando := r.contando + 1 }
  | destrava {r k} : r.contando = k + 1 →
      Muda r .outra { r with counter := false, contando := k }
  | incrementa {r} : r.chegando + r.bloqueado < r.entrando →
      Muda r .incrementa { r with noOfReaders := r.noOfReaders + 1, chegando := r.chegando + 1 }
  | primeiro {r k} : r.chegando = k + 1 → r.noOfReaders = 1 →
      Muda r .outra { r with chegando := k, bloqueado := r.bloqueado + 1 }
  | segue {r k} : r.chegando = k + 1 → r.noOfReaders ≠ 1 →
      Muda r .outra { r with chegando := k, admitido := r.admitido + 1 }
  | bloqueia {r k} : r.bloqueado = k + 1 → r.noAcc = false →
      Muda r .outra { r with noAcc := true, bloqueado := k, admitido := r.admitido + 1 }
  | abre {r k} : r.entrando = k + 1 → Muda r .outra { r with noWait := false, entrando := k }
  | decrementa {r k} : r.admitido = k + 1 →
      Muda r .decrementa { r with
        noOfReaders := r.noOfReaders - 1, admitido := k, decidindo := r.decidindo + 1 }
  | ultimo {r k} : r.decidindo = k + 1 → r.noOfReaders = 0 →
      Muda r .outra { r with decidindo := k, devolvendo := r.devolvendo + 1 }
  | sai {r k} : r.decidindo = k + 1 → r.noOfReaders ≠ 0 → Muda r .outra { r with decidindo := k }
  | devolve {r k} : r.devolvendo = k + 1 →
      Muda r .outra { r with noAcc := false, devolvendo := k }
  | escreve {r} : r.noAcc = false →
      Muda r .outra { r with noAcc := true, escrita := r.escrita + 1 }
  | termina {r k} : r.escrita = k + 1 → Muda r .outra { r with noAcc := false, escrita := k }

section Counting

variable [Fintype ι]

theorem chegando_le (s : Estado ι) :
    (resumo s).chegando + (resumo s).bloqueado ≤ (resumo s).entrando := by
  refine tally_add_le (fun pc h ↦ ?_) fun pc h ↦ ?_
  · unfold chegando at h
    split at h <;> simp_all [entrando, bloqueado]
  · unfold bloqueado at h
    split at h <;> simp_all [entrando]

variable [DecidableEq ι]

/-- **The counters follow the program.** -/
theorem muda_of_passo {s s' : Estado ι} {i : ι} (h : Passo s i s') :
    Muda (resumo s) (acao (s.loc i)) (resumo s') := by
  obtain ⟨m, a, hex, rfl⟩ := Threads.step_eq_some.mp h
  clear h
  obtain ⟨m₀, loc⟩ := s
  have hent := tally_update entrando loc i a
  have hcont := tally_update contando loc i a
  have hche := tally_update chegando loc i a
  have hblo := tally_update bloqueado loc i a
  have hadm := tally_update admitido loc i a
  have hdec := tally_update decidindo loc i a
  have hdev := tally_update devolvendo loc i a
  have hesc := tally_update escrita loc i a
  simp only at hex
  cases hl : loc i with
  | leitor pc =>
    rw [hl] at hex hent hcont hche hblo hadm hdec hdev hesc
    cases pc
    all_goals
      simp only [executa, reader] at hex
      try split at hex
    all_goals simp at hex
    -- the region the thread leaves and the one it enters
    all_goals
      obtain ⟨rfl, rfl⟩ := hex
      simp [entrando, contando, chegando, bloqueado, admitido, decidindo, devolvendo,
        escrita] at hent hcont hche hblo hadm hdec hdev hesc
      simp only [resumo, hl, acao, hent, hcont, hche, hblo, hadm, hdec, hdev, hesc]
    case leitor.tenta.isTrue => exact .nada
    case leitor.tenta.isFalse h => exact .entra (eq_false_of_ne_true h)
    case leitor.aguarda.isFalse h => exact .entra (eq_false_of_ne_true h)
    case leitor.travaEntrada.isFalse h => exact .trava (eq_false_of_ne_true h)
    case leitor.incrementa =>
      have hle := chegando_le (s := ⟨m₀, update loc i (.leitor .destravaEntrada)⟩)
      simp only [resumo, hent, hche, hblo] at hle
      exact .incrementa (by dsimp only; omega)
    case leitor.destravaEntrada => exact .destrava hcont.symm
    case leitor.testaPrimeiro.isTrue h => exact .primeiro hche.symm h
    case leitor.testaPrimeiro.isFalse h => exact .segue hche.symm h
    case leitor.bloqueia.isFalse h => exact .bloqueia hblo.symm (eq_false_of_ne_true h)
    case leitor.abre => exact .abre hent.symm
    case leitor.lendo => exact .nada
    case leitor.travaSaida.isFalse h => exact .trava (eq_false_of_ne_true h)
    case leitor.decrementa => exact .decrementa hadm.symm
    case leitor.destravaSaida => exact .destrava hcont.symm
    case leitor.testaUltimo.isTrue h => exact .ultimo hdec.symm h
    case leitor.testaUltimo.isFalse h => exact .sai hdec.symm h
    case leitor.desbloqueia => exact .devolve hdev.symm
  | redator pc =>
    rw [hl] at hex hent hcont hche hblo hadm hdec hdev hesc
    cases pc
    all_goals
      simp only [executa, writer] at hex
      try split at hex
    all_goals simp at hex
    all_goals
      obtain ⟨rfl, rfl⟩ := hex
      simp [entrando, contando, chegando, bloqueado, admitido, decidindo, devolvendo,
        escrita] at hent hcont hche hblo hadm hdec hdev hesc
      simp only [resumo, hl, acao, hent, hcont, hche, hblo, hadm, hdec, hdev, hesc]
    case redator.tenta.isTrue => exact .nada
    case redator.tenta.isFalse h => exact .entra (eq_false_of_ne_true h)
    case redator.aguarda.isFalse h => exact .entra (eq_false_of_ne_true h)
    case redator.bloqueia.isFalse h => exact .escreve (eq_false_of_ne_true h)
    case redator.abre => exact .abre hent.symm
    case redator.escrevendo => exact .nada
    case redator.desbloqueia => exact .termina hesc.symm

end Counting

/-! ## Invariants of the counters -/

/-- What holds in every run: the mutexes `no_wait` and `counter` are held by one thread at a time,
and the readers are counted correctly. -/
structure Contagem (r : Resumo) : Prop where
  noWait : r.entrando = r.noWait.toNat
  counter : r.contando = r.counter.toNat
  leitores : r.noOfReaders = r.chegando + r.bloqueado + r.admitido

variable {r r' : Resumo} {a : Acao}

theorem Contagem.muda (hc : Contagem r) (h : Muda r a r') : Contagem r' := by
  obtain ⟨hw, hk, hn⟩ := hc
  have hw1 := r.noWait.toNat_le
  have hk1 := r.counter.toNat_le
  cases h with
  | nada => exact ⟨hw, hk, hn⟩
  | entra h => exact ⟨by simp [hw, h], hk, hn⟩
  | trava h => exact ⟨hw, by simp [hk, h], hn⟩
  | destrava h => exact ⟨hw, by dsimp only [Bool.toNat_false]; omega, hn⟩
  | incrementa _ => exact ⟨hw, hk, by dsimp only; omega⟩
  | primeiro h _ => exact ⟨hw, hk, by dsimp only; omega⟩
  | segue h _ => exact ⟨hw, hk, by dsimp only; omega⟩
  | bloqueia h _ => exact ⟨hw, hk, by dsimp only; omega⟩
  | abre h => exact ⟨by dsimp only [Bool.toNat_false]; omega, hk, hn⟩
  | decrementa h => exact ⟨hw, hk, by dsimp only; omega⟩
  | ultimo _ _ => exact ⟨hw, hk, hn⟩
  | sai _ _ => exact ⟨hw, hk, hn⟩
  | devolve _ => exact ⟨hw, hk, hn⟩
  | escreve _ => exact ⟨hw, hk, hn⟩
  | termina _ => exact ⟨hw, hk, hn⟩

/-- The readers that use `no_acc`. -/
def Resumo.leitura (r : Resumo) : ℕ := r.admitido + r.decidindo + r.devolvendo

/-- What exclusion rests on: `no_acc` is held by a writer or by the readers, and the reader that
gives it back is alone. -/
structure Exclusao (r : Resumo) : Prop where
  acesso : r.escrita + min r.leitura 1 ≤ r.noAcc.toNat
  devolve : 0 < r.devolvendo → r.leitura ≤ 1
  zero : r.noOfReaders = 0 → r.decidindo + r.devolvendo ≤ 1

/-- The last reader leaves while no other is between its decrement and its test. -/
def UltimoSozinho (r : Resumo) : Acao → Prop
  | .decrementa => r.noOfReaders = 1 → r.decidindo = 0
  | _ => True

theorem Exclusao.muda (hx : Exclusao r) (hc : Contagem r)
    (hle : r.chegando + r.bloqueado ≤ r.entrando) (hg : UltimoSozinho r a) (h : Muda r a r') :
    Exclusao r' := by
  obtain ⟨hacesso, hdev, hzero⟩ := hx
  obtain ⟨hw, -, hn⟩ := hc
  have hw1 := r.noWait.toNat_le
  have hacc1 := r.noAcc.toNat_le
  unfold Resumo.leitura at hacesso hdev
  cases h with
  | nada => exact ⟨hacesso, hdev, hzero⟩
  | entra _ => exact ⟨hacesso, hdev, hzero⟩
  | trava _ => exact ⟨hacesso, hdev, hzero⟩
  | destrava _ => exact ⟨hacesso, hdev, hzero⟩
  | incrementa _ => exact ⟨hacesso, hdev, by dsimp only; omega⟩
  | primeiro _ _ => exact ⟨hacesso, hdev, hzero⟩
  | segue hche hne =>
    -- the others that are counted are past the door, so the readers already have `no_acc`
    have hadm : 0 < r.admitido := by omega
    constructor <;> dsimp only [Resumo.leitura] <;> omega
  | bloqueia _ hlivre =>
    simp only [hlivre, Bool.toNat_false] at hacesso
    constructor <;> dsimp only [Resumo.leitura, Bool.toNat_true] <;> omega
  | abre _ => exact ⟨hacesso, hdev, hzero⟩
  | decrementa hadm =>
    -- nobody is giving `no_acc` back while a reader is still admitted
    have hnone : r.devolvendo = 0 := by omega
    simp only [UltimoSozinho] at hg
    constructor <;> dsimp only [Resumo.leitura] <;> omega
  | ultimo hdec hn0 =>
    constructor <;> dsimp only [Resumo.leitura] <;> omega
  | sai hdec _ =>
    constructor <;> dsimp only [Resumo.leitura] <;> omega
  | devolve hdv =>
    constructor <;> dsimp only [Resumo.leitura, Bool.toNat_false] <;> omega
  | escreve hlivre =>
    simp only [hlivre, Bool.toNat_false] at hacesso
    constructor <;> dsimp only [Resumo.leitura, Bool.toNat_true] <;> omega
  | termina hesc =>
    constructor <;> dsimp only [Resumo.leitura, Bool.toNat_false] <;> omega

/-- What progress rests on: a reader that waits for `no_acc` is the only one counted, no reader
leaves without having seen it, and somebody is responsible for a locked `no_acc`. -/
structure Progresso (r : Resumo) : Prop where
  espera : 0 < r.bloqueado → r.noOfReaders = 1
  decisao : 0 < r.chegando + r.bloqueado → r.noOfReaders = 1 → r.decidindo = 0
  acesso : r.noAcc = true → 0 < r.escrita + r.leitura

/-- No reader arrives as the first one while another has not yet decided whether it was the last
one, and no reader leaves another alone before that one has tested whether it is the first. -/
def SemCruzar (r : Resumo) : Acao → Prop
  | .incrementa => r.noOfReaders = 0 → r.decidindo = 0
  | .decrementa => r.noOfReaders = 2 → r.chegando = 0
  | .outra => True

theorem Progresso.muda (hp : Progresso r) (hc : Contagem r)
    (hle : r.chegando + r.bloqueado ≤ r.entrando) (hg : SemCruzar r a) (h : Muda r a r') :
    Progresso r' := by
  obtain ⟨hesp, hdecisao, hacesso⟩ := hp
  obtain ⟨hw, -, hn⟩ := hc
  have hw1 := r.noWait.toNat_le
  unfold Resumo.leitura at hacesso
  cases h with
  | nada => exact ⟨hesp, hdecisao, hacesso⟩
  | entra _ => exact ⟨hesp, hdecisao, hacesso⟩
  | trava _ => exact ⟨hesp, hdecisao, hacesso⟩
  | destrava _ => exact ⟨hesp, hdecisao, hacesso⟩
  | incrementa hporta =>
    -- the thread at the door is this one, before its increment
    simp only [SemCruzar] at hg
    exact ⟨by dsimp only; omega, by dsimp only; omega, hacesso⟩
  | primeiro hche hn1 => exact ⟨fun _ ↦ hn1, by dsimp only; omega, hacesso⟩
  | segue hche hne =>
    exact ⟨hesp, fun _ hn1 ↦ absurd hn1 hne, fun _ ↦ by dsimp only [Resumo.leitura]; omega⟩
  | bloqueia hblo _ =>
    refine ⟨by dsimp only; omega, by dsimp only; omega, fun _ ↦ ?_⟩
    dsimp only [Resumo.leitura]
    omega
  | abre _ => exact ⟨hesp, hdecisao, hacesso⟩
  | decrementa hadm =>
    simp only [SemCruzar] at hg
    refine ⟨by dsimp only; omega, by dsimp only; omega, fun _ ↦ ?_⟩
    dsimp only [Resumo.leitura]
    omega
  | ultimo hdec hn0 =>
    refine ⟨hesp, by dsimp only; omega, fun _ ↦ ?_⟩
    dsimp only [Resumo.leitura]
    omega
  | sai hdec hne =>
    -- if no other reader uses `no_acc`, the one counted is at the door and saw this reader decide
    refine ⟨hesp, by dsimp only; omega, fun _ ↦ ?_⟩
    dsimp only [Resumo.leitura]
    omega
  | devolve _ => exact ⟨hesp, hdecisao, nofun⟩
  | escreve _ => exact ⟨hesp, hdecisao, fun _ ↦ by dsimp only; omega⟩
  | termina _ => exact ⟨hesp, hdecisao, nofun⟩

/-! ## Exclusion and progress -/

section Properties

variable [Fintype ι] {papel : ι → Papel} {hist : List (Estado ι × ι)} {s s' : Estado ι} {i : ι}

theorem resumo_inicial (papel : ι → Papel) :
    resumo (inicial papel) = ⟨⟨false, false, false, 0⟩, 0, 0, 0, 0, 0, 0, 0, 0⟩ := by
  have hzero : ∀ p : Pc → Bool, p (.leitor .tenta) = false → p (.redator .tenta) = false →
      tally p (fun i ↦ (papel i).inicio) = 0 := by
    intro p hl hr
    refine tally_eq_zero fun i ↦ ?_
    cases papel i
    · exact hl
    · exact hr
  simp only [resumo, inicial]
  rw [hzero entrando rfl rfl, hzero contando rfl rfl, hzero chegando rfl rfl,
    hzero bloqueado rfl rfl, hzero admitido rfl rfl, hzero decidindo rfl rfl,
    hzero devolvendo rfl rfl, hzero escrita rfl rfl]

theorem contagem_inicial : Contagem (resumo (inicial papel)) := by
  rw [resumo_inicial]
  exact ⟨rfl, rfl, rfl⟩

/-- No writer writes while a reader reads or another writer writes. -/
def SemConflito (s : Estado ι) : Prop :=
  ∀ i, s.loc i = .redator .escrevendo → ∀ j,
    s.loc j ≠ .leitor .lendo ∧ (s.loc j = .redator .escrevendo → j = i)

theorem Exclusao.semConflito (hx : Exclusao (resumo s)) : SemConflito s := by
  have hacc := s.shared.noAcc.toNat_le
  have hacesso : tally escrita s.loc + min (resumo s).leitura 1 ≤ s.shared.noAcc.toNat := hx.acesso
  intro i hi j
  have hesc : escrita (s.loc i) = true := by rw [hi]; rfl
  have hpos := tally_pos hesc
  constructor
  · intro hj
    have hadm : 0 < tally admitido s.loc := tally_pos (i := j) (by rw [hj]; rfl)
    have hler : 0 < (resumo s).leitura := by
      dsimp only [Resumo.leitura, resumo]
      omega
    omega
  · intro hj
    exact eq_of_tally_le_one (by omega) (by rw [hj]; rfl) hesc

/-- When the last reader is about to leave, no other reader is between its decrement and its
test. -/
def SaidaSozinha (s : Estado ι) (i : ι) : Prop :=
  s.loc i = .leitor .decrementa → s.shared.noOfReaders = 1 → ∀ j, decidindo (s.loc j) = false

instance : Decidable (SaidaSozinha s i) := inferInstanceAs (Decidable (_ → _ → ∀ _, _))

theorem SaidaSozinha.ultimoSozinho (h : SaidaSozinha s i) :
    UltimoSozinho (resumo s) (acao (s.loc i)) := by
  unfold acao
  split
  · trivial
  · exact fun hn ↦ tally_eq_zero (h ‹_› hn)
  · trivial

/-- When a reader is about to be counted as the only one, no other is between its decrement and its
test; when a reader is about to leave one other behind, that one is not between its increment and
its test. -/
def SemCruzamento (s : Estado ι) (i : ι) : Prop :=
  (s.loc i = .leitor .incrementa → s.shared.noOfReaders = 0 →
    ∀ j, decidindo (s.loc j) = false) ∧
  (s.loc i = .leitor .decrementa → s.shared.noOfReaders = 2 → ∀ j, chegando (s.loc j) = false)

instance : Decidable (SemCruzamento s i) :=
  inferInstanceAs (Decidable ((_ → _ → ∀ _, _) ∧ (_ → _ → ∀ _, _)))

theorem SemCruzamento.semCruzar (h : SemCruzamento s i) :
    SemCruzar (resumo s) (acao (s.loc i)) := by
  unfold acao
  split
  · exact fun hn ↦ tally_eq_zero (h.1 ‹_› hn)
  · exact fun hn ↦ tally_eq_zero (h.2 ‹_› hn)
  · trivial

theorem executa_eq_none {m : Comum} {pc : Pc} (h : executa m pc = none) :
    ((pc = .leitor .travaEntrada ∨ pc = .leitor .travaSaida) ∧ m.counter = true) ∨
    ((pc = .leitor .bloqueia ∨ pc = .redator .bloqueia) ∧ m.noAcc = true) ∨
    ((pc = .leitor .aguarda ∨ pc = .redator .aguarda) ∧ m.noWait = true) := by
  cases pc with
  | leitor pc =>
    cases pc <;> simp_all [executa, reader]
    split at h <;> cases h
  | redator pc =>
    cases pc <;> simp_all [executa, writer]
    split at h <;> cases h

variable [DecidableEq ι]

def Avanca (s : Estado ι) : Prop := ∃ i s', Passo s i s'

/-- If all threads were blocked, nobody would hold `counter`, so nobody waits for it; then nobody
would hold `no_acc`, and then nobody `no_wait`. -/
theorem Progresso.avanca [Nonempty ι] (hp : Progresso (resumo s)) (hc : Contagem (resumo s)) :
    Avanca s := by
  by_contra hno
  have hb : ∀ i, executa s.shared (s.loc i) = none := by
    intro i
    by_contra hsome
    obtain ⟨r, hr⟩ := Option.ne_none_iff_exists'.mp hsome
    exact hno ⟨i, Threads.exists_step hr⟩
  have hcounter : s.shared.counter = false := by
    have hzero : tally contando s.loc = 0 := by
      refine tally_eq_zero fun i ↦ ?_
      obtain ⟨h | h, -⟩ | ⟨h | h, -⟩ | ⟨h | h, -⟩ := executa_eq_none (hb i) <;> rw [h] <;> rfl
    have hk : tally contando s.loc = s.shared.counter.toNat := hc.counter
    rw [hzero] at hk
    simpa using hk.symm
  have hacc : s.shared.noAcc = false := by
    have hzero : ∀ p : Pc → Bool, p (.leitor .bloqueia) = false → p (.redator .bloqueia) = false →
        p (.leitor .aguarda) = false → p (.redator .aguarda) = false → tally p s.loc = 0 := by
      intro p h1 h2 h3 h4
      refine tally_eq_zero fun i ↦ ?_
      obtain ⟨-, h⟩ | ⟨h | h, -⟩ | ⟨h | h, -⟩ := executa_eq_none (hb i)
      · exact absurd h (by rw [hcounter]; decide)
      all_goals rw [h]; assumption
    by_contra htrue
    have hpos := hp.acesso (Bool.eq_true_of_not_eq_false htrue)
    dsimp only [Resumo.leitura, resumo] at hpos
    rw [hzero escrita rfl rfl rfl rfl, hzero admitido rfl rfl rfl rfl,
      hzero decidindo rfl rfl rfl rfl, hzero devolvendo rfl rfl rfl rfl] at hpos
    exact absurd hpos (by decide)
  have hwait : ∀ i, (s.loc i = .leitor .aguarda ∨ s.loc i = .redator .aguarda) ∧
      s.shared.noWait = true := by
    intro i
    obtain ⟨-, h⟩ | ⟨-, h⟩ | h := executa_eq_none (hb i)
    · exact absurd h (by rw [hcounter]; decide)
    · exact absurd h (by rw [hacc]; decide)
    · exact h
  have hzero : tally entrando s.loc = 0 := by
    refine tally_eq_zero fun i ↦ ?_
    obtain ⟨h | h, -⟩ := hwait i <;> rw [h] <;> rfl
  have hw : tally entrando s.loc = s.shared.noWait.toNat := hc.noWait
  rw [hzero, (hwait (Classical.arbitrary ι)).2] at hw
  exact absurd hw (by decide)

/-! ### Runs -/

theorem semConflito_everywhere (t : Trace Passo (inicial papel) hist s)
    (hg : Trace.Guarded SaidaSozinha hist) : Trace.Everywhere SemConflito hist s := by
  have hinv := t.everywhere_of_guard
    (I := fun s ↦ Contagem (resumo s) ∧ Exclusao (resumo s))
    ⟨contagem_inicial, by rw [resumo_inicial]; exact ⟨by decide, nofun, fun _ ↦ Nat.zero_le 1⟩⟩
    (fun ⟨hc, hx⟩ hC hs ↦
      have hm := muda_of_passo hs
      ⟨hc.muda hm, hx.muda hc (chegando_le _) hC.ultimoSozinho hm⟩) hg
  exact hinv.imp fun ⟨_, hx⟩ ↦ hx.semConflito

def papeis : Fin 3 → Papel := ![.leitor, .leitor, .redator]

/-- A writer, then a reader, each alone. -/
def emTurnos : List (Fin 3) := List.replicate 5 2 ++ List.replicate 13 0

theorem semConflito_everywhere_turnos : ∃ hist s, Trace Passo (inicial papeis) hist s ∧
    hist.map Prod.snd = emTurnos ∧ Trace.Everywhere SemConflito hist s := by
  have hrun : (execute (Threads.step fun _ ↦ executa) (inicial papeis) emTurnos).isSome := by
    decide +kernel
  obtain ⟨hist, s, t, hlab, hg⟩ : ∃ hist s, Trace Passo _ hist s ∧ _ :=
    exists_guarded_of_execute (C := SaidaSozinha) (fun _ _ _ ↦ id) hrun (by decide +kernel)
  exact ⟨hist, s, t, hlab, semConflito_everywhere t hg⟩

/-- The two readers leave together and both find `no_of_readers` at `0`. One of them lets the writer
in, and the other takes `no_acc` away from it; the first reader comes back. -/
def duplaSaida : List (Fin 3) :=
  [List.replicate 7 0, List.replicate 6 1, List.replicate 4 0, List.replicate 4 1,
    List.replicate 2 0, List.replicate 3 2, List.replicate 2 1, List.replicate 7 0].flatten

theorem semConflito_fails : ∃ hist s, Trace Passo (inicial papeis) hist s ∧
    hist.map Prod.snd = duplaSaida ∧ ¬SemConflito s := by
  have hrun : ((execute (Threads.step fun _ ↦ executa) (inicial papeis) duplaSaida).map
      fun s ↦ (s.loc 2, s.loc 0)) = some (.redator .escrevendo, .leitor .lendo) := by
    decide +kernel
  obtain ⟨hist, s, t, hlab, hpcs⟩ : ∃ hist s, Trace Passo _ hist s ∧ _ :=
    exists_trace_of_execute_map (fun _ _ _ ↦ id) hrun
  obtain ⟨hw, hr⟩ := Prod.mk.inj hpcs
  exact ⟨hist, s, t, hlab, fun hok ↦ (hok 2 hw 0).1 hr⟩

theorem avanca_everywhere [Nonempty ι] (t : Trace Passo (inicial papel) hist s)
    (hg : Trace.Guarded SemCruzamento hist) : Trace.Everywhere Avanca hist s := by
  have hinv := t.everywhere_of_guard
    (I := fun s ↦ Contagem (resumo s) ∧ Progresso (resumo s))
    ⟨contagem_inicial, by rw [resumo_inicial]; exact ⟨nofun, nofun, nofun⟩⟩
    (fun ⟨hc, hp⟩ hC hs ↦
      have hm := muda_of_passo hs
      ⟨hc.muda hm, hp.muda hc (chegando_le _) hC.semCruzar hm⟩) hg
  exact hinv.imp fun ⟨hc, hp⟩ ↦ hp.avanca hc

/-- The second reader enters while the first one reads; they leave one after the other. -/
def doisLeitores : List (Fin 2) :=
  [List.replicate 7 0, List.replicate 6 1, List.replicate 5 0, List.replicate 6 1].flatten

theorem avanca_everywhere_dois : ∃ hist s,
    Trace Passo (inicial fun _ : Fin 2 ↦ .leitor) hist s ∧
    hist.map Prod.snd = doisLeitores ∧ Trace.Everywhere Avanca hist s := by
  have hrun : (execute (Threads.step fun _ ↦ executa) (inicial fun _ ↦ .leitor)
      doisLeitores).isSome := by
    decide +kernel
  obtain ⟨hist, s, t, hlab, hg⟩ : ∃ hist s, Trace Passo _ hist s ∧ _ :=
    exists_guarded_of_execute (C := SemCruzamento) (fun _ _ _ ↦ id) hrun (by decide +kernel)
  exact ⟨hist, s, t, hlab, avanca_everywhere t hg⟩

/-- A reader leaves while the next one is between its increment and its test: the one takes itself
for the first reader, and the other does not take itself for the last. -/
def entradaCruzada : List (Fin 2) :=
  [List.replicate 7 0, List.replicate 4 1, List.replicate 4 0, [1], List.replicate 2 0].flatten

theorem avanca_fails : ∃ hist s, Trace Passo (inicial fun _ : Fin 2 ↦ .leitor) hist s ∧
    hist.map Prod.snd = entradaCruzada ∧ ¬Avanca s := by
  have hrun : ((execute (Threads.step fun _ ↦ executa) (inicial fun _ ↦ .leitor)
      entradaCruzada).map fun s ↦ decide (∀ i, (executa s.shared (s.loc i)).isNone)) =
      some true := by
    decide +kernel
  obtain ⟨hist, s, t, hlab, hpcs⟩ : ∃ hist s, Trace Passo _ hist s ∧ _ :=
    exists_trace_of_execute_map (fun _ _ _ ↦ id) hrun
  refine ⟨hist, s, t, hlab, ?_⟩
  rintro ⟨i, s', hs⟩
  obtain ⟨m, a, hex, -⟩ := Threads.step_eq_some.mp hs
  have hnone := of_decide_eq_true hpcs i
  rw [hex] at hnone
  cases hnone

end Properties

end SistemasOperacionais.LeitorRedator
