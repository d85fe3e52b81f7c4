import SistemasOperacionais.Foundations.Trace
import SistemasOperacionais.Foundations.Threads

/-!
# A ring of processes

`processo_n_pipe.c`: a parent creates `NP` pipes and `NP` children. Child `np` reads from the pipe
of the child before it and writes to its own, and a counter travels around the ring until somebody
receives `VAL`. The processes advance by one system call at a time, in any order.

Every process has its own table of descriptors, copied by `fork`. A `read` from an empty pipe
returns `0` only when no table has its write end any more, and the parent keeps all of them until
its `wait` returns. So the ring is passed twice: by the counter, and then by the end of file that
starts at the child that received `VAL`.
-/

namespace SistemasOperacionais.ProcessoNPipe

open Foundations Function

/-! ## The program -/

def bytes (v : Int32) : List UInt8 :=
  let n := v.toUInt32.toNat
  [.ofNat n, .ofNat (n / 2 ^ 8), .ofNat (n / 2 ^ 16), .ofNat (n / 2 ^ 24)]

def inteiro : List UInt8 → Int32
  | [a, b, c, d] =>
    (UInt32.ofNat (a.toNat + 2 ^ 8 * b.toNat + 2 ^ 16 * c.toNat + 2 ^ 24 * d.toNat)).toInt32
  | _ => 0

/-- The next system call of a child. -/
inductive PcFilho
  | naoCriado
  /-- `if( i != np ) close( fd[ i ][ WRITE ] )`, and the end of that loop -/
  | fechaEscrita (i : ℕ)
  /-- `if( i != (np-1+NP) % NP ) close( fd[ i ][ READ  ] )` -/
  | fechaLeitura (i : ℕ)
  /-- `val = 1` and its `printf`, of child `0` -/
  | imprimeUm
  /-- `write( fd[ np ][ WRITE ], &val, sizeof(int) )` -/
  | escreve
  /-- `read( fd[ (np-1+NP) % NP ][ READ ], &val, sizeof(int) )` -/
  | le
  /-- `if( val == VAL ) break`, or `val++` -/
  | testa
  /-- `printf` -/
  | imprime
  /-- `close( fd[ np ][ WRITE ])`, after the loop -/
  | fimEscrita
  /-- `close( fd[ (np-1+NP) % NP ][ READ ])` -/
  | fimLeitura
  /-- `exit(0)` -/
  | sai
  | saiu
  /-- killed by `SIGPIPE` -/
  | morto
deriving DecidableEq

/-- The next system call of the parent. -/
inductive PcPai
  /-- `np < NP`, and `fork()` -/
  | cria (np : ℕ)
  /-- `wait(&val)` -/
  | espera
  /-- the end of `main` -/
  | retorna
  | saiu
deriving DecidableEq

inductive Processo
  | pai
  | filho (np : ℕ)
deriving DecidableEq

structure Estado where
  pai : PcPai
  filho : ℕ → PcFilho
  /-- The variable `val` of each child. -/
  val : ℕ → Int32
  /-- Which write ends a process has open. -/
  escrita : Processo → ℕ → Bool
  leitura : Processo → ℕ → Bool
  fila : ℕ → List UInt8
  /-- What has been printed: the number of the child and the value. -/
  saida : List (ℕ × ℤ)

/-- After the loop of `pipe` calls; `val` has not been set. -/
def inicial (val : Int32) : Estado where
  pai := .cria 0
  filho _ := .naoCriado
  val _ := val
  escrita p _ := p = .pai
  leitura p _ := p = .pai
  fila _ := []
  saida := []

def anterior (NP np : ℕ) : ℕ := (np + NP - 1) % NP

namespace Estado

/-- Is the end `t` of pipe `j` open in some process? -/
def aberta (NP : ℕ) (t : Processo → ℕ → Bool) (j : ℕ) : Bool :=
  t .pai j || (List.range NP).any fun i ↦ t (.filho i) j

/-- The end of a process closes all its descriptors. -/
def encerra (s : Estado) (p : Processo) : Estado :=
  { s with
    escrita := update s.escrita p fun _ ↦ false
    leitura := update s.leitura p fun _ ↦ false }

def fechaEscrita (s : Estado) (p : Processo) (j : ℕ) : Estado :=
  { s with escrita := update s.escrita p (update (s.escrita p) j false) }

def fechaLeitura (s : Estado) (p : Processo) (j : ℕ) : Estado :=
  { s with leitura := update s.leitura p (update (s.leitura p) j false) }

def vai (s : Estado) (np : ℕ) (pc : PcFilho) : Estado := { s with filho := update s.filho np pc }

def imprime (s : Estado) (np : ℕ) : Estado :=
  { s with saida := s.saida ++ [(np + 1, (s.val np).toInt)] }

/-- The `read` of child `np` finds something in pipe `j`. -/
def recebe (s : Estado) (np j : ℕ) : Estado :=
  let lidos := (s.fila j).take 4
  { s with
    fila := update s.fila j ((s.fila j).drop 4)
    val := update s.val np (inteiro (lidos ++ (bytes (s.val np)).drop lidos.length)) }

/-- The next step of child `np`; `none` while its `read` has to wait. -/
def avancaFilho (NP : ℕ) (VAL : Int32) (s : Estado) (np : ℕ) : Option Estado :=
  match s.filho np with
  | .naoCriado | .saiu | .morto => none
  | .fechaEscrita i => some <|
    if i < NP then
      if i ≠ np then (s.fechaEscrita (.filho np) i).vai np (.fechaLeitura i)
      else s.vai np (.fechaLeitura i)
    else s.vai np (if np = 0 then .imprimeUm else .le)
  | .fechaLeitura i => some <|
    if i ≠ anterior NP np then (s.fechaLeitura (.filho np) i).vai np (.fechaEscrita (i + 1))
    else s.vai np (.fechaEscrita (i + 1))
  | .imprimeUm => some (({ s with val := update s.val np 1 }.imprime np).vai np .escreve)
  | .escreve => some <|
    if aberta NP s.leitura np then
      { s with fila := update s.fila np (s.fila np ++ bytes (s.val np)) }.vai np .le
    else (s.encerra (.filho np)).vai np .morto
  | .le =>
    if s.fila (anterior NP np) ≠ [] then some ((s.recebe np (anterior NP np)).vai np .testa)
    else if aberta NP s.escrita (anterior NP np) then none
    else some (s.vai np .fimEscrita)
  | .testa => some <|
    if s.val np = VAL then s.vai np .fimEscrita
    else { s with val := update s.val np (s.val np + 1) }.vai np .imprime
  | .imprime => some ((s.imprime np).vai np .escreve)
  | .fimEscrita => some ((s.fechaEscrita (.filho np) np).vai np .fimLeitura)
  | .fimLeitura => some ((s.fechaLeitura (.filho np) (anterior NP np)).vai np .sai)
  | .sai => some ((s.encerra (.filho np)).vai np .saiu)

/-- `fork`: the child starts with the descriptors and the memory of the parent. -/
def fork (s : Estado) (np : ℕ) : Estado :=
  { s with
    escrita := update s.escrita (.filho np) (s.escrita .pai)
    leitura := update s.leitura (.filho np) (s.leitura .pai) }.vai np (.fechaEscrita 0)

def avancaPai (NP : ℕ) (s : Estado) : Option Estado :=
  match s.pai with
  | .cria np => some <|
    if np < NP then { s.fork np with pai := .cria (np + 1) } else { s with pai := .espera }
  | .espera =>
    if (List.range NP).any fun i ↦ s.filho i = .saiu ∨ s.filho i = .morto then
      some { s with pai := .retorna }
    else none
  | .retorna => some { s.encerra .pai with pai := .saiu }
  | .saiu => none

def executa (NP : ℕ) (VAL : Int32) (s : Estado) : Processo → Option Estado
  | .pai => s.avancaPai NP
  | .filho np => if np < NP then s.avancaFilho NP VAL np else none

end Estado

def Passo (NP : ℕ) (VAL : Int32) (s : Estado) (p : Processo) (s' : Estado) : Prop :=
  s.executa NP VAL p = some s'

/-! ## Bytes and the ring -/

theorem inteiro_bytes (v : Int32) : inteiro (bytes v) = v := by
  have hlt := v.toUInt32.toNat_lt
  have hsum : v.toUInt32.toNat % 2 ^ 8 + 2 ^ 8 * (v.toUInt32.toNat / 2 ^ 8 % 2 ^ 8) +
      2 ^ 16 * (v.toUInt32.toNat / 2 ^ 16 % 2 ^ 8) + 2 ^ 24 * (v.toUInt32.toNat / 2 ^ 24 % 2 ^ 8) =
      v.toUInt32.toNat := by
    omega
  simp only [bytes, inteiro, UInt8.toNat_ofNat', hsum, UInt32.ofNat_toNat, Int32.toInt32_toUInt32]

theorem length_bytes (v : Int32) : (bytes v).length = 4 := rfl

variable {NP : ℕ} {VAL : Int32}

theorem anterior_succ (hNP : 0 < NP) (m : ℕ) : anterior NP ((m + 1) % NP) = m % NP := by
  have hlt : (m + 1) % NP < NP := Nat.mod_lt _ hNP
  have hsub : (m + 1) % NP + NP - 1 = (m + 1) % NP + (NP - 1) := by omega
  have hsum : m + 1 + (NP - 1) = m + NP := by omega
  rw [anterior, hsub, Nat.mod_add_mod, hsum, Nat.add_mod_right]

theorem anterior_inj (hNP : 0 < NP) {a b : ℕ} (ha : a < NP) (hb : b < NP)
    (h : anterior NP a = anterior NP b) : a = b := by
  have hmod : (a + (NP - 1)) ≡ (b + (NP - 1)) [MOD NP] := by
    have ha' : a + NP - 1 = a + (NP - 1) := by omega
    have hb' : b + NP - 1 = b + (NP - 1) := by omega
    rwa [anterior, anterior, ha', hb'] at h
  have hab := Nat.ModEq.add_right_cancel' _ hmod
  rwa [Nat.ModEq, Nat.mod_eq_of_lt ha, Nat.mod_eq_of_lt hb] at hab

/-! ## The counter -/

/-- The bound as a number. -/
def limite (VAL : Int32) : ℕ := VAL.toInt.toNat

theorem limite_lt (VAL : Int32) : limite VAL < 2 ^ 31 := by
  have h := VAL.toInt_lt
  rw [limite]
  omega

theorem ofNat_eq_iff (hVAL : 1 ≤ VAL) {k : ℕ} (hk : k ≤ limite VAL) :
    Int32.ofNat k = VAL ↔ k = limite VAL := by
  have hlt := limite_lt VAL
  have hpos : 1 ≤ VAL.toInt := Int32.le_iff_toInt_le.mp hVAL
  rw [← Int32.toInt_inj, Int32.toInt_ofNat_of_lt (by omega), limite]
  omega

/-- The values `1`, …, `k` as they should be printed. -/
def impressos (NP k : ℕ) : List (ℕ × ℤ) := (List.range k).map fun i : ℕ ↦ (i % NP + 1, (i : ℤ) + 1)

theorem impressos_succ (NP k : ℕ) :
    impressos NP (k + 1) = impressos NP k ++ [(k % NP + 1, (k : ℤ) + 1)] := by
  rw [impressos, List.range_succ, List.map_append]
  rfl

/-- Where the counter is. -/
inductive Ficha
  /-- child `0` has not printed `1` yet -/
  | nenhuma
  /-- value `k` has been printed and is about to be written -/
  | impressa (k : ℕ)
  /-- value `k` is in a pipe -/
  | enviada (k : ℕ)
  /-- value `k` has been read -/
  | recebida (k : ℕ)
  /-- value `k` has been read and incremented -/
  | somada (k : ℕ)
  /-- `VAL` has been read -/
  | fim

namespace Ficha

def Valida (V : ℕ) : Ficha → Prop
  | .impressa k | .enviada k | .recebida k => 1 ≤ k ∧ k ≤ V
  | .somada k => 1 ≤ k ∧ k < V
  | .nenhuma | .fim => True

/-- How many values have been printed. -/
def valor (V : ℕ) : Ficha → ℕ
  | .nenhuma => 0
  | .impressa k | .enviada k | .recebida k | .somada k => k
  | .fim => V

/-- The child that has the counter. -/
def dono (NP : ℕ) : Ficha → Option ℕ
  | .impressa k => some ((k - 1) % NP)
  | .recebida k | .somada k => some (k % NP)
  | .nenhuma | .enviada _ | .fim => none

def conteudo (NP : ℕ) (j : ℕ) : Ficha → List UInt8
  | .enviada k => if j = (k - 1) % NP then bytes (.ofNat k) else []
  | _ => []

end Ficha

/-- A child that has left its loop. -/
def PcFilho.terminando : PcFilho → Prop
  | .fimEscrita | .fimLeitura | .sai | .saiu => True
  | _ => False

/-- Where a child can be that does not have the counter. -/
def Quieto (np : ℕ) (f : Ficha) : PcFilho → Prop
  | .naoCriado | .fechaEscrita _ | .fechaLeitura _ => np = 0 → f = .nenhuma
  | .imprimeUm => np = 0 ∧ f = .nenhuma
  | .le => np = 0 → f ≠ .nenhuma
  | .fimEscrita | .fimLeitura | .sai | .saiu => f = .fim
  | .escreve | .testa | .imprime | .morto => False

/-- Where the child is that has the counter, or had it last. -/
def Posse (NP V : ℕ) (filho : ℕ → PcFilho) (val : ℕ → Int32) : Ficha → Prop
  | .impressa k => filho ((k - 1) % NP) = .escreve ∧ val ((k - 1) % NP) = .ofNat k
  | .recebida k => filho (k % NP) = .testa ∧ val (k % NP) = .ofNat k
  | .somada k => filho (k % NP) = .imprime ∧ val (k % NP) = .ofNat (k + 1)
  | .fim => (filho (V % NP)).terminando
  | .nenhuma | .enviada _ => True

structure Circula (NP V : ℕ) (s : Estado) (f : Ficha) : Prop where
  valida : f.Valida V
  saida : s.saida = impressos NP (f.valor V)
  fila : ∀ j, s.fila j = f.conteudo NP j
  quieto : ∀ np, f.dono NP ≠ some np → Quieto np f (s.filho np)
  posse : Posse NP V s.filho s.val f

theorem Quieto.congr {np : ℕ} {f f' : Ficha} {pc : PcFilho} (h : Quieto np f pc)
    (hinicio : np = 0 → (f = .nenhuma ↔ f' = .nenhuma)) (hfim : f = .fim → f' = .fim) :
    Quieto np f' pc := by
  cases pc with
  | naoCriado | fechaEscrita _ | fechaLeitura _ => exact fun h0 ↦ (hinicio h0).mp (h h0)
  | imprimeUm => exact ⟨h.1, (hinicio h.1).mp h.2⟩
  | le => exact fun h0 hf ↦ h h0 ((hinicio h0).mpr hf)
  | fimEscrita | fimLeitura | sai | saiu => exact hfim h
  | escreve | testa | imprime | morto => exact h

namespace Circula

variable {V np : ℕ} {s s' : Estado} {f f' : Ficha} {pc : PcFilho}

theorem dono_ne (hc : Circula NP V s f) (hpc : s.filho np = .naoCriado ∨ s.filho np = .saiu ∨
    s.filho np = .morto) : f.dono NP ≠ some np := by
  intro hdono
  have hposse := hc.posse
  cases f with
  | nenhuma | enviada _ | fim => cases hdono
  | impressa k | recebida k | somada k =>
    obtain rfl := Option.some.inj hdono
    simp [hposse.1] at hpc

theorem segue (hc : Circula NP V s f) (pc : PcFilho) (hdono : f.dono NP ≠ some np)
    (hpc : Quieto np f pc) (hfim : (s.filho np).terminando → pc.terminando)
    (hsaida : s'.saida = s.saida) (hfila : s'.fila = s.fila) (hval : s'.val = s.val)
    (hfilho : s'.filho = update s.filho np pc) :
    Circula NP V s' f where
  valida := hc.valida
  saida := hsaida.trans hc.saida
  fila j := hfila ▸ hc.fila j
  quieto m hm := by
    rw [hfilho]
    obtain rfl | hne := eq_or_ne m np
    · rwa [update_self]
    · rw [update_of_ne hne]
      exact hc.quieto m hm
  posse := by
    have hposse := hc.posse
    have hoff : ∀ m, f.dono NP = some m → m ≠ np := fun m hm heq ↦ hdono (heq ▸ hm)
    rw [hval, hfilho]
    cases f with
    | nenhuma | enviada _ => trivial
    | impressa k | recebida k | somada k =>
      simp only [Posse, update_of_ne (hoff _ rfl)]
      exact hposse
    | fim =>
      simp only [Posse]
      obtain heq | hne := eq_or_ne (V % NP) np
      · rw [heq, update_self]
        exact hfim (heq ▸ hposse)
      · rw [update_of_ne hne]
        exact hposse

/-- The counter moves on, and with it the child `np` that had it or gets it. -/
theorem troca (hc : Circula NP V s f) (hdono : ∀ m, m ≠ np → f.dono NP ≠ some m)
    (hinicio : np ≠ 0 → (f = .nenhuma ↔ f' = .nenhuma)) (hnfim : f ≠ .fim)
    (hfilho : s'.filho = update s.filho np pc) (hvalida : f'.Valida V)
    (hsaida : s'.saida = impressos NP (f'.valor V)) (hfila : ∀ j, s'.fila j = f'.conteudo NP j)
    (hpc : f'.dono NP ≠ some np → Quieto np f' pc) (hposse : Posse NP V s'.filho s'.val f') :
    Circula NP V s' f' where
  valida := hvalida
  saida := hsaida
  fila := hfila
  quieto m hm := by
    rw [hfilho]
    obtain rfl | hne := eq_or_ne m np
    · rw [update_self]
      exact hpc hm
    · rw [update_of_ne hne]
      refine (hc.quieto m (hdono m hne)).congr (fun h0 ↦ hinicio fun hnp ↦ hne ?_)
        fun h ↦ absurd h hnfim
      rw [h0, hnp]
  posse := hposse

end Circula

/-! ## Descriptors -/

/-- The write ends that child `np` has closed at each place. -/
def Tabela (NP np : ℕ) (pc : PcFilho) (t : ℕ → Bool) : Prop :=
  match pc with
  | .naoCriado | .saiu | .morto => ∀ j, t j = false
  | .fechaEscrita i => ∀ j, j < i → j ≠ np → t j = false
  | .fechaLeitura i => ∀ j, j ≤ i → j ≠ np → t j = false
  | _ => ∀ j, j < NP → j ≠ np → t j = false

structure Descritores (NP : ℕ) (s : Estado) (f : Ficha) : Prop where
  aberto : s.pai ≠ .saiu → ∀ j, s.escrita .pai j = true ∧ s.leitura .pai j = true
  fechado : s.pai = .saiu → ∀ j, s.escrita .pai j = false
  vivo : f ≠ .fim → s.pai ≠ .saiu ∧ s.pai ≠ .retorna
  tabela : ∀ np, Tabela NP np (s.filho np) (s.escrita (.filho np))

namespace Descritores

variable {np : ℕ} {s s' : Estado} {f f' : Ficha} {pc : PcFilho}

theorem filho (hd : Descritores NP s f) (hpai : s'.pai = s.pai)
    (hfilho : s'.filho = update s.filho np pc)
    (hescrita : ∀ p, p ≠ .filho np → s'.escrita p = s.escrita p)
    (hleitura : s'.leitura .pai = s.leitura .pai) (htab : Tabela NP np pc (s'.escrita (.filho np)))
    (hfim : f' ≠ .fim → f ≠ .fim) : Descritores NP s' f' where
  aberto h j := by
    rw [hescrita .pai nofun, hleitura]
    exact hd.aberto (hpai ▸ h) j
  fechado h := by
    rw [hescrita .pai nofun]
    exact hd.fechado (hpai ▸ h)
  vivo h := hpai ▸ hd.vivo (hfim h)
  tabela m := by
    rw [hfilho]
    obtain rfl | hne := eq_or_ne m np
    · rwa [update_self]
    · rw [update_of_ne hne, hescrita _ (by simpa using hne)]
      exact hd.tabela m

/-- While the counter runs, every pipe has an open end in the parent. -/
theorem aberta (hd : Descritores NP s f) (hf : f ≠ .fim) (j : ℕ) :
    Estado.aberta NP s.escrita j = true ∧ Estado.aberta NP s.leitura j = true := by
  obtain ⟨hw, hr⟩ := hd.aberto (hd.vivo hf).1 j
  simp [Estado.aberta, hw, hr]

end Descritores

/-! ## Creation -/

def PcPai.criados (NP : ℕ) : PcPai → ℕ
  | .cria n => n
  | _ => NP

structure Criados (NP : ℕ) (s : Estado) : Prop where
  le : s.pai.criados NP ≤ NP
  iff : ∀ np < NP, s.filho np = .naoCriado ↔ s.pai.criados NP ≤ np

theorem Criados.filho {np : ℕ} {s s' : Estado} {pc : PcFilho} (hc : Criados NP s)
    (hpai : s'.pai = s.pai) (hfilho : s'.filho = update s.filho np pc)
    (hpc : pc = .naoCriado ↔ s.filho np = .naoCriado) : Criados NP s' where
  le := hpai ▸ hc.le
  iff m hm := by
    rw [hfilho, hpai, ← hc.iff m hm]
    obtain rfl | hne := eq_or_ne m np
    · rwa [update_self]
    · rw [update_of_ne hne]

/-! ## The rank -/

/-- How many steps a child still has to take, apart from what the counter brings. -/
def PcFilho.posto (NP : ℕ) : PcFilho → ℕ
  | .naoCriado => 2 * NP + 8
  | .fechaEscrita i => 2 * (NP - i) + 7
  | .fechaLeitura i => 2 * (NP - (i + 1)) + 8
  | .escreve => 10
  | .testa => 7
  | .imprimeUm | .imprime => 6
  | .le => 4
  | .fimEscrita => 3
  | .fimLeitura => 2
  | .sai => 1
  | .saiu | .morto => 0

def PcPai.posto (NP : ℕ) : PcPai → ℕ
  | .cria np => NP - np + 3
  | .espera => 2
  | .retorna => 1
  | .saiu => 0

open Finset in
/-- Every step lowers this. A value still to be printed is worth five steps, and a byte in a pipe
one. -/
def posto (NP : ℕ) (VAL : Int32) (s : Estado) : ℕ :=
  s.pai.posto NP + ∑ np ∈ range NP, (s.filho np).posto NP + 5 * (limite VAL - s.saida.length) +
    ∑ j ∈ range NP, (s.fila j).length

open Finset in
/-- The rank when a child moves on; the pipes and the output are accounted for by the caller. -/
theorem posto_filho {np : ℕ} (hnp : np < NP) {s s' : Estado} {pc : PcFilho} (hpai : s'.pai = s.pai)
    (hfilho : s'.filho = update s.filho np pc)
    (hlt : pc.posto NP + 5 * (limite VAL - s'.saida.length) + ∑ j ∈ range NP, (s'.fila j).length <
      (s.filho np).posto NP + 5 * (limite VAL - s.saida.length) +
        ∑ j ∈ range NP, (s.fila j).length) :
    posto NP VAL s' < posto NP VAL s := by
  have hsum := sum_update_add (mem_range.mpr hnp) (fun _ pc ↦ PcFilho.posto NP pc) s.filho pc
  rw [posto, posto, hpai, hfilho]
  omega

/-! ## Steps -/

structure Invariante (NP : ℕ) (VAL : Int32) (s : Estado) (f : Ficha) : Prop where
  circula : Circula NP (limite VAL) s f
  descritores : Descritores NP s f
  criados : Criados NP s

namespace Invariante

variable {np : ℕ} {s s' : Estado} {f : Ficha}

theorem inicial (hNP : 0 < NP) (val : Int32) : Invariante NP VAL (inicial val) .nenhuma where
  circula := ⟨trivial, rfl, fun _ ↦ rfl, fun _ _ _ ↦ rfl, trivial⟩
  descritores :=
    { aberto := fun _ _ ↦ ⟨rfl, rfl⟩
      fechado := nofun
      vivo := fun _ ↦ ⟨nofun, nofun⟩
      tabela := fun _ _ ↦ rfl }
  criados := ⟨hNP.le, fun np _ ↦ ⟨fun _ ↦ np.zero_le, fun _ ↦ rfl⟩⟩

/-- What has to be shown when child `np` moves on to `pc`. -/
theorem move {pc : PcFilho} (hi : Invariante NP VAL s f) (f' : Ficha) (hnp : np < NP)
    (hpai : s'.pai = s.pai) (hfilho : s'.filho = update s.filho np pc)
    (hcriado : s.filho np ≠ .naoCriado ∧ pc ≠ .naoCriado)
    (hescrita : ∀ p, p ≠ .filho np → s'.escrita p = s.escrita p)
    (hleitura : s'.leitura .pai = s.leitura .pai) (htab : Tabela NP np pc (s'.escrita (.filho np)))
    (hfim : f' ≠ .fim → f ≠ .fim) (hc : Circula NP (limite VAL) s' f')
    (hlt : pc.posto NP + 5 * (limite VAL - s'.saida.length) +
        ∑ j ∈ Finset.range NP, (s'.fila j).length <
      (s.filho np).posto NP + 5 * (limite VAL - s.saida.length) +
        ∑ j ∈ Finset.range NP, (s.fila j).length) :
    ∃ f', Invariante NP VAL s' f' ∧ posto NP VAL s' < posto NP VAL s := by
  refine ⟨f', ⟨hc, hi.descritores.filho hpai hfilho hescrita hleitura htab hfim, ?_⟩,
    posto_filho hnp hpai hfilho hlt⟩
  exact hi.criados.filho hpai hfilho ⟨fun h ↦ absurd h hcriado.2, fun h ↦ absurd h hcriado.1⟩

theorem comFicha (hVAL : 1 ≤ VAL) (hi : Invariante NP VAL s f) (hnp : np < NP)
    (hdono : f.dono NP = some np) (h : s.avancaFilho NP VAL np = some s') :
    ∃ f', Invariante NP VAL s' f' ∧ posto NP VAL s' < posto NP VAL s := by
  have hc := hi.circula
  have hvalida := hc.valida
  have hposse := hc.posse
  have hsaida := hc.saida
  have hlim := limite_lt VAL
  have houtros : ∀ m, m ≠ np → f.dono NP ≠ some m := fun m hne heq ↦
    hne (Option.some.inj (heq.symm.trans hdono))
  have htab := hi.descritores.tabela np
  cases f with
  | nenhuma | enviada _ | fim => cases hdono
  | impressa k =>
    obtain rfl := Option.some.inj hdono
    obtain ⟨hpc, hval⟩ := hposse
    have hvazia : s.fila ((k - 1) % NP) = [] := hc.fila _
    rw [Estado.avancaFilho, hpc] at h
    simp only [(hi.descritores.aberta nofun _).2, if_true, Option.some.injEq] at h
    subst h
    rw [hpc] at htab
    refine hi.move (.enviada k) hnp rfl rfl ⟨by simp [hpc], nofun⟩ (fun _ _ ↦ rfl) rfl htab
      (fun _ ↦ nofun) ?_ ?_
    · refine hc.troca houtros (fun _ ↦ by simp) nofun rfl hvalida hsaida (fun j ↦ ?_)
        (fun _ _ ↦ nofun) trivial
      simp only [Estado.vai, hvazia, hval, List.nil_append, Ficha.conteudo, update_apply]
      split_ifs
      · rfl
      · exact hc.fila j
    · have hsum := sum_update_add (Finset.mem_range.mpr hnp) (fun _ l ↦ List.length l) s.fila
        (s.fila ((k - 1) % NP) ++ bytes (s.val ((k - 1) % NP)))
      simp only [hvazia, List.length_nil, List.nil_append, length_bytes] at hsum
      simp only [Estado.vai, hpc, hvazia, List.nil_append, PcFilho.posto]
      omega
  | recebida k =>
    obtain rfl := Option.some.inj hdono
    obtain ⟨hpc, hval⟩ := hposse
    obtain ⟨hk, hkV⟩ := hvalida
    rw [Estado.avancaFilho, hpc] at h
    simp only [Option.some.injEq] at h
    subst h
    rw [hpc] at htab
    by_cases hfim : k = limite VAL
    · rw [if_pos (hval.trans ((ofNat_eq_iff hVAL hkV).mpr hfim))]
      refine hi.move .fim hnp rfl rfl ⟨by simp [hpc], nofun⟩ (fun _ _ ↦ rfl) rfl htab
        (fun _ ↦ nofun) ?_ ?_
      · refine hc.troca houtros (fun _ ↦ by simp) nofun rfl trivial (hfim ▸ hsaida) hc.fila
          (fun _ ↦ rfl) ?_
        simp only [Posse, Estado.vai, ← hfim, update_self]
        trivial
      · simp only [Estado.vai, hpc, PcFilho.posto]
        omega
    · rw [if_neg fun heq ↦ hfim ((ofNat_eq_iff hVAL hkV).mp (hval.symm.trans heq))]
      refine hi.move (.somada k) hnp rfl rfl ⟨by simp [hpc], nofun⟩ (fun _ _ ↦ rfl) rfl htab
        (fun _ ↦ nofun) ?_ ?_
      · refine hc.troca houtros (fun _ ↦ by simp) nofun rfl ⟨hk, hkV.lt_of_ne hfim⟩ hsaida hc.fila
          (fun hne ↦ absurd rfl hne) ?_
        simp only [Posse, Estado.vai, update_self, true_and, hval, Int32.ofNat_add]
        rfl
      · simp only [Estado.vai, hpc, PcFilho.posto]
        omega
  | somada k =>
    obtain rfl := Option.some.inj hdono
    obtain ⟨hpc, hval⟩ := hposse
    obtain ⟨hk, hkV⟩ := hvalida
    have himpresso : (s.val (k % NP)).toInt = (k : ℤ) + 1 := by
      rw [hval, Int32.toInt_ofNat_of_lt (by omega)]
      rfl
    rw [Estado.avancaFilho, hpc] at h
    simp only [Option.some.injEq] at h
    subst h
    rw [hpc] at htab
    refine hi.move (.impressa (k + 1)) hnp rfl rfl ⟨by simp [hpc], nofun⟩ (fun _ _ ↦ rfl) rfl
      htab (fun _ ↦ nofun) ?_ ?_
    · refine hc.troca houtros (fun _ ↦ by simp) nofun rfl ⟨k.succ_pos, hkV⟩ ?_ hc.fila
        (fun hne ↦ absurd rfl hne) ?_
      · simp only [Estado.vai, Estado.imprime, himpresso, hsaida]
        exact (impressos_succ NP k).symm
      · simp only [Posse, Estado.vai, Nat.add_sub_cancel, update_self, true_and]
        exact hval
    · have hlen : s.saida.length = k := by rw [hsaida]; simp [impressos, Ficha.valor]
      simp only [Estado.vai, Estado.imprime, hpc, PcFilho.posto, List.length_append, hlen,
        List.length_singleton]
      omega

theorem move_quieto (hi : Invariante NP VAL s f) (hnp : np < NP) (pc : PcFilho)
    (hdono : f.dono NP ≠ some np) (hpc : Quieto np f pc)
    (hcriado : s.filho np ≠ .naoCriado ∧ pc ≠ .naoCriado)
    (hfim : (s.filho np).terminando → pc.terminando) (hposto : pc.posto NP < (s.filho np).posto NP)
    (hpai : s'.pai = s.pai) (hsaida : s'.saida = s.saida) (hfila : s'.fila = s.fila)
    (hval : s'.val = s.val) (hfilho : s'.filho = update s.filho np pc)
    (hescrita : ∀ p, p ≠ .filho np → s'.escrita p = s.escrita p)
    (hleitura : s'.leitura .pai = s.leitura .pai)
    (htab : Tabela NP np pc (s'.escrita (.filho np))) :
    ∃ f', Invariante NP VAL s' f' ∧ posto NP VAL s' < posto NP VAL s := by
  refine hi.move f hnp hpai hfilho hcriado hescrita hleitura htab id
    (hi.circula.segue pc hdono hpc hfim hsaida hfila hval hfilho) ?_
  rw [hsaida, hfila]
  omega

theorem imprimeUm (hVAL : 1 ≤ VAL) (hi : Invariante NP VAL s .nenhuma) (hNP : 0 < NP)
    (hpc : s.filho 0 = .imprimeUm) (h : s.avancaFilho NP VAL 0 = some s') :
    ∃ f', Invariante NP VAL s' f' ∧ posto NP VAL s' < posto NP VAL s := by
  have hsaida : s.saida = [] := hi.circula.saida
  have htab := hi.descritores.tabela 0
  have hpos : 1 ≤ limite VAL := by
    have hint : 1 ≤ VAL.toInt := Int32.le_iff_toInt_le.mp hVAL
    rw [limite]
    omega
  rw [Estado.avancaFilho, hpc] at h
  simp only [Option.some.injEq] at h
  subst h
  rw [hpc] at htab
  refine hi.move (.impressa 1) hNP rfl rfl ⟨by simp [hpc], nofun⟩ (fun _ _ ↦ rfl) rfl htab
    (fun _ ↦ nofun) ?_ ?_
  · refine hi.circula.troca nofun (fun h ↦ absurd rfl h) nofun rfl ⟨le_rfl, hpos⟩ ?_
      hi.circula.fila (fun hne ↦ ?_) ?_
    · simp only [Estado.vai, Estado.imprime, update_self, hsaida]
      simp [impressos, Ficha.valor]
    · simp [Ficha.dono] at hne
    · simp [Posse, Estado.vai, Estado.imprime]
  · simp only [Estado.vai, Estado.imprime, hpc, PcFilho.posto, hsaida, List.nil_append,
      List.length_nil, List.length_singleton]
    omega

theorem recebe (hNP : 0 < NP) (hi : Invariante NP VAL s f) (hnp : np < NP) (hpc : s.filho np = .le)
    (hfila : s.fila (anterior NP np) ≠ []) :
    ∃ f', Invariante NP VAL ((s.recebe np (anterior NP np)).vai np .testa) f' ∧
      posto NP VAL ((s.recebe np (anterior NP np)).vai np .testa) < posto NP VAL s := by
  have hc := hi.circula
  have htab := hi.descritores.tabela np
  -- only the counter can be in a pipe, and only in the one before its next reader
  obtain ⟨k, rfl, hant⟩ : ∃ k, f = .enviada k ∧ anterior NP np = (k - 1) % NP := by
    rw [hc.fila] at hfila
    cases f with
    | enviada k =>
      refine ⟨k, rfl, ?_⟩
      by_contra hne
      exact hfila (if_neg hne)
    | nenhuma | impressa _ | recebida _ | somada _ | fim => exact absurd rfl hfila
  obtain ⟨hk, hkV⟩ := hc.valida
  obtain rfl : np = k % NP := by
    refine anterior_inj hNP hnp (Nat.mod_lt _ hNP) ?_
    rw [hant, ← anterior_succ hNP, Nat.sub_add_cancel hk]
  have hbytes : s.fila (anterior NP (k % NP)) = bytes (.ofNat k) := by
    rw [hc.fila, Ficha.conteudo, if_pos hant]
  have hlidos : (s.fila (anterior NP (k % NP))).take 4 = bytes (.ofNat k) := by
    rw [hbytes]
    rfl
  have hresto : (s.fila (anterior NP (k % NP))).drop 4 = [] := by
    rw [hbytes]
    rfl
  rw [hpc] at htab
  refine hi.move (.recebida k) hnp rfl rfl ⟨by simp [hpc], nofun⟩ (fun _ _ ↦ rfl) rfl htab
    (fun _ ↦ nofun) ?_ ?_
  · refine hc.troca nofun (fun _ ↦ by simp) nofun rfl ⟨hk, hkV⟩ hc.saida (fun j ↦ ?_)
      (fun hne ↦ absurd rfl hne) ?_
    · simp only [Estado.vai, Estado.recebe, hresto, Ficha.conteudo]
      obtain rfl | hne := eq_or_ne j (anterior NP (k % NP))
      · rw [update_self]
      · rw [update_of_ne hne, hc.fila, Ficha.conteudo, if_neg (hant ▸ hne)]
    · simp only [Posse, Estado.vai, Estado.recebe, hlidos, update_self, true_and]
      have hdrop : (bytes (s.val (k % NP))).drop (bytes (.ofNat k)).length = [] := rfl
      rw [hdrop, List.append_nil, inteiro_bytes]
  · have hj : anterior NP (k % NP) < NP := Nat.mod_lt _ hNP
    have hsum := sum_update_add (Finset.mem_range.mpr hj) (fun _ l ↦ List.length l) s.fila
      ((s.fila (anterior NP (k % NP))).drop 4)
    rw [hresto, hbytes, length_bytes, List.length_nil] at hsum
    simp only [Estado.vai, Estado.recebe, hresto, hpc, PcFilho.posto]
    omega

theorem semFicha (hNP : 0 < NP) (hVAL : 1 ≤ VAL) (hi : Invariante NP VAL s f) (hnp : np < NP)
    (hdono : f.dono NP ≠ some np) (h : s.avancaFilho NP VAL np = some s') :
    ∃ f', Invariante NP VAL s' f' ∧ posto NP VAL s' < posto NP VAL s := by
  have hquieto := hi.circula.quieto np hdono
  have htab := hi.descritores.tabela np
  have hmove (pc : PcFilho) {s' : Estado} := @move_quieto _ _ _ _ s' _ hi hnp pc hdono
  rw [Estado.avancaFilho] at h
  cases hpc : s.filho np with
  | naoCriado | saiu | morto =>
    rw [hpc] at h
    cases h
  | escreve | testa | imprime =>
    rw [hpc] at hquieto
    exact hquieto.elim
  | fechaEscrita i =>
    rw [hpc] at h hquieto htab hmove
    simp only [Option.some.injEq] at h
    subst h
    split_ifs with hlt hne h0
    · refine hmove (.fechaLeitura i) hquieto ⟨nofun, nofun⟩ id ?_ rfl rfl rfl rfl rfl
        (fun p hp ↦ ?_) rfl fun j hj hjne ↦ ?_
      · simp only [PcFilho.posto]
        omega
      · simp only [Estado.vai, Estado.fechaEscrita, update_of_ne hp]
      · simp only [Estado.vai, Estado.fechaEscrita, update_self]
        obtain rfl | hji := eq_or_ne j i
        · rw [update_self]
        · rw [update_of_ne hji]
          exact htab j (hj.lt_of_ne hji) hjne
    · refine hmove (.fechaLeitura i) hquieto ⟨nofun, nofun⟩ id ?_ rfl rfl rfl rfl rfl
        (fun _ _ ↦ rfl) rfl fun j hj hjne ↦ ?_
      · simp only [PcFilho.posto]
        omega
      · rw [not_not] at hne
        exact htab j (hj.lt_of_ne (hne ▸ hjne)) hjne
    · exact hmove .imprimeUm ⟨h0, hquieto h0⟩ ⟨nofun, nofun⟩ id
        (by simp only [PcFilho.posto]; omega) rfl rfl rfl rfl rfl (fun _ _ ↦ rfl) rfl
        fun j hj ↦ htab j (hj.trans_le (not_lt.mp hlt))
    · exact hmove .le (fun h ↦ absurd h h0) ⟨nofun, nofun⟩ id
        (by simp only [PcFilho.posto]; omega) rfl rfl rfl rfl rfl (fun _ _ ↦ rfl) rfl
        fun j hj ↦ htab j (hj.trans_le (not_lt.mp hlt))
  | fechaLeitura i =>
    rw [hpc] at h hquieto htab hmove
    simp only [Option.some.injEq] at h
    subst h
    have hposto : (PcFilho.fechaEscrita (i + 1)).posto NP < (PcFilho.fechaLeitura i).posto NP := by
      simp only [PcFilho.posto]
      exact Nat.lt_succ_self _
    have hfechadas : ∀ j, j < i + 1 → j ≠ np → s.escrita (.filho np) j = false :=
      fun j hj ↦ htab j (Nat.le_of_lt_succ hj)
    split_ifs
    · exact hmove (.fechaEscrita (i + 1)) hquieto ⟨nofun, nofun⟩ id hposto rfl rfl rfl rfl rfl
        (fun _ _ ↦ rfl) rfl hfechadas
    · exact hmove (.fechaEscrita (i + 1)) hquieto ⟨nofun, nofun⟩ id hposto rfl rfl rfl rfl rfl
        (fun _ _ ↦ rfl) rfl hfechadas
  | imprimeUm =>
    rw [hpc] at hquieto
    obtain ⟨rfl, rfl⟩ := hquieto
    exact hi.imprimeUm hVAL hNP hpc h
  | le =>
    rw [hpc] at h
    simp only at h
    split_ifs at h with hfila haberta
    · exact Option.some.inj h ▸ hi.recebe hNP hnp hpc hfila
    · -- end of file: nobody has the write end, so the parent is gone and the counter too
      obtain rfl := Option.some.inj h
      have hfim : f = .fim := by
        by_contra hne
        exact haberta (hi.descritores.aberta hne _).1
      rw [hpc] at htab hmove
      exact hmove .fimEscrita hfim ⟨nofun, nofun⟩ nofun (Nat.lt_succ_self _) rfl rfl rfl rfl
        rfl
        (fun _ _ ↦ rfl) rfl htab
  | fimEscrita =>
    rw [hpc] at h hquieto htab hmove
    obtain rfl := Option.some.inj h
    refine hmove .fimLeitura hquieto ⟨nofun, nofun⟩ id (Nat.lt_succ_self _) rfl rfl rfl rfl
      rfl
      (fun p hp ↦ ?_) rfl fun j hj hjne ↦ ?_
    · simp only [Estado.vai, Estado.fechaEscrita, update_of_ne hp]
    · simp only [Estado.vai, Estado.fechaEscrita, update_self, update_of_ne hjne]
      exact htab j hj hjne
  | fimLeitura =>
    rw [hpc] at h hquieto htab hmove
    obtain rfl := Option.some.inj h
    exact hmove .sai hquieto ⟨nofun, nofun⟩ id (Nat.lt_succ_self _) rfl rfl rfl rfl rfl
      (fun _ _ ↦ rfl) rfl htab
  | sai =>
    rw [hpc] at h hquieto htab hmove
    obtain rfl := Option.some.inj h
    refine hmove .saiu hquieto ⟨nofun, nofun⟩ id (Nat.lt_succ_self _) rfl rfl rfl rfl rfl
      (fun p hp ↦ ?_) rfl fun j ↦ ?_
    · simp only [Estado.vai, Estado.encerra, update_of_ne hp]
    · simp only [Estado.vai, Estado.encerra, update_self]

theorem move_pai (hi : Invariante NP VAL s f) (hfilho : s'.filho = s.filho) (hval : s'.val = s.val)
    (hsaida : s'.saida = s.saida) (hfila : s'.fila = s.fila) (hd : Descritores NP s' f)
    (hcriados : s'.pai.criados NP = s.pai.criados NP) (hposto : s'.pai.posto NP < s.pai.posto NP) :
    Invariante NP VAL s' f ∧ posto NP VAL s' < posto NP VAL s := by
  have hc := hi.circula
  refine ⟨⟨⟨hc.valida, hsaida.trans hc.saida, ?_, ?_, ?_⟩, hd, ⟨?_, ?_⟩⟩, ?_⟩
  · rw [hfila]
    exact hc.fila
  · rw [hfilho]
    exact hc.quieto
  · rw [hfilho, hval]
    exact hc.posse
  · exact hcriados.trans_le hi.criados.le
  · rw [hcriados, hfilho]
    exact hi.criados.iff
  · rw [posto, posto, hfilho, hsaida, hfila]
    omega

theorem fork {n : ℕ} (hi : Invariante NP VAL s f) (hpc : s.pai = .cria n) (hn : n < NP) :
    Invariante NP VAL { s.fork n with pai := .cria (n + 1) } f ∧
      posto NP VAL { s.fork n with pai := .cria (n + 1) } < posto NP VAL s := by
  have hc := hi.circula
  have hnovo : s.filho n = .naoCriado := by
    rw [hi.criados.iff n hn, hpc]
    exact le_rfl
  have hdono := hc.dono_ne (Or.inl hnovo)
  have hquieto := hc.quieto n hdono
  rw [hnovo] at hquieto
  refine ⟨⟨?_, ?_, hn, fun np hnp ↦ ?_⟩, ?_⟩
  · exact hc.segue (.fechaEscrita 0) hdono hquieto (by rw [hnovo]; exact id) rfl rfl rfl rfl
  · refine ⟨fun _ ↦ hi.descritores.aberto (by rw [hpc]; nofun), nofun, fun _ ↦ ⟨nofun, nofun⟩,
      fun np ↦ ?_⟩
    simp only [Estado.fork, Estado.vai]
    obtain rfl | hne := eq_or_ne np n
    · rw [update_self]
      exact fun j hj ↦ absurd hj j.not_lt_zero
    · rw [update_of_ne hne, update_of_ne (by simpa using hne)]
      exact hi.descritores.tabela np
  · have hiff := hi.criados.iff np hnp
    rw [hpc] at hiff
    simp only [Estado.fork, Estado.vai, PcPai.criados] at hiff ⊢
    obtain rfl | hne := eq_or_ne np n
    · simp
    · rw [update_of_ne hne, hiff]
      omega
  · have hsum := sum_update_add (Finset.mem_range.mpr hn) (fun _ pc ↦ PcFilho.posto NP pc) s.filho
      (.fechaEscrita 0)
    have hantes : PcFilho.naoCriado.posto NP = 2 * NP + 8 := rfl
    have hdepois : (PcFilho.fechaEscrita 0).posto NP = 2 * NP + 7 := rfl
    rw [hnovo, hantes, hdepois] at hsum
    simp only [posto, hpc, Estado.fork, Estado.vai, PcPai.posto]
    omega

theorem pai (hi : Invariante NP VAL s f) (h : s.avancaPai NP = some s') :
    Invariante NP VAL s' f ∧ posto NP VAL s' < posto NP VAL s := by
  have hd := hi.descritores
  rw [Estado.avancaPai] at h
  cases hpc : s.pai with
  | cria n =>
    rw [hpc] at h
    simp only [Option.some.injEq] at h
    subst h
    split_ifs with hn
    · exact hi.fork hpc hn
    · have hle := hi.criados.le
      rw [hpc] at hle
      refine hi.move_pai rfl rfl rfl rfl
        ⟨fun _ ↦ hd.aberto (by rw [hpc]; nofun), nofun, fun _ ↦ ⟨nofun, nofun⟩,
        hd.tabela⟩ ?_ ?_
      · rw [hpc]
        exact (not_lt.mp hn).antisymm hle
      · rw [hpc]
        simp only [PcPai.posto]
        omega
  | espera =>
    rw [hpc] at h
    simp only [Option.ite_none_right_eq_some, Option.some.injEq, List.any_eq_true, List.mem_range,
      decide_eq_true_eq] at h
    obtain ⟨⟨i, -, hsaiu⟩, rfl⟩ := h
    -- a child has ended, which happens only after the counter
    have hfim : f = .fim := by
      have hquieto := hi.circula.quieto i (hi.circula.dono_ne (Or.inr hsaiu))
      rcases hsaiu with hsaiu | hmorto
      · rwa [hsaiu] at hquieto
      · rw [hmorto] at hquieto
        exact hquieto.elim
    refine hi.move_pai rfl rfl rfl rfl ⟨fun _ ↦ hd.aberto (by rw [hpc]; nofun), nofun,
      fun h ↦ absurd hfim h, hd.tabela⟩ (by rw [hpc]; rfl) ?_
    rw [hpc]
    exact Nat.lt_succ_self _
  | retorna =>
    rw [hpc] at h
    obtain rfl := Option.some.inj h
    have hfim : f = .fim := by
      by_contra hne
      exact (hd.vivo hne).2 hpc
    refine hi.move_pai rfl rfl rfl rfl ⟨fun h ↦ absurd rfl h, fun _ j ↦ ?_, fun h ↦ absurd hfim h,
      fun np ↦ ?_⟩ (by rw [hpc]; rfl) ?_
    · simp only [Estado.encerra, update_self]
    · simp only [Estado.encerra, update_of_ne (show Processo.filho np ≠ .pai from nofun)]
      exact hd.tabela np
    · rw [hpc]
      exact Nat.lt_succ_self _
  | saiu =>
    rw [hpc] at h
    cases h

theorem passo (hNP : 0 < NP) (hVAL : 1 ≤ VAL) (hi : Invariante NP VAL s f) {p : Processo}
    (h : Passo NP VAL s p s') :
    ∃ f', Invariante NP VAL s' f' ∧ posto NP VAL s' < posto NP VAL s := by
  cases p with
  | pai => exact ⟨f, hi.pai h⟩
  | filho np =>
    rw [Passo, Estado.executa, Option.ite_none_right_eq_some] at h
    by_cases hdono : f.dono NP = some np
    · exact hi.comFicha hVAL h.1 hdono h.2
    · exact hi.semFicha hNP hVAL h.1 hdono h.2

end Invariante

/-! ## Progress -/

def Vivo (NP : ℕ) (s : Estado) : Prop := s.pai ≠ .saiu ∨ ∃ np < NP, s.filho np ≠ .saiu

namespace Invariante

variable {np : ℕ} {s : Estado} {f : Ficha}

/-- A child that cannot move is not created yet, has ended, or waits for an empty pipe that
somebody may still write to. -/
theorem parado (hi : Invariante NP VAL s f) (h : s.avancaFilho NP VAL np = none) :
    s.filho np = .naoCriado ∨ s.filho np = .saiu ∨ s.filho np = .le ∧
      s.fila (anterior NP np) = [] ∧ Estado.aberta NP s.escrita (anterior NP np) = true := by
  have hmorto : s.filho np ≠ .morto := by
    intro hpc
    have hquieto := hi.circula.quieto np (hi.circula.dono_ne (Or.inr (Or.inr hpc)))
    rw [hpc] at hquieto
    exact hquieto
  rw [Estado.avancaFilho] at h
  cases hpc : s.filho np with
  | naoCriado => exact Or.inl rfl
  | saiu => exact Or.inr (Or.inl rfl)
  | morto => exact absurd hpc hmorto
  | le =>
    rw [hpc] at h
    simp only at h
    split_ifs at h with hfila haberta
    exact Or.inr (Or.inr ⟨rfl, not_not.mp hfila, haberta⟩)
  | fechaEscrita _ | fechaLeitura _ | imprimeUm | escreve | testa | imprime | fimEscrita
  | fimLeitura | sai =>
    rw [hpc] at h
    cases h

/-- The end of file goes around: when the child before has ended, so has this one. -/
theorem eof (hi : Invariante NP VAL s f) (hpai : s.pai = .saiu)
    (hparado : ∀ np < NP, s.filho np = .saiu ∨ s.filho np = .le ∧
      Estado.aberta NP s.escrita (anterior NP np) = true)
    (hnp : np < NP) (hant : s.filho (anterior NP np) = .saiu) : s.filho np = .saiu := by
  obtain hsaiu | ⟨-, haberta⟩ := hparado np hnp
  · exact hsaiu
  rw [Estado.aberta, hi.descritores.fechado hpai, Bool.false_or, List.any_eq_true] at haberta
  obtain ⟨i, hlt, hescrita⟩ := haberta
  rw [List.mem_range] at hlt
  have htab := hi.descritores.tabela i
  obtain hsaiu | ⟨hle, -⟩ := hparado i hlt
  · rw [hsaiu] at htab
    rw [htab] at hescrita
    cases hescrita
  · rw [hle] at htab
    obtain heq | hne := eq_or_ne (anterior NP np) i
    · rw [heq, hle] at hant
      cases hant
    · have hfechada := htab (anterior NP np) (Nat.mod_lt _ (by omega)) hne
      rw [hescrita] at hfechada
      cases hfechada

/-- **Progress.** -/
theorem exists_passo (hNP : 0 < NP) (hi : Invariante NP VAL s f) (hvivo : Vivo NP s) :
    ∃ p s', Passo NP VAL s p s' := by
  by_contra hno
  push Not at hno
  have hfilho : ∀ np, np < NP → s.avancaFilho NP VAL np = none := by
    intro np hnp
    refine Option.eq_none_iff_forall_ne_some.mpr fun s' hs' ↦ hno (.filho np) s' ?_
    rw [Passo, Estado.executa, if_pos hnp, hs']
  have hpai : s.avancaPai NP = none := Option.eq_none_iff_forall_ne_some.mpr (hno .pai)
  -- the parent has created everybody
  have hpc : s.pai = .espera ∨ s.pai = .saiu := by
    rw [Estado.avancaPai] at hpai
    cases hpc : s.pai with
    | cria n =>
      rw [hpc] at hpai
      cases hpai
    | espera => exact Or.inl rfl
    | retorna =>
      rw [hpc] at hpai
      cases hpai
    | saiu => exact Or.inr rfl
  have hparado : ∀ np < NP, s.filho np = .saiu ∨ s.filho np = .le ∧ s.fila (anterior NP np) = [] ∧
      Estado.aberta NP s.escrita (anterior NP np) = true := by
    intro np hnp
    refine (hi.parado (hfilho np hnp)).resolve_left fun hnovo ↦ ?_
    have hle := (hi.criados.iff np hnp).mp hnovo
    rcases hpc with hpc | hpc <;> exact absurd hle (by rw [hpc]; exact not_le.mpr hnp)
  have hsaiu_fim : ∀ np, s.filho np = .saiu → f = .fim := by
    intro np hsaiu
    have hquieto := hi.circula.quieto np (hi.circula.dono_ne (Or.inr (Or.inl hsaiu)))
    rwa [hsaiu] at hquieto
  have hposse := hi.circula.posse
  cases f with
  | nenhuma =>
    obtain hsaiu | ⟨hle, -⟩ := hparado 0 hNP
    · cases hsaiu_fim 0 hsaiu
    · have hquieto := hi.circula.quieto 0 nofun
      rw [hle] at hquieto
      exact hquieto rfl rfl
  | impressa k =>
    have h := hparado ((k - 1) % NP) (Nat.mod_lt _ hNP)
    simp [hposse.1] at h
  | recebida k | somada k =>
    have h := hparado (k % NP) (Nat.mod_lt _ hNP)
    simp [hposse.1] at h
  | enviada k =>
    obtain hsaiu | ⟨-, hvazia, -⟩ := hparado (k % NP) (Nat.mod_lt _ hNP)
    · cases hsaiu_fim _ hsaiu
    · have hk : k - 1 + 1 = k := Nat.sub_add_cancel hi.circula.valida.1
      have hant : anterior NP (k % NP) = (k - 1) % NP := by
        have h := anterior_succ hNP (k - 1)
        rwa [hk] at h
      rw [hi.circula.fila, Ficha.conteudo, if_pos hant] at hvazia
      cases hvazia
  | fim =>
    have hprimeiro : s.filho (limite VAL % NP) = .saiu := by
      refine (hparado _ (Nat.mod_lt _ hNP)).resolve_right fun h ↦ ?_
      simp only [Posse, h.1] at hposse
      exact hposse
    have hfora : s.pai = .saiu := by
      refine hpc.resolve_left fun hesp ↦ ?_
      rw [Estado.avancaPai, hesp] at hpai
      simp only [ite_eq_right_iff, reduceCtorEq, imp_false, List.any_eq_true, List.mem_range]
        at hpai
      exact hpai ⟨limite VAL % NP, Nat.mod_lt _ hNP, by simp [hprimeiro]⟩
    have htodos : ∀ m, s.filho ((limite VAL + m) % NP) = .saiu := by
      intro m
      induction m with
      | zero => exact hprimeiro
      | succ m ih =>
        refine hi.eof hfora (fun np hnp ↦ (hparado np hnp).imp_right fun h ↦ ⟨h.1, h.2.2⟩)
          (Nat.mod_lt _ hNP) ?_
        rwa [← Nat.add_assoc, anterior_succ hNP]
    obtain hvivo | ⟨np, hnp, hvivo⟩ := hvivo
    · exact hvivo hfora
    · -- every child is some steps after the first one to end
      have hm : (limite VAL + (np + NP * limite VAL - limite VAL)) % NP = np := by
        have hle : limite VAL ≤ NP * limite VAL := Nat.le_mul_of_pos_left _ hNP
        have heq : limite VAL + (np + NP * limite VAL - limite VAL) = np + NP * limite VAL := by
          omega
        rw [heq, Nat.add_mul_mod_self_left, Nat.mod_eq_of_lt hnp]
      exact hvivo (hm ▸ htodos _)

end Invariante

/-! ## Runs -/

structure Correto (NP : ℕ) (VAL : Int32) (s : Estado) : Prop where
  /-- At most one value is in flight. -/
  emTransito : (∀ j, s.fila j = []) ∨
    ∃ j v, s.fila j = bytes v ∧ ∀ i, i ≠ j → s.fila i = []
  /-- The values printed so far are `1`, …, `k`, each by its child. -/
  saida : ∃ k ≤ limite VAL, s.saida = impressos NP k
  progresso : Vivo NP s → ∃ p s', Passo NP VAL s p s'
  fim : ¬Vivo NP s → s.saida = impressos NP (limite VAL)

theorem Invariante.correto {s : Estado} {f : Ficha} (hNP : 0 < NP)
    (hi : Invariante NP VAL s f) : Correto NP VAL s where
  emTransito := by
    have hfila := hi.circula.fila
    cases f with
    | nenhuma | impressa _ | recebida _ | somada _ | fim => exact Or.inl hfila
    | enviada k =>
      refine Or.inr ⟨(k - 1) % NP, .ofNat k, ?_, fun i hne ↦ ?_⟩
      · rw [hfila, Ficha.conteudo, if_pos rfl]
      · rw [hfila, Ficha.conteudo, if_neg hne]
  saida := by
    refine ⟨f.valor (limite VAL), ?_, hi.circula.saida⟩
    have hvalida := hi.circula.valida
    cases f with
    | nenhuma => exact Nat.zero_le _
    | impressa k | enviada k | recebida k => exact hvalida.2
    | somada k => exact hvalida.2.le
    | fim => exact le_rfl
  progresso := hi.exists_passo hNP
  fim hmortos := by
    have hsaiu : s.filho 0 = .saiu := by
      by_contra hne
      exact hmortos (Or.inr ⟨0, hNP, hne⟩)
    have hquieto := hi.circula.quieto 0 (hi.circula.dono_ne (Or.inr (Or.inl hsaiu)))
    rw [hsaiu] at hquieto
    rw [hi.circula.saida, show f = .fim from hquieto]
    rfl

/-- How many steps a run can have. -/
def duracao (NP : ℕ) (VAL : Int32) : ℕ := NP + 3 + NP * (2 * NP + 8) + 5 * limite VAL

theorem posto_inicial (val : Int32) : posto NP VAL (inicial val) = duracao NP VAL := by
  simp [posto, inicial, duracao, PcPai.posto, PcFilho.posto]

/-- **The ring.** Every state of every run is correct, and no run goes on for ever: together with
progress, all processes end. -/
theorem anel (hNP : 2 ≤ NP) (hVAL : 1 ≤ VAL) {val : Int32} {hist : List (Estado × Processo)}
    {s : Estado} (t : Trace (Passo NP VAL) (inicial val) hist s) :
    Correto NP VAL s ∧ hist.length ≤ duracao NP VAL := by
  have hpos : 0 < NP := by omega
  suffices h : (∃ f, Invariante NP VAL s f) ∧ hist.length + posto NP VAL s ≤ duracao NP VAL by
    obtain ⟨⟨f, hi⟩, hlen⟩ := h
    exact ⟨hi.correto hpos, by omega⟩
  induction t with
  | nil =>
    refine ⟨⟨.nenhuma, .inicial hpos val⟩, ?_⟩
    rw [posto_inicial, List.length_nil, Nat.zero_add]
  | snoc _ hs ih =>
    obtain ⟨⟨f, hi⟩, hlen⟩ := ih
    obtain ⟨f', hi', hlt⟩ := hi.passo hpos hVAL hs
    refine ⟨⟨f', hi'⟩, ?_⟩
    rw [List.length_append, List.length_singleton]
    omega

/-- Two children and the bound `3`, up to the end of all processes. -/
def ateTres : List Processo :=
  [List.replicate 3 .pai, List.replicate 7 (.filho 0), List.replicate 9 (.filho 1),
    List.replicate 4 (.filho 0), List.replicate 5 (.filho 1), List.replicate 2 .pai,
    List.replicate 4 (.filho 0)].flatten

theorem anel_ateTres : ∃ hist s, Trace (Passo 2 3) (inicial 0) hist s ∧
    hist.map Prod.snd = ateTres ∧ s.saida = [(1, 1), (2, 2), (1, 3)] ∧ Correto 2 3 s ∧
    hist.length ≤ duracao 2 3 := by
  have hrun : (execute (Estado.executa 2 3) (inicial 0) ateTres).map Estado.saida =
      some [(1, 1), (2, 2), (1, 3)] := by
    decide +kernel
  obtain ⟨hist, s, t, hlab, hsaida⟩ : ∃ hist s, Trace (Passo 2 3) _ hist s ∧ _ :=
    exists_trace_of_execute_map (fun _ _ _ ↦ id) hrun
  exact ⟨hist, s, t, hlab, hsaida, anel (by decide) (by decide) t⟩

end SistemasOperacionais.ProcessoNPipe
