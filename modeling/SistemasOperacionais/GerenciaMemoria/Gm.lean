import SistemasOperacionais.Foundations.Trace

/-!
# The free-list allocators `gmsimples.c` and `gm (falta next).c`

Both programs manage an arena of `tamMemoria` bytes with a singly linked list of free blocks, each
block preceded by a `struct header`. They share `inicializa_mem`, `merge`, `meu_libera` and the
code that carves a block out of a hole; they differ in how `meu_aloca` picks the hole.

## What is modelled

Addresses are byte addresses and `NULL` is `0`. Pointer arithmetic on `struct header *` is scaled by
`sizeof(struct header)`, exactly as C scales it, while `void *` arithmetic is not: this is why
`somaPtr` and a plain `+` both occur below. Every header the code touches sits at a multiple of
`sizeof(struct header)` from `endBaseMemoria`, so two headers never overlap partially and the memory
is a map from addresses to header records.

Reading or writing a field through `NULL` is a fault. A loop over the list takes fuel; running out
of it is a separate outcome, so that termination is a statement about the model and not built into
it. A `meu_aloca` that reaches the end of its body without a `return` yields `none`.

Requests are natural numbers, since every property is about `t >= 0`. The `int` fields never leave
the range `0 .. tamMemoria` then, and the comparisons the C code makes in `size_t` are the plain
ones.

The casts to `int` in `meu_aloca`, whose result is `(int)atual + sizeof(struct header)`, and in
`meu_libera`, which compares `(int)endHeader` with `(int)listaLivres`, are left out: the arena is
taken to lie where all addresses of blocks fit an `int`, as they do in a program that is not
position independent.
-/

namespace SistemasOperacionais.Gm

/-- `sizeof(struct header)`: an `int`, its padding and a pointer on x86-64, the `16 bytes de
header` of the recorded run in `gmdebug.txt`. -/
def sizeofHeader : ℕ := 16

/-- The global `tamMemoria`, the number of bytes asked of `malloc`. -/
def tamMemoria : ℕ := 10240

@[simp] theorem sizeofHeader_eq : sizeofHeader = 16 := rfl

@[simp] theorem tamMemoria_eq : tamMemoria = 10240 := rfl

structure Header where
  tam : ℕ
  prox : ℕ
  deriving DecidableEq, Repr

/-- How a call can fail to return. -/
inductive Falha
  /-- A field was accessed through `NULL`. -/
  | nulo
  /-- The fuel of a loop ran out. -/
  | combustivel
  deriving DecidableEq, Repr

/-- The globals and the memory behind them. `escritas` is ghost state: the addresses of the headers
written so far, most recent first. -/
structure Estado where
  header : ℕ → Header
  listaLivres : ℕ
  endBaseMemoria : ℕ
  escritas : List ℕ

namespace Estado

def tam (s : Estado) (p : ℕ) : ℕ := (s.header p).tam

def prox (s : Estado) (p : ℕ) : ℕ := (s.header p).prox

def setTam (s : Estado) (p v : ℕ) : Estado :=
  { s with
    header := fun q ↦ if q = p then { s.header p with tam := v } else s.header q
    escritas := p :: s.escritas }

def setProx (s : Estado) (p v : ℕ) : Estado :=
  { s with
    header := fun q ↦ if q = p then { s.header p with prox := v } else s.header q
    escritas := p :: s.escritas }

/-- The expression `p->tam`. -/
def lerTam (s : Estado) (p : ℕ) : Except Falha ℕ :=
  if p = 0 then .error .nulo else .ok (s.tam p)

/-- The expression `p->prox`. -/
def lerProx (s : Estado) (p : ℕ) : Except Falha ℕ :=
  if p = 0 then .error .nulo else .ok (s.prox p)

/-- The statement `p->tam = v`. -/
def escreveTam (s : Estado) (p v : ℕ) : Except Falha Estado :=
  if p = 0 then .error .nulo else .ok (s.setTam p v)

/-- The statement `p->prox = v`. -/
def escreveProx (s : Estado) (p v : ℕ) : Except Falha Estado :=
  if p = 0 then .error .nulo else .ok (s.setProx p v)

end Estado

/-- `p + n` on a `struct header *`. -/
def somaPtr (p n : ℕ) : ℕ := p + n * sizeofHeader

/-- `p - q` on two `struct header *`. -/
def difPtr (p q : ℕ) : ℤ := ((p : ℤ) - q) / sizeofHeader

/-- `inicializa_mem`, with `endBase` the address that `malloc(tamMemoria)` returned and `lixo` what
the memory held before. -/
def inicializaMem (lixo : ℕ → Header) (endBase : ℕ) : Estado :=
  let s : Estado := ⟨lixo, endBase, endBase, []⟩
  (s.setTam endBase (tamMemoria - sizeofHeader)).setProx endBase 0

/-! ## Choosing a hole -/

/-- The search loop of `meu_aloca` in `gmsimples.c`: `anterior` and `atual` where it stops, with
`atual = NULL` when no hole is large enough. -/
def procura (s : Estado) (tam : ℕ) : ℕ → ℕ → ℕ → Except Falha (ℕ × ℕ)
  | 0, _, _ => .error .combustivel
  | n + 1, anterior, atual =>
    if atual = 0 then .ok (anterior, atual)
    else do
      let t ← s.lerTam atual
      if t < tam + sizeofHeader then procura s tam n atual (← s.lerProx atual)
      else .ok (anterior, atual)

/-- The loop of `worstFit`. The out-parameters `*ant` and `*at` are updated through their aliases
`anteriorMaior` and `maior`. -/
def worstFitLoop (s : Estado) (tam : ℕ) :
    ℕ → ℕ → ℕ → ℤ → ℕ → ℕ → Except Falha (ℕ × ℕ × ℤ)
  | 0, _, _, _, _, _ => .error .combustivel
  | n + 1, anteriorMaior, maior, maiorTam, anterior, atual =>
    if atual = 0 then .ok (anteriorMaior, maior, maiorTam)
    else do
      let t ← s.lerTam atual
      if t < tam + sizeofHeader then
        worstFitLoop s tam n anteriorMaior maior maiorTam atual (← s.lerProx atual)
      else if (t : ℤ) > maiorTam then
        worstFitLoop s tam n anterior atual t atual (← s.lerProx atual)
      else
        worstFitLoop s tam n anteriorMaior maior maiorTam atual (← s.lerProx atual)

/-- `worstFit(&ant, &at, tam)`: the new values of `*ant` and `*at`. -/
def worstFit (n : ℕ) (s : Estado) (ant alvo tam : ℕ) : Except Falha (ℕ × ℕ) := do
  let (anteriorMaior, maior, maiorTam) ← worstFitLoop s tam n ant alvo (-1) ant alvo
  if maiorTam ≠ -1 then return (anteriorMaior, maior) else return (0, 0)

/-- The loop of `bestFit`, with the same aliasing as `worstFitLoop`. -/
def bestFitLoop (s : Estado) (tam : ℕ) :
    ℕ → ℕ → ℕ → Bool → ℕ → ℕ → Except Falha (ℕ × ℕ × Bool)
  | 0, _, _, _, _, _ => .error .combustivel
  | n + 1, anteriorMelhor, melhor, found, anterior, atual =>
    if atual = 0 then .ok (anteriorMelhor, melhor, found)
    else do
      let t ← s.lerTam atual
      if t < tam + sizeofHeader then
        bestFitLoop s tam n anteriorMelhor melhor found atual (← s.lerProx atual)
      else
        -- `*melhor` is dereferenced only on the right of `||`
        let troca ← if !found then .ok true else do
          let m ← s.lerTam melhor
          .ok (decide ((m : ℤ) - tam > (t : ℤ) - tam))
        if troca then bestFitLoop s tam n anterior atual true atual (← s.lerProx atual)
        else bestFitLoop s tam n anteriorMelhor melhor found atual (← s.lerProx atual)

/-- `bestFit(&ant, &at, tam)`: the new values of `*ant` and `*at`. -/
def bestFit (n : ℕ) (s : Estado) (ant alvo tam : ℕ) : Except Falha (ℕ × ℕ) := do
  let (anteriorMelhor, melhor, found) ← bestFitLoop s tam n ant alvo false ant alvo
  if found then return (anteriorMelhor, melhor) else return (0, 0)

/-- The programs: `gmsimples.c`, and `gm (falta next).c` with the call of `bestFit` or of `worstFit`
left uncommented in `meu_aloca`. -/
inductive Programa
  | gmsimples
  | bestFit
  | worstFit
  deriving DecidableEq, Repr

/-- How each program picks `anterior` and `atual`, starting from `listaLivres`. -/
def escolhe (prog : Programa) (n : ℕ) (s : Estado) (tam : ℕ) : Except Falha (ℕ × ℕ) :=
  match prog with
  | .gmsimples => procura s tam n s.listaLivres s.listaLivres
  | .bestFit => bestFit n s s.listaLivres s.listaLivres tam
  | .worstFit => worstFit n s s.listaLivres s.listaLivres tam

/-! ## Allocating and freeing -/

/-- The perfect-fit branch of `meu_aloca`. -/
def encaixe (s : Estado) (anterior atual : ℕ) : Except Falha Estado := do
  let s ← s.escreveProx anterior (← s.lerProx atual)
  s.escreveProx atual 0

/-- The splitting branch of `meu_aloca`. -/
def divide (s : Estado) (anterior atual tam : ℕ) : Except Falha Estado := do
  let aux ← s.lerProx atual
  let novoBloco := somaPtr atual (tam + sizeofHeader)
  let s ← s.escreveProx anterior novoBloco
  let s ← s.escreveProx novoBloco aux
  let s ← s.escreveTam novoBloco ((← s.lerTam atual) - sizeofHeader - tam)
  s.escreveTam atual tam

/-- What `meu_aloca` does once a hole is found, the same text in both programs. The result is the
returned pointer, just past the header. -/
def ocupa (s : Estado) (anterior atual tam : ℕ) : Except Falha (ℕ × Estado) := do
  let t ← s.lerTam atual
  let s ← if t = sizeofHeader + tam then encaixe s anterior atual else divide s anterior atual tam
  let s ← if atual = s.listaLivres then do
      let p ← s.lerProx atual
      .ok { s with listaLivres := p }
    else .ok s
  let s ← s.escreveProx atual 0
  return (atual + sizeofHeader, s)

def meuAloca (prog : Programa) (n : ℕ) (s : Estado) (tam : ℕ) :
    Except Falha (Option ℕ × Estado) := do
  let (anterior, atual) ← escolhe prog n s tam
  if atual = 0 then return (none, s)
  else
    let (p, s) ← ocupa s anterior atual tam
    return (some p, s)

/-- `merge`: joins two free blocks when the second starts where the first ends. -/
def merge (s : Estado) (anterior posterior : ℕ) : Except Falha (Bool × Estado) := do
  let t ← s.lerTam anterior
  if difPtr posterior anterior - t - sizeofHeader = 0 then
    let s ← s.escreveProx anterior (← s.lerProx posterior)
    let s ← s.escreveTam anterior (sizeofHeader + (← s.lerTam anterior) + (← s.lerTam posterior))
    return (true, s)
  else return (false, s)

/-- The insertion scan of `meu_libera`. It stops by address comparison only. -/
def avanca (s : Estado) (endHeader : ℕ) : ℕ → ℕ → ℕ → Except Falha (ℕ × ℕ)
  | 0, _, _ => .error .combustivel
  | n + 1, anterior, atual =>
    if atual < endHeader then do avanca s endHeader n atual (← s.lerProx atual)
    else .ok (anterior, atual)

/-- The body of `meu_libera`, the same text in all the programs. They differ in `merge` and in the
globals they keep: `σ` is all of them, `est` the part modelled by `Estado`, and `com` puts that part
back. -/
def liberaCom {σ : Type} (est : σ → Estado) (com : σ → Estado → σ)
    (merge : σ → ℕ → ℕ → Except Falha (Bool × σ)) (n : ℕ) (x : σ) (ponteiro : ℕ) :
    Except Falha σ := do
  let s := est x
  let endHeader := ponteiro - sizeofHeader
  if endHeader < s.listaLivres then
    let s ← s.escreveProx endHeader s.listaLivres
    let s := { s with listaLivres := endHeader }
    let (_, x) ← merge (com x s) endHeader (← s.lerProx endHeader)
    return x
  else
    let (anterior, atual) ← avanca s endHeader n s.listaLivres s.listaLivres
    let s ← s.escreveProx endHeader (← s.lerProx anterior)
    let s ← s.escreveProx anterior endHeader
    let (juntou, x) ← merge (com x s) anterior endHeader
    let (_, x) ← if juntou then merge x anterior atual else merge x endHeader atual
    return x

/-- `meu_libera` of `gmsimples.c` and of `gm (falta next).c`. -/
def meuLibera (n : ℕ) (s : Estado) (ponteiro : ℕ) : Except Falha Estado :=
  liberaCom id (fun _ s ↦ s) merge n s ponteiro

/-! ## The walk of `mostra_mem` -/

/-- The loop of `mostra_mem`: the blocks visited, each with its `tam`, and the final value of the
counter. Every iteration adds at least `sizeof(struct header)` to the counter, so `tamMemoria`
iterations are always enough. -/
def mostraMemLoop (s : Estado) : ℕ → ℕ → ℕ → List (ℕ × ℕ) × ℕ
  | 0, tam, _ => ([], tam)
  | n + 1, tam, atual =>
    if tam < tamMemoria then
      let r := mostraMemLoop s n (tam + (s.tam atual + sizeofHeader))
        (somaPtr atual (s.tam atual + sizeofHeader))
      ((atual, s.tam atual) :: r.1, r.2)
    else ([], tam)

/-- `mostra_mem`: the blocks it prints, in order, and the value of `tam` when it stops. -/
def mostraMem (s : Estado) : List (ℕ × ℕ) × ℕ := mostraMemLoop s tamMemoria 0 s.endBaseMemoria

/-! ## Runs -/

/-- A call made by the user of the allocator. -/
inductive Op
  | aloca (t : ℕ)
  | libera (p : ℕ)
  deriving DecidableEq, Repr

/-- The allocator together with the live allocations: each pointer returned and not yet freed, with
the length it was requested for. -/
structure Sistema where
  est : Estado
  vivos : List (ℕ × ℕ)

/-- One call that returns. A call that faults has no successor. -/
inductive Passo (prog : Programa) : Sistema → Op → Sistema → Prop
  | aloca {S : Sistema} {t n p : ℕ} {s : Estado} :
      meuAloca prog n S.est t = .ok (some p, s) → Passo prog S (.aloca t) ⟨s, (p, t) :: S.vivos⟩
  | recusa {S : Sistema} {t n : ℕ} {s : Estado} :
      meuAloca prog n S.est t = .ok (none, s) → Passo prog S (.aloca t) ⟨s, S.vivos⟩
  | libera {S : Sistema} {p t n : ℕ} {s : Estado} :
      (p, t) ∈ S.vivos → meuLibera n S.est p = .ok s →
      Passo prog S (.libera p) ⟨s, S.vivos.erase (p, t)⟩

/-- The state after `inicializa_mem`, with nothing allocated. -/
def inicial (lixo : ℕ → Header) (endBase : ℕ) : Sistema := ⟨inicializaMem lixo endBase, []⟩

end SistemasOperacionais.Gm
