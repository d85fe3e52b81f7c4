import SistemasOperacionais.Xv6.Bio.Effects
import SistemasOperacionais.Xv6.Log.Header

/-!
# Transactions over the buffer cache

`log.c` as the processes of the kernel run it: `begin_op`, `log_write` and `end_op` of any number of
processes, and `commit`, which the last of them to leave executes. All of it works on the buffer
cache through `bread`, `bwrite` and `brelse`, one call at a time.

`log_write` tests the number of logged blocks before it acquires `log.lock`, so the test and the
rest are two steps.
-/

namespace SistemasOperacionais.Xv6.Transaction

open Foundations Function Log

def maxopblocks : ℕ := 10

/-- Where the log lies: `LOGSIZE` blocks of a real device, as `mkfs` makes it. -/
structure Area where
  dev : UInt32
  start : UInt32
  real : dev < 2
  fits : start.toNat + logsize ≤ Bio.fssize.toNat

namespace Area

/-- The block `log.start+tail+1`. -/
def place (g : Area) (tail : ℕ) : UInt32 := g.start + .ofNat (tail + 1)

/-- The header block and the log blocks. -/
def InLog (g : Area) (k : UInt32) : Prop :=
  g.start.toNat ≤ k.toNat ∧ k.toNat < g.start.toNat + logsize

instance (g : Area) (k : UInt32) : Decidable (g.InLog k) := inferInstanceAs (Decidable (_ ∧ _))

end Area

open Bio (nbuf)

/-- Inside an iteration of `write_log` or of `install_trans`. -/
inductive Copy
  /-- the test of the loop -/
  | loop
  /-- `bread` of the log block has been called -/
  | log
  /-- `bread` of the home block has been called; `l` is the log block -/
  | home (l : Fin nbuf)
  /-- after the `memmove` -/
  | moved (l d : Fin nbuf)
  /-- `bwrite` has been called -/
  | written (l d : Fin nbuf)
  /-- before the second `brelse` -/
  | released (b : Fin nbuf)

/-- Inside `write_head`. -/
inductive Head
  | call
  | read
  | moved (h : Fin nbuf)
  | written (h : Fin nbuf)

/-- Inside `commit`. -/
inductive Commit
  /-- `write_log`, or `install_trans` -/
  | copy (install : Bool) (tail : ℕ) (c : Copy)
  /-- the first `write_head`, or the one after `log.lh.n = 0` -/
  | head (clear : Bool) (h : Head)
  | done

/-- Where a process is with its transaction. -/
inductive Op
  | out
  /-- between `begin_op` and `end_op` -/
  | inside
  /-- in `log_write`, after the tests -/
  | logging (b : Fin nbuf)
deriving DecidableEq

variable {ι : Type*}

structure State (ι : Type*) where
  bio : Bio.State ι
  outstanding : ℕ
  lh : List UInt32
  op : ι → Op
  /-- Who is in `commit`, and where; `log.committing` is set as long as somebody is. -/
  commit : Option (ι × Commit)
  /-- The contents that a block had in its last `log_write`. -/
  new : UInt32 → Block

def initial (ι : Type*) (disk : UInt32 → UInt32 → Block) : State ι where
  bio := Bio.initial ι disk
  outstanding := 0
  lh := []
  op _ := .out
  commit := none
  new _ _ := 0

namespace State

/-- The process runs its own code. -/
def Own (s : State ι) (p : ι) : Prop := s.bio.pc p = .out ∧ s.commit.map Prod.fst ≠ some p

variable [DecidableEq ι]

instance (s : State ι) (p : ι) : Decidable (s.Own p) := inferInstanceAs (Decidable (_ ∧ _))

def panic (s : State ι) : State ι := { s with bio := s.bio.panic }

/-- The tests of `log_write`. -/
def logWrite (s : State ι) (p : ι) (b : Fin nbuf) : State ι :=
  if logsize ≤ s.lh.length ∨ logsize - 1 ≤ s.lh.length then s.panic
  else if s.outstanding < 1 then s.panic
  else { s with op := update s.op p (.logging b) }

/-- `log_write` under `log.lock`, apart from `b->flags |= B_DIRTY`. -/
def record (s : State ι) (p : ι) (b : Fin nbuf) : State ι :=
  let x := s.bio.buf b
  { s with
    lh := absorb s.lh x.blockno
    op := update s.op p .inside
    new := update s.new x.blockno x.data }

/-- `begin_op`; `none` while it has to wait. -/
def beginOp (s : State ι) (p : ι) : Option (State ι) :=
  if s.commit.isSome then none
  else if logsize < s.lh.length + (s.outstanding + 1) * maxopblocks then none
  else some { s with outstanding := s.outstanding + 1, op := update s.op p .inside }

/-- `end_op`, with the test at the start of `commit`. -/
def endOp (s : State ι) (p : ι) : State ι :=
  let s' := { s with outstanding := s.outstanding - 1, op := update s.op p .out }
  if s.commit.isSome then s.panic
  else if s'.outstanding = 0 then
    { s' with commit := some (p, if 0 < s.lh.length then .copy false 0 .loop else .done) }
  else s'

/-- The next call of `commit` into the buffer cache, and where it goes on. -/
def call (g : Area) (s : State ι) (p : ι) : Commit → Option (Bio.Label ι × Commit)
  | .copy i tail .loop =>
    if tail < s.lh.length then some (.bread p g.dev (g.place tail), .copy i tail .log) else none
  | .copy i tail .log =>
    match s.bio.ret p, s.lh[tail]? with
    | some l, some k => some (.bread p g.dev k, .copy i tail (.home l))
    | _, _ => none
  | .copy i tail (.home l) =>
    match s.bio.ret p with
    | some d =>
      some (if i then .modify p d (s.bio.buf l).data else .modify p l (s.bio.buf d).data,
        .copy i tail (.moved l d))
    | none => none
  | .copy i tail (.moved l d) => some (.bwrite p (if i then d else l), .copy i tail (.written l d))
  | .copy i tail (.written l d) =>
    some (.brelse p (if i then l else d), .copy i tail (.released (if i then d else l)))
  | .copy i tail (.released b) => some (.brelse p b, .copy i (tail + 1) .loop)
  | .head c .call => some (.bread p g.dev g.start, .head c .read)
  | .head c .read =>
    match s.bio.ret p with
    | some h => some (.modify p h (writeHead s.lh (s.bio.buf h).data), .head c (.moved h))
    | none => none
  | .head c (.moved h) => some (.bwrite p h, .head c (.written h))
  | .head c (.written h) => some (.brelse p h, if c then .done else .copy true 0 .loop)
  | .done => none

end State

inductive Label (ι : Type*)
  | beginOp (p : ι)
  | endOp (p : ι)
  | bread (p : ι) (dev blockno : UInt32)
  | modify (p : ι) (b : Fin nbuf) (d : Block)
  | logWrite (p : ι) (b : Fin nbuf)
  | brelse (p : ι) (b : Fin nbuf)
  /-- the process goes on inside `bio.c` -/
  | run (p : ι)
  /-- the process goes on inside `log.c` -/
  | go (p : ι)
  | ideintr

namespace State

variable [DecidableEq ι] (g : Area) (havedisk1 : Bool)

/-- The buffer may be changed in a transaction. -/
def Home (s : State ι) (b : Fin nbuf) : Prop :=
  (s.bio.buf b).dev = g.dev ∧ ¬g.InLog (s.bio.buf b).blockno

instance (s : State ι) (b : Fin nbuf) : Decidable (s.Home g b) :=
  inferInstanceAs (Decidable (_ ∧ _))

/-- A call into the buffer cache. -/
def bioStep (s : State ι) (a : Bio.Label ι) : Option (State ι) :=
  (s.bio.exec havedisk1 a).map fun bio ↦ { s with bio := bio }

def advance (s : State ι) (p : ι) (c : Commit) : Option (State ι) :=
  match s.call g p c, c with
  | some (a, c'), _ => ({ s with commit := some (p, c') }).bioStep havedisk1 a
  -- the ends of the loops
  | none, .copy false _ .loop => some { s with commit := some (p, .head false .call) }
  | none, .copy true _ .loop => some { s with lh := [], commit := some (p, .head true .call) }
  | none, .done => some { s with commit := none }
  | none, _ => none

/-- The next step of a process inside `log.c`. -/
def go (s : State ι) (p : ι) : Option (State ι) :=
  match s.op p, s.commit with
  | .logging b, _ => (s.record p b).bioStep havedisk1 (.logWrite p b)
  | _, some (q, c) => if q = p then s.advance g havedisk1 p c else none
  | _, none => none

/-- A step of the system. A process changes a buffer only inside a transaction, and calls
`log_write` for it there. -/
def exec (s : State ι) (a : Label ι) : Option (State ι) :=
  if s.bio.panicked then none
  else match a with
    | .beginOp p => if s.Own p ∧ s.op p = .out then s.beginOp p else none
    | .endOp p => if s.Own p ∧ s.op p = .inside then some (s.endOp p) else none
    | .bread p dev blockno =>
      if s.Own p ∧ (s.op p = .out ∨ s.op p = .inside) then
        s.bioStep havedisk1 (.bread p dev blockno)
      else none
    | .modify p b d =>
      if s.Own p ∧ s.op p = .inside ∧ s.Home g b then s.bioStep havedisk1 (.modify p b d) else none
    | .logWrite p b =>
      if s.Own p ∧ s.op p = .inside ∧ s.Home g b ∧ s.bio.held p b then some (s.logWrite p b)
      else none
    | .brelse p b =>
      if s.Own p ∧ (s.op p = .out ∨ s.op p = .inside) then s.bioStep havedisk1 (.brelse p b)
      else none
    | .run p => s.bioStep havedisk1 (.run p)
    | .go p => if s.bio.pc p = .out then s.go g havedisk1 p else none
    | .ideintr => s.bioStep havedisk1 .ideintr

end State

def Step [DecidableEq ι] (g : Area) (havedisk1 : Bool) (s : State ι) (a : Label ι) (s' : State ι) :
    Prop := s.exec g havedisk1 a = some s'

end SistemasOperacionais.Xv6.Transaction
