import SistemasOperacionais.Foundations.Trace
import SistemasOperacionais.Foundations.LinkedList
import SistemasOperacionais.Xv6.Block

/-!
# The buffer cache

`bio.c` with the disk driver `ide.c` under it, for any number of processes. What is done under
`bcache.lock` or under `idelock` is one step, since nobody else touches the fields in question
meanwhile; everything else can be interleaved, in particular a process that sleeps in `bget` looks
for its block again from the start when it is woken.

The disk is taken to work: `idewait(1)` reports no error in `ideintr`, which would skip `insl` then
and set `B_VALID` all the same.

`bget` walks the list of buffers along its links. A walk is given as many links as there are
buffers; that it needs no more is proved with the other invariants.
-/

namespace SistemasOperacionais.Xv6.Bio

open Foundations Function

def nbuf : ℕ := 30

def fssize : UInt32 := 1000

structure Buf where
  busy : Bool
  valid : Bool
  dirty : Bool
  dev : UInt32
  blockno : UInt32
  data : Block

/-- A pointer of the list; `none` is `&bcache.head`. -/
abbrev Ptr := Option (Fin nbuf)

/-- Who has called `iderw`. -/
inductive Caller
  | bread (dev blockno : UInt32)
  | bwrite
deriving DecidableEq

/-- Where a process is. -/
inductive Pc
  /-- outside of `bio.c` -/
  | out
  /-- at the label `loop` of `bget` -/
  | bget (dev blockno : UInt32)
  /-- asleep in `bget` -/
  | asleep (b : Fin nbuf) (dev blockno : UInt32)
  /-- `bget` has returned `b` to `bread` -/
  | bread (dev blockno : UInt32) (b : Fin nbuf)
  /-- at the start of `iderw` -/
  | iderw (b : Fin nbuf) (c : Caller)
  /-- asleep in `iderw` -/
  | waiting (b : Fin nbuf) (c : Caller)
  /-- woken in `iderw`, before the test of the flags -/
  | awake (b : Fin nbuf) (c : Caller)
deriving DecidableEq

/-- A process that sleeps on `b` will run again, in `bget` as in `iderw`. -/
def Pc.wake (b : Fin nbuf) : Pc → Pc
  | .asleep b' dev blockno => if b' = b then .bget dev blockno else .asleep b' dev blockno
  | .waiting b' c => if b' = b then .awake b' c else .waiting b' c
  | c => c

variable {ι : Type*}

structure State (ι : Type*) where
  buf : Fin nbuf → Buf
  next : Ptr → Ptr
  prev : Ptr → Ptr
  idequeue : List (Fin nbuf)
  /-- The two disks. -/
  disk : UInt32 → UInt32 → Block
  pc : ι → Pc
  /-- What the last `bread` of a process has returned. -/
  ret : ι → Ptr
  /-- The buffers that `bread` has returned to a process and that it has not released. -/
  held : ι → Fin nbuf → Bool
  /-- The holder has changed the data and has called neither `log_write` nor `bwrite` since. -/
  modified : Fin nbuf → Bool
  /-- The contents passed to the last `log_write` or `bwrite` of a block. -/
  last : UInt32 → UInt32 → Block
  panicked : Bool

/-! ## The list of buffers -/

/-- The links of `bcache.head` and of the buffers. -/
structure Links where
  next : Ptr → Ptr
  prev : Ptr → Ptr

namespace Links

/-- `b->next = bcache.head.next; b->prev = &bcache.head; bcache.head.next->prev = b;
bcache.head.next = b;` -/
def pushFront (k : Links) (b : Fin nbuf) : Links :=
  let next := update k.next (some b) (k.next none)
  let prev := update k.prev (some b) none
  let prev := update prev (next none) (some b)
  ⟨update next none (some b), prev⟩

/-- `b->next->prev = b->prev; b->prev->next = b->next;` -/
def unlink (k : Links) (b : Fin nbuf) : Links :=
  let prev := update k.prev (k.next (some b)) (k.prev (some b))
  ⟨update k.next (prev (some b)) (k.next (some b)), prev⟩

end Links

def binit : Links :=
  (List.finRange nbuf).foldl Links.pushFront ⟨fun _ ↦ none, fun _ ↦ none⟩

/-- The first buffer from `q` along the links that passes the test; `some none` when the walk is
back at `&bcache.head`, and `none` when it takes more than `n` links. -/
def walk (link : Ptr → Ptr) (test : Fin nbuf → Bool) : ℕ → Ptr → Option Ptr
  | _, none => some none
  | 0, some _ => none
  | n + 1, some b => if test b then some (some b) else walk link test n (link (some b))

def initial (ι : Type*) (disk : UInt32 → UInt32 → Block) : State ι where
  buf _ := ⟨false, false, false, -1, 0, fun _ ↦ 0⟩
  next := binit.next
  prev := binit.prev
  idequeue := []
  disk := disk
  pc _ := .out
  ret _ := none
  held _ _ := false
  modified _ := false
  last := disk
  panicked := false

/-! ## The functions -/

namespace State

variable [DecidableEq ι]

def panic (s : State ι) : State ι := { s with panicked := true }

def goto (s : State ι) (p : ι) (c : Pc) : State ι := { s with pc := update s.pc p c }

def setBuf (s : State ι) (b : Fin nbuf) (x : Buf) : State ι := { s with buf := update s.buf b x }

def wakeup (s : State ι) (b : Fin nbuf) : State ι := { s with pc := fun p ↦ (s.pc p).wake b }

/-- One round of `bget`. -/
def bget (s : State ι) (p : ι) (dev blockno : UInt32) : Option (State ι) :=
  -- Is the block already cached?
  match walk s.next (fun b ↦ (s.buf b).dev = dev ∧ (s.buf b).blockno = blockno) nbuf
    (s.next none) with
  | none => none
  | some (some b) => some <|
    if (s.buf b).busy then s.goto p (.asleep b dev blockno)
    else (s.setBuf b { s.buf b with busy := true }).goto p (.bread dev blockno b)
  | some none =>
    -- Not cached; recycle some non-busy and clean buffer.
    match walk s.prev (fun b ↦ (s.buf b).busy = false ∧ (s.buf b).dirty = false) nbuf
      (s.prev none) with
    | none => none
    | some none => some s.panic
    | some (some b) => some <|
      (s.setBuf b ⟨true, false, false, dev, blockno, (s.buf b).data⟩).goto p (.bread dev blockno b)

def breadReturn (s : State ι) (p : ι) (b : Fin nbuf) : State ι :=
  { s.goto p .out with
    ret := update s.ret p (some b)
    held := update s.held p (update (s.held p) b true) }

/-- `bread` after its `bget`. -/
def bread (s : State ι) (p : ι) (dev blockno : UInt32) (b : Fin nbuf) : State ι :=
  if (s.buf b).valid then s.breadReturn p b else s.goto p (.iderw b (.bread dev blockno))

/-- `idestart`; `none` is a panic. -/
def idestart (s : State ι) (b : Fin nbuf) : Option (State ι) :=
  let x := s.buf b
  if fssize ≤ x.blockno then none
  else some <|
    if x.dirty then
      let disk := s.disk (x.dev &&& 1)
      { s with disk := update s.disk (x.dev &&& 1) (update disk x.blockno x.data) }
    else s

/-- The loop at the end of `iderw`. -/
def idewait (s : State ι) (p : ι) (b : Fin nbuf) (c : Caller) : State ι :=
  if (s.buf b).valid ∧ (s.buf b).dirty = false then
    match c with
    | .bread _ _ => s.breadReturn p b
    | .bwrite => s.goto p .out
  else s.goto p (.waiting b c)

def enqueue (s : State ι) (b : Fin nbuf) : State ι := { s with idequeue := s.idequeue ++ [b] }

def iderw (havedisk1 : Bool) (s : State ι) (p : ι) (b : Fin nbuf) (c : Caller) : State ι :=
  let x := s.buf b
  if x.busy = false ∨ (x.valid ∧ x.dirty = false) ∨ (x.dev ≠ 0 ∧ havedisk1 = false) then s.panic
  else if s.idequeue = [] then
    ((s.enqueue b).idestart b).elim s.panic fun s' ↦ s'.idewait p b c
  else (s.enqueue b).idewait p b c

/-- `ideintr` for the request `b`, up to its wake-up: read data if needed, and set the flags. -/
def finish (s : State ι) (b : Fin nbuf) (q : List (Fin nbuf)) : State ι :=
  let x := s.buf b
  let data := if x.dirty then x.data else s.disk (x.dev &&& 1) x.blockno
  let s' := { s with idequeue := q }
  (s'.setBuf b { x with data := data, valid := true, dirty := false }).wakeup b

def ideintr (s : State ι) : State ι :=
  match s.idequeue with
  | [] => s
  | [b] => s.finish b []
  -- Start disk on next buf in queue.
  | b :: c :: q => ((s.finish b (c :: q)).idestart c).getD s.panic

/-- `b->flags |= B_DIRTY`, in `log_write` and in `bwrite`. -/
def setDirty (s : State ι) (b : Fin nbuf) : State ι :=
  let x := s.buf b
  { s.setBuf b { x with dirty := true } with
    modified := update s.modified b false
    last := update s.last x.dev (update (s.last x.dev) x.blockno x.data) }

def bwrite (s : State ι) (p : ι) (b : Fin nbuf) : State ι :=
  if (s.buf b).busy = false then s.panic else (s.setDirty b).goto p (.iderw b .bwrite)

def brelse (s : State ι) (p : ι) (b : Fin nbuf) : State ι :=
  if (s.buf b).busy = false then s.panic
  else
    let k := (Links.unlink ⟨s.next, s.prev⟩ b).pushFront b
    { (s.setBuf b { s.buf b with busy := false }).wakeup b with
      next := k.next
      prev := k.prev
      held := update s.held p (update (s.held p) b false) }

/-- The holder changes the data. -/
def modify (s : State ι) (b : Fin nbuf) (d : Block) : State ι :=
  { s.setBuf b { s.buf b with data := d } with modified := update s.modified b true }

/-- The next step of a process inside `bio.c` or `ide.c`. -/
def run (havedisk1 : Bool) (s : State ι) (p : ι) : Option (State ι) :=
  match s.pc p with
  | .out | .asleep _ _ _ | .waiting _ _ => none
  | .bget dev blockno => s.bget p dev blockno
  | .bread dev blockno b => some (s.bread p dev blockno b)
  | .iderw b c => some (s.iderw havedisk1 p b c)
  | .awake b c => some (s.idewait p b c)

end State

inductive Label (ι : Type*)
  /-- the process calls a function, on a buffer that it holds -/
  | bread (p : ι) (dev blockno : UInt32)
  | modify (p : ι) (b : Fin nbuf) (d : Block)
  | logWrite (p : ι) (b : Fin nbuf)
  | bwrite (p : ι) (b : Fin nbuf)
  | brelse (p : ι) (b : Fin nbuf)
  /-- the process goes on -/
  | run (p : ι)
  /-- the disk has finished a request -/
  | ideintr

/-- The process runs its own code and holds the buffer. -/
def State.Holds (s : State ι) (p : ι) (b : Fin nbuf) : Prop := s.pc p = .out ∧ s.held p b = true

instance (s : State ι) (p : ι) (b : Fin nbuf) : Decidable (s.Holds p b) :=
  inferInstanceAs (Decidable (_ ∧ _))

/-- A step of the system. After changing the data of a buffer its holder calls `log_write` or
`bwrite` before it releases the buffer. -/
def State.exec [DecidableEq ι] (havedisk1 : Bool) (s : State ι) (a : Label ι) :
    Option (State ι) :=
  if s.panicked then none
  else match a with
    | .bread p dev blockno =>
      if s.pc p = .out ∧ dev < 2 then some (s.goto p (.bget dev blockno)) else none
    | .modify p b d => if s.Holds p b then some (s.modify b d) else none
    | .logWrite p b => if s.Holds p b then some (s.setDirty b) else none
    | .bwrite p b => if s.Holds p b then some (s.bwrite p b) else none
    | .brelse p b => if s.Holds p b ∧ s.modified b = false then some (s.brelse p b) else none
    | .run p => s.run havedisk1 p
    | .ideintr => some s.ideintr

def Step [DecidableEq ι] (havedisk1 : Bool) (s : State ι) (a : Label ι) (s' : State ι) : Prop :=
  s.exec havedisk1 a = some s'

end SistemasOperacionais.Xv6.Bio
