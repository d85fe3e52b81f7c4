import SistemasOperacionais.Foundations.Prog
import SistemasOperacionais.Xv6.Vm.Entries

/-!
# Physical pages and page tables

`kalloc.c`, `vm.c` and `growproc` of `proc.c`. The free list is a list of pages; the pointer to the
next free page that `kfree` stores in a page is part of it. Addresses that are multiples of
`PGSIZE` are kept as page numbers.

A call of `kalloc` finds the free list empty whenever others have taken the last pages while this
call was in progress, so each call may fail: `deny` says of the calls to come which ones do.

A run stops by `panic`, or by reading through the null pointer that `walkpgdir` returns where there
is no page table.
-/

namespace SistemasOperacionais.Xv6.Vm

open Foundations Prog

def kernbase : UInt32 := 0x80000000

/-- `EXTMEM`, `PHYSTOP` and `DEVSPACE` -/
def extmem : ℕ := 0x100000

def phystop : ℕ := 0xE000000

def devspace : ℕ := 0xFE000000

def userPages : ℕ := 524288

/-- Where the linker has put the kernel: its data starts at the page `data` and it ends before the
page `kend`, in the first four megabytes. -/
structure Layout where
  data : ℕ
  kend : ℕ
  extmem_lt : 256 < data
  data_lt : data < kend
  kend_le : kend ≤ 1024

inductive Fault
  | panic (msg : String)
  /-- A null pointer is used. -/
  | nullPointer
deriving DecidableEq

structure Machine where
  /-- `kmem.freelist` -/
  free : List Frame
  mem : Frame → Page
  deny : List Bool

namespace Machine

variable (m : Machine)

/-- A word of a page table or a page directory. -/
def word (v : Frame) (i : ℕ) : UInt32 := (m.mem v).word i

/-- After a call of `kalloc` that has failed. -/
def denied : Machine := { m with deny := m.deny.tail }

/-- After a call of `kalloc` that has left `rest`. -/
def handed (rest : List Frame) : Machine := { m with free := rest, deny := m.deny.tail }

/-- The page `v` has the bytes `b`. -/
def filled (v : Frame) (b : Page) : Machine := { m with mem := Function.update m.mem v b }

/-- The page is full of junk, at the head of the free list. -/
def freed (v : Frame) : Machine := { m.filled v (.fill 1) with free := v :: m.free }

/-- `memset(v, 0, PGSIZE)` -/
def cleared (v : Frame) : Machine := m.filled v (.fill 0)

/-- One word of the page is stored to. -/
def stored (v : Frame) (i : ℕ) (e : UInt32) : Machine := m.filled v ((m.mem v).setWord i e)

end Machine

/-- What the kernel runs. -/
abbrev K (α : Type) := Prog Machine Fault α

variable (L : Layout)

/-! ## Pages -/

def kalloc : K (Option Frame) := do
  let m ← get
  if m.deny.headD false then
    set m.denied
    pure none
  else
    match m.free with
    | [] =>
      set m.denied
      pure none
    | r :: rest =>
      set (m.handed rest)
      pure (some r)

/-- A page number is a multiple of `PGSIZE` already. -/
def kfree (v : Frame) : K Unit :=
  if v < L.kend ∨ phystop / pgsize ≤ v then stop (.panic "kfree") else modify (·.freed v)

/-! ## Page tables -/

/-- `PDX` and `PTX` of the page with number `v` -/
def pdx (v : ℕ) : ℕ := v / nentries % nentries

def ptx (v : ℕ) : ℕ := v % nentries

/-- The page table with the entry of the page `v`; the entry is at `ptx v`. -/
def walkpgdir (pgdir : Frame) (v : ℕ) (alloc : Bool) : K (Option Frame) := do
  let m ← get
  if present (m.word pgdir (pdx v)) then
    pure (some (pteAddr (m.word pgdir (pdx v))))
  else if alloc then
    match ← kalloc with
    | none => pure none
    | some pgtab =>
      modify (·.cleared pgtab)
      modify (·.stored pgdir (pdx v) (mkPte pgtab (flagW ||| flagU)))
      pure (some pgtab)
  else
    pure none

/-- One round of the loop of `mappages`. -/
def mapPage (pgdir : Frame) (perm : UInt32) (a : ℕ) (pa : Frame) : K Bool := do
  match ← walkpgdir pgdir a true with
  | none => pure false
  | some pgtab =>
    let m ← get
    if present (m.word pgtab (ptx a)) then stop (.panic "remap")
    else
      modify (·.stored pgtab (ptx a) (mkPte pa perm))
      pure true

/-- The loop of `mappages`, `n` pages away from `last`. -/
def mapLoop (pgdir : Frame) (perm : UInt32) : ℕ → ℕ → Frame → K Bool
  | 0, a, pa => mapPage pgdir perm a pa
  | n + 1, a, pa => do
    if ← mapPage pgdir perm a pa then
      mapLoop pgdir perm n (a + 1) (pa + 1)
    else
      pure false

/-- Addresses and sizes are in bytes, and `pa` is the address of a page. The loop ends when it has
come to `last`, also if it has to go through address 0. -/
def mappages (pgdir : Frame) (va size pa : ℕ) (perm : UInt32) : K Bool :=
  let first := va / pgsize
  let last := (va + size - 1) % 2 ^ 32 / pgsize
  mapLoop pgdir perm ((last + 2 ^ 20 - first) % 2 ^ 20) first (pa / pgsize)

/-- `struct kmap` -/
structure Kmap where
  virt : ℕ
  physStart : ℕ
  physEnd : ℕ
  perm : UInt32

def kmap : List Kmap :=
  [⟨kernbase.toNat, 0, extmem, flagW⟩,
    ⟨kernbase.toNat + extmem, extmem, L.data * pgsize, 0⟩,
    ⟨kernbase.toNat + L.data * pgsize, L.data * pgsize, phystop, flagW⟩,
    ⟨devspace, devspace, 0, flagW⟩]

def mapKernel (pgdir : Frame) : List Kmap → K Bool
  | [] => pure true
  | k :: rest => do
    if ← mappages pgdir k.virt ((k.physEnd + 2 ^ 32 - k.physStart) % 2 ^ 32) k.physStart k.perm then
      mapKernel pgdir rest
    else
      pure false

def setupkvm : K (Option Frame) := do
  match ← kalloc with
  | none => pure none
  | some pgdir =>
    modify (·.cleared pgdir)
    if devspace < kernbase.toNat + phystop then stop (.panic "PHYSTOP too high")
    else if ← mapKernel pgdir (kmap L) then
      pure (some pgdir)
    else
      pure none

/-! ## User memory -/

def pgroundup (sz : UInt32) : UInt32 := (sz + 4095) / 4096 * 4096

/-- The number of pages that hold `sz` bytes: the pages whose address is less than `sz`. -/
def pages (sz : UInt32) : ℕ := (sz.toNat + 4095) / pgsize

/-- The loop of `deallocuvm`, up to the page `last`. In each round `a` moves on, so that `last`
rounds are enough. -/
def deallocLoop (pgdir : Frame) (last : ℕ) : ℕ → ℕ → K Unit
  | 0, _ => pure ()
  | fuel + 1, a => do
    if a < last then
      match ← walkpgdir pgdir a false with
      | none => deallocLoop pgdir last fuel (a + (nentries - 1) + 1)
      | some pgtab =>
        let m ← get
        let pte := m.word pgtab (ptx a)
        if present pte then
          if pteAddr pte = 0 then stop (.panic "kfree")
          else
            kfree L (pteAddr pte)
            modify (·.stored pgtab (ptx a) 0)
            deallocLoop pgdir last fuel (a + 1)
        else
          deallocLoop pgdir last fuel (a + 1)
    else pure ()

/-- No caller has an `oldsz` above `KERNBASE`, so `a` does not wrap around. -/
def deallocuvm (pgdir : Frame) (oldsz newsz : UInt32) : K UInt32 := do
  if oldsz ≤ newsz then pure oldsz
  else
    deallocLoop L pgdir (pages oldsz) (pages oldsz) ((pgroundup newsz).toNat / pgsize)
    pure newsz

/-- The loop of `allocuvm`, with `n` pages to go. -/
def allocLoop (pgdir : Frame) (oldsz newsz : UInt32) : ℕ → ℕ → K UInt32
  | 0, _ => pure newsz
  | n + 1, a => do
    match ← kalloc with
    | none =>
      let _ ← deallocuvm L pgdir newsz oldsz
      pure 0
    | some mem =>
      modify (·.cleared mem)
      -- the result of `mappages` is not looked at
      let _ ← mappages pgdir (a * pgsize) pgsize (mem * pgsize) (flagW ||| flagU)
      allocLoop pgdir oldsz newsz n (a + 1)

def allocuvm (pgdir : Frame) (oldsz newsz : UInt32) : K UInt32 :=
  if kernbase ≤ newsz then pure 0
  else if newsz < oldsz then pure oldsz
  else
    let a := (pgroundup oldsz).toNat / pgsize
    allocLoop L pgdir oldsz newsz (pages newsz - a) a

/-- `for(i = 0; i < NPDENTRIES; i++)` of `freevm` -/
def freeTables (pgdir : Frame) : ℕ → ℕ → K Unit
  | 0, _ => pure ()
  | n + 1, i => do
    let m ← get
    if present (m.word pgdir i) then
      kfree L (pteAddr (m.word pgdir i))
      freeTables pgdir n (i + 1)
    else
      freeTables pgdir n (i + 1)

/-- The page directory 0 is `none`. -/
def freevm (pgdir : Option Frame) : K Unit := do
  match pgdir with
  | none => stop (.panic "freevm: no pgdir")
  | some pgdir =>
    let _ ← deallocuvm L pgdir kernbase 0
    freeTables L pgdir nentries 0
    kfree L pgdir

/-- The loop of `copyuvm`, with `n` pages to go. -/
def copyLoop (pgdir d : Frame) : ℕ → ℕ → K Bool
  | 0, _ => pure true
  | n + 1, i => do
    match ← walkpgdir pgdir i false with
    | none => stop (.panic "copyuvm: pte should exist")
    | some pgtab =>
      let m ← get
      let pte := m.word pgtab (ptx i)
      if present pte then
        match ← kalloc with
        | none => pure false
        | some mem =>
          modify fun m ↦ m.filled mem (m.mem (pteAddr pte))
          if ← mappages d (i * pgsize) pgsize (mem * pgsize) (pteFlags pte) then
            copyLoop pgdir d n (i + 1)
          else
            pure false
      else stop (.panic "copyuvm: page not present")

def copyuvm (pgdir : Frame) (sz : UInt32) : K (Option Frame) := do
  match ← setupkvm L with
  | none => pure none
  | some d =>
    if ← copyLoop pgdir d (pages sz) 0 then
      pure (some d)
    else
      freevm L (some d)
      pure none

/-- `uva2ka`, which uses what `walkpgdir` returns as it is. The kernel address is given as the page
it is in. -/
def uva2ka (pgdir : Frame) (uva : UInt32) : K (Option Frame) := do
  match ← walkpgdir pgdir (uva.toNat / pgsize) false with
  | none => stop .nullPointer
  | some pgtab =>
    let m ← get
    let pte := m.word pgtab (ptx (uva.toNat / pgsize))
    if present pte = false then pure none
    else if user pte = false then pure none
    else pure (some (pteAddr pte))

/-- The loop of `copyout`, with the bytes `buf` to go. Each round copies one byte at least, so that
there are at most as many rounds as bytes. -/
def copyoutLoop (pgdir : Frame) : ℕ → UInt32 → List UInt8 → K Bool
  | 0, _, _ => pure true
  | fuel + 1, va, buf => do
    if buf.isEmpty then pure true
    else
      let va0 := va / 4096 * 4096
      match ← uva2ka pgdir va0 with
      | none => pure false
      | some pa0 =>
        let n := min (pgsize - (va - va0).toNat) buf.length
        modify fun m ↦ m.filled pa0 ((m.mem pa0).put (va - va0).toNat (buf.take n))
        copyoutLoop pgdir fuel (va0 + 4096) (buf.drop n)

/-- The `len` bytes at `p` are given as a list. -/
def copyout (pgdir : Frame) (va : UInt32) (p : List UInt8) : K Bool :=
  copyoutLoop pgdir p.length va p

/-! ## Processes -/

/-- What `growproc` uses of a process. -/
structure Process where
  sz : UInt32
  pgdir : Frame

/-- `growproc`, for the process `proc`, with its result. To switch to the address space it is in
already changes nothing. -/
def growproc (proc : Process) (n : Int32) : K (ℤ × Process) := do
  if 0 < n then
    let sz ← allocuvm L proc.pgdir proc.sz (proc.sz + n.toUInt32)
    if sz = 0 then pure (-1, proc) else pure (0, { proc with sz := sz })
  else if n < 0 then
    let sz ← deallocuvm L proc.pgdir proc.sz (proc.sz + n.toUInt32)
    if sz = 0 then pure (-1, proc) else pure (0, { proc with sz := sz })
  else
    pure (0, proc)

end SistemasOperacionais.Xv6.Vm
