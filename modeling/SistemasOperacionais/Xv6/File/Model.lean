import SistemasOperacionais.Foundations.Trace
import SistemasOperacionais.Foundations.RefCount

/-!
# Open files

`file.c`, and the calls of `sysfile.c`, `pipe.c` and `proc.c` that make and drop references to open
files: `open`, `dup`, `close`, `pipe`, `fork` and `exit`. The calls follow one another. Each of them
may fail where the source lets it: no such file, no entry in `ftable`, no free descriptor, no page
for the pipe, no process for `fork`.

A pipe is a page from `kalloc`, known by its address. How often each page was handed out for a pipe
and how often it was freed is counted beside the state. The inodes are not modelled; `iput` of the
last reference to a file has no effect here.
-/

namespace SistemasOperacionais.Xv6.File

open Foundations Function

def nfile : ℕ := 100

def nofile : ℕ := 16

def oWronly : ℕ := 0x001

def oRdwr : ℕ := 0x002

inductive FdType
  | none
  | pipe
  | inode
deriving DecidableEq

/-- `struct file` -/
structure Entry where
  type : FdType
  ref : ℕ
  readable : Bool
  writable : Bool
  pipe : ℕ
  ip : ℕ
  off : ℕ

/-- The two flags of `struct pipe`. -/
structure Ends where
  readopen : Bool
  writeopen : Bool

structure State (ι : Type*) where
  /-- `ftable.file` -/
  file : Fin nfile → Entry
  ofile : ι × Fin nofile → Option (Fin nfile)
  /-- The processes that have not exited. -/
  used : ι → Bool
  /-- What is in a page as a pipe. -/
  pipe : ℕ → Ends
  kallocs : ℕ → ℕ
  kfrees : ℕ → ℕ

variable {ι : Type*}

namespace State

def setFile (s : State ι) (f : Fin nfile) (e : Entry) : State ι :=
  { s with file := update s.file f e }

/-! ## `file.c` -/

/-- The entry that is found is marked as used. -/
def filealloc (s : State ι) : Option (Fin nfile × State ι) :=
  ((List.finRange nfile).find? fun f ↦ (s.file f).ref = 0).map fun f ↦
    (f, s.setFile f { s.file f with ref := 1 })

/-- `none` is `panic("filedup")`. -/
def filedup (s : State ι) (f : Fin nfile) : Option (State ι) :=
  if (s.file f).ref < 1 then none
  else some (s.setFile f { s.file f with ref := (s.file f).ref + 1 })

/-- `kfree` fills the page with ones. -/
def kfree (s : State ι) (a : ℕ) : State ι :=
  { s with pipe := update s.pipe a ⟨true, true⟩, kfrees := update s.kfrees a (s.kfrees a + 1) }

def pipeclose (s : State ι) (a : ℕ) (writable : Bool) : State ι :=
  let e : Ends :=
    if writable then ⟨(s.pipe a).readopen, false⟩ else ⟨false, (s.pipe a).writeopen⟩
  let s' := { s with pipe := update s.pipe a e }
  if e.readopen = false ∧ e.writeopen = false then s'.kfree a else s'

/-- `none` is `panic("fileclose")`. -/
def fileclose (s : State ι) (f : Fin nfile) : Option (State ι) :=
  let ff := s.file f
  if ff.ref < 1 then none
  else if 0 < ff.ref - 1 then some (s.setFile f { ff with ref := ff.ref - 1 })
  else
    let s' := s.setFile f { ff with ref := 0, type := .none }
    some (if ff.type = .pipe then s'.pipeclose ff.pipe ff.writable else s')

section Calls

variable [DecidableEq ι]

def setOfile (s : State ι) (p : ι) (fd : Fin nofile) (f : Option (Fin nfile)) : State ι :=
  { s with ofile := update s.ofile (p, fd) f }

/-! ## `sysfile.c` and `pipe.c` -/

def argfd (s : State ι) (p : ι) (fd : ℤ) : Option (Fin nofile × Fin nfile) :=
  if h : 0 ≤ fd ∧ fd.toNat < nofile then
    (s.ofile (p, ⟨fd.toNat, h.2⟩)).map fun f ↦ (⟨fd.toNat, h.2⟩, f)
  else none

def fdalloc (s : State ι) (p : ι) (f : Fin nfile) : Option (Fin nofile × State ι) :=
  ((List.finRange nofile).find? fun fd ↦ s.ofile (p, fd) = none).map fun fd ↦
    (fd, s.setOfile p fd (some f))

def sysDup (s : State ι) (p : ι) (fd : ℤ) : Option (State ι × ℤ) :=
  match s.argfd p fd with
  | none => some (s, -1)
  | some (_, f) =>
    match s.fdalloc p f with
    | none => some (s, -1)
    | some (fd, s) => (s.filedup f).map fun s ↦ (s, fd)

def sysClose (s : State ι) (p : ι) (fd : ℤ) : Option (State ι × ℤ) :=
  match s.argfd p fd with
  | none => some (s, -1)
  | some (fd, f) => ((s.setOfile p fd none).fileclose f).map fun s ↦ (s, 0)

/-- The inode is what `create` or `namei` found and the test for directories let through. -/
def sysOpen (s : State ι) (p : ι) (ip : Option ℕ) (omode : ℕ) : Option (State ι × ℤ) :=
  match ip with
  | none => some (s, -1)
  | some ip =>
    match s.filealloc with
    | none => some (s, -1)
    | some (f, s) =>
      match s.fdalloc p f with
      | none => (s.fileclose f).map fun s ↦ (s, -1)
      | some (fd, s) =>
        some (s.setFile f
          { s.file f with
            type := .inode
            ip := ip
            off := 0
            readable := decide (omode &&& oWronly = 0)
            writable := decide (omode &&& oWronly ≠ 0 ∨ omode &&& oRdwr ≠ 0) }, fd)

/-- The end of `pipealloc` that succeeds, with the page `a` from `kalloc`. -/
def makePipe (s : State ι) (a : ℕ) (f0 f1 : Fin nfile) : State ι :=
  let s := { s with
    kallocs := update s.kallocs a (s.kallocs a + 1), pipe := update s.pipe a ⟨true, true⟩ }
  let s := s.setFile f0
    { s.file f0 with type := .pipe, readable := true, writable := false, pipe := a }
  s.setFile f1 { s.file f1 with type := .pipe, readable := false, writable := true, pipe := a }

/-- `pipealloc`; `page` is what `kalloc` returns. -/
def pipealloc (s : State ι) (page : Option ℕ) :
    Option (State ι × Option (Fin nfile × Fin nfile)) :=
  match s.filealloc with
  | none => some (s, none)
  | some (f0, s) =>
    match s.filealloc with
    | none => (s.fileclose f0).map fun s ↦ (s, none)
    | some (f1, s) =>
      match page with
      | none => ((s.fileclose f0).bind fun s ↦ s.fileclose f1).map fun s ↦ (s, none)
      | some a => some (s.makePipe a f0 f1, some (f0, f1))

/-- `sys_pipe`; `arg` says whether the pointer to the two descriptors is valid. -/
def sysPipe (s : State ι) (p : ι) (arg : Bool) (page : Option ℕ) : Option (State ι × ℤ) :=
  if arg = false then some (s, -1)
  else (s.pipealloc page).bind fun r ↦
    match r with
    | (s, none) => some (s, -1)
    | (s, some (rf, wf)) =>
      match s.fdalloc p rf with
      | none => ((s.fileclose rf).bind fun s ↦ s.fileclose wf).map fun s ↦ (s, -1)
      | some (fd0, s) =>
        match s.fdalloc p wf with
        | none =>
          (((s.setOfile p fd0 none).fileclose rf).bind fun s ↦ s.fileclose wf).map fun s ↦ (s, -1)
        | some (_, s) => some (s, 0)

/-! ## `proc.c` -/

/-- `np->ofile[i] = filedup(proc->ofile[i])` for the descriptors in a list -/
def forkFiles (s : State ι) (p np : ι) : List (Fin nofile) → Option (State ι)
  | [] => some s
  | i :: l =>
    match s.ofile (p, i) with
    | none => s.forkFiles p np l
    | some f => (s.filedup f).bind fun s ↦ (s.setOfile np i (some f)).forkFiles p np l

/-- `child` is the process that `allocproc` returned and `copyuvm` could fill, with its pid. -/
def fork (s : State ι) (p : ι) (child : Option (ι × ℤ)) : Option (State ι × ℤ) :=
  match child with
  | none => some (s, -1)
  | some (np, pid) => (s.forkFiles p np (List.finRange nofile)).map fun s ↦
      ({ s with used := update s.used np true }, pid)

/-- The loop of `exit` over the descriptors in a list. -/
def closeFiles (s : State ι) (p : ι) : List (Fin nofile) → Option (State ι)
  | [] => some s
  | fd :: l =>
    match s.ofile (p, fd) with
    | none => s.closeFiles p l
    | some f => (s.fileclose f).bind fun s ↦ (s.setOfile p fd none).closeFiles p l

/-- `exit` does not return. That `initproc` must not call it plays no role for its files. -/
def exit (s : State ι) (p : ι) : Option (State ι) :=
  (s.closeFiles p (List.finRange nofile)).map fun s ↦ { s with used := update s.used p false }

end Calls

end State

inductive Call (ι : Type*)
  | dup (fd : ℤ)
  | close (fd : ℤ)
  | openFile (ip : Option ℕ) (omode : ℕ)
  | pipe (arg : Bool) (page : Option ℕ)
  | fork (child : Option (ι × ℤ))
  | exit

variable [DecidableEq ι]

/-- A call by the process `p`, with what it returns; `none` is a panic. -/
def State.call (s : State ι) (p : ι) : Call ι → Option (State ι × ℤ)
  | .dup fd => s.sysDup p fd
  | .close fd => s.sysClose p fd
  | .openFile ip omode => s.sysOpen p ip omode
  | .pipe arg page => s.sysPipe p arg page
  | .fork child => s.fork p child
  | .exit => (s.exit p).map fun s ↦ (s, 0)

/-- Calls are made by processes; `kalloc` returns a page that is not in use, and `allocproc` a
process that is not. -/
def State.enabled (s : State ι) (p : ι) : Call ι → Bool
  | .pipe _ (some a) => s.used p && s.kallocs a == s.kfrees a
  | .fork (some (np, _)) => s.used p && !s.used np
  | _ => s.used p

def State.exec (s : State ι) (a : ι × Call ι) : Option (State ι) :=
  if s.enabled a.1 a.2 then (s.call a.1 a.2).map Prod.fst else none

def Step (s : State ι) (a : ι × Call ι) (s' : State ι) : Prop := s.exec a = some s'

def initial (init : ι) : State ι where
  file _ := ⟨.none, 0, false, false, 0, 0, 0⟩
  ofile _ := none
  used p := decide (p = init)
  pipe _ := ⟨false, false⟩
  kallocs _ := 0
  kfrees _ := 0

end SistemasOperacionais.Xv6.File
