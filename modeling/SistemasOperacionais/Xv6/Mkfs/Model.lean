import SistemasOperacionais.Xv6.Fs.Model

/-!
# Making a file system

`mkfs.c`. The host is little-endian, so `xshort` and `xint` change nothing. `mkfs` exits when an
`assert` or a system call fails, which is `none` here; the image of a run that comes to its end is
its last state. A host file is given by what the calls of `read` return for it.
-/

namespace SistemasOperacionais.Xv6.Mkfs

open Foundations Function Fs

/-! ## Layout -/

def fssize : ℕ := 1000

def ninodes : ℕ := 200

def nlog : ℕ := 30

def nbitmap : ℕ := fssize / (bsize * 8) + 1

def ninodeblocks : ℕ := ninodes / ipb + 1

/-- The number of meta blocks: boot, super block, log, inodes and bitmap. -/
def nmeta : ℕ := 2 + nlog + ninodeblocks + nbitmap

def sb : Superblock where
  size := .ofNat fssize
  nblocks := .ofNat (fssize - nmeta)
  ninodes := .ofNat ninodes
  nlog := .ofNat nlog
  logstart := 2
  inodestart := .ofNat (2 + nlog)
  bmapstart := .ofNat (2 + nlog + ninodeblocks)

structure State where
  /-- The image, with zeros behind its end. -/
  sect : Disk
  /-- The number of sectors of the image. -/
  len : ℕ
  freeinode : UInt32
  freeblock : UInt32

/-- The sector that `lseek` goes to; `sec * BSIZE` has 32 bits. -/
def sector (sec : UInt32) : ℕ := (sec * .ofNat bsize).toNat / bsize

namespace State

variable (s : State)

/-! ## Sectors -/

def wsect (sec : UInt32) (buf : Block) : State :=
  { s with sect := update s.sect (sector sec) buf, len := max s.len (sector sec + 1) }

/-- `rsect`; behind the end of the image `read` returns less than a block. -/
def rsect (sec : UInt32) : Option Block :=
  if sector sec < s.len then some (s.sect (sector sec)) else none

/-! ## Inodes -/

def winode (inum : UInt32) (din : Dinode) : Option State :=
  (s.rsect (.ofNat (iblock sb inum.toNat))).map fun buf ↦
    s.wsect (.ofNat (iblock sb inum.toNat)) (Block.setInode buf (islot inum.toNat) din)

def rinode (inum : UInt32) : Option Dinode :=
  (s.rsect (.ofNat (iblock sb inum.toNat))).map fun buf ↦ Block.inode buf (islot inum.toNat)

def ialloc (type : UInt16) : Option (UInt32 × State) :=
  ({ s with freeinode := s.freeinode + 1 }.winode s.freeinode ⟨type, 0, 0, 1, 0, fun _ ↦ 0⟩).map
    fun s' ↦ (s.freeinode, s')

/-- `freeblock++` -/
def bump : State := { s with freeblock := s.freeblock + 1 }

/-- `if(xint(din.addrs[j]) == 0) din.addrs[j] = xint(freeblock++);` -/
def direct (din : Dinode) (j : Fin 13) : Dinode × State :=
  if din.addrs j = 0 then (din.withAddrs (update din.addrs j s.freeblock), s.bump) else (din, s)

/-- The same for an entry of the indirect block, which is written back. -/
def entry (addr : UInt32) (j : Fin 128) : Option (UInt32 × State) :=
  (s.rsect addr).map fun indirect ↦
    if Block.word indirect j = 0 then
      (s.freeblock, s.bump.wsect addr (Block.setWord indirect j s.freeblock))
    else (Block.word indirect j, s)

/-- The part of the loop of `iappend` that finds the block `x`. -/
def place (din : Dinode) (fbn : ℕ) : Option (UInt32 × Dinode × State) :=
  if h : fbn < ndirect then
    some ((s.direct din (Fs.place fbn h)).1.addrs (Fs.place fbn h), s.direct din (Fs.place fbn h))
  else if h : fbn - ndirect < nindirect then
    ((s.direct din last).2.entry ((s.direct din last).1.addrs last) ⟨fbn - ndirect, h⟩).map
      fun (x, s') ↦ (x, (s.direct din last).1, s')
  else none

/-- `min(n, (fbn + 1) * BSIZE - off)` -/
def room (off n : ℕ) : ℕ := min n ((off / bsize + 1) * bsize - off)

/-- The loop of `iappend`, which is executed once for a byte at most. -/
def appendLoop : ℕ → ℕ → List UInt8 → Dinode → State → Option (ℕ × Dinode × State)
  | 0, off, _, din, s => some (off, din, s)
  | fuel + 1, off, src, din, s =>
    if src = [] then some (off, din, s)
    else (s.place din (off / bsize)).bind fun (x, din, s) ↦
      (s.rsect x).bind fun buf ↦
        appendLoop fuel (off + room off src.length) (src.drop (room off src.length)) din
          (s.wsect x (Fs.State.splice buf (off - off / bsize * bsize)
            (src.take (room off src.length))))

def iappend (inum : UInt32) (src : List UInt8) : Option State :=
  (s.rinode inum).bind fun din ↦
    (appendLoop src.length din.size.toNat src din s).bind fun (off, din, s) ↦
      s.winode inum (din.withSize (.ofNat off))

/-- The block that `balloc` writes. -/
def bitmap (used : ℕ) : Block :=
  (List.range used).foldl (fun buf i ↦ Bitmap.mark buf (bslot i)) fun _ ↦ 0

/-- `balloc(freeblock)`; its argument is an `int`. -/
def balloc : Option State :=
  if s.freeblock.toInt32.toInt < bsize * 8 then
    some (s.wsect sb.bmapstart (bitmap s.freeblock.toInt32.toInt.toNat))
  else none

end State

/-! ## The program -/

/-- A file of the host, as `read` returns it in pieces of at most `BSIZE` bytes. -/
structure HostFile where
  name : CString
  chunks : List (List UInt8)
  sizes : ∀ c ∈ chunks, 0 < c.length ∧ c.length ≤ bsize

namespace HostFile

def bytes (f : HostFile) : List UInt8 := f.chunks.flatten

/-- `if(argv[i][0] == '_') ++argv[i];` -/
def shortName (f : HostFile) : CString :=
  if f.name.byte 0 = 95 then ⟨f.name.bytes.tail, fun h ↦ f.name.nonzero (List.mem_of_mem_tail h)⟩
  else f.name

end HostFile

namespace State

/-- The image with its super block. -/
def blank : State :=
  ((List.range fssize).foldl (fun (s : State) i ↦ s.wsect (.ofNat i) fun _ ↦ 0)
    (State.mk (fun _ _ ↦ 0) 0 1 (.ofNat nmeta))).wsect 1 (Block.ofSuper sb)

/-- Append an entry to the root directory. -/
def link (s : State) (rootino inum : UInt32) (name : CString) : Option State :=
  s.iappend rootino (Fs.State.ofDirent ⟨inum.toUInt16, name.strncpy⟩)

/-- `while((cc = read(fd, buf, sizeof(buf))) > 0) iappend(inum, buf, cc);` -/
def copy (inum : UInt32) : List (List UInt8) → State → Option State
  | [], s => some s
  | c :: cs, s => (s.iappend inum c).bind fun s ↦ copy inum cs s

/-- One round of the loop over the arguments. It returns the number of the inode. -/
def addFile (s : State) (rootino : UInt32) (f : HostFile) : Option (UInt32 × State) :=
  if 47 ∈ f.name.bytes then none
  else (s.ialloc tFile).bind fun (inum, s) ↦
    (s.link rootino inum f.shortName).bind fun s ↦
      (copy inum f.chunks s).map fun s ↦ (inum, s)

def addFiles (rootino : UInt32) : List HostFile → State → Option (List UInt32 × State)
  | [], s => some ([], s)
  | f :: fs, s => (s.addFile rootino f).bind fun (inum, s) ↦
    (addFiles rootino fs s).map fun (inums, s) ↦ (inum :: inums, s)

def fixSize (s : State) (rootino : UInt32) : Option State :=
  (s.rinode rootino).bind fun din ↦
    s.winode rootino (din.withSize ((din.size / .ofNat bsize + 1) * .ofNat bsize))

end State

/-- `main`; it returns the numbers of the inodes of the files, and the image. -/
def main (files : List HostFile) : Option (List UInt32 × State) :=
  (State.blank.ialloc tDir).bind fun (rootino, s) ↦
    if rootino ≠ .ofNat Fs.rootino then none
    else (s.link rootino rootino Fs.State.dot).bind fun s ↦
      (s.link rootino rootino Fs.State.dotdot).bind fun s ↦
        (s.addFiles rootino files).bind fun (inums, s) ↦
          (s.fixSize rootino).bind fun s ↦ s.balloc.map fun s ↦ (inums, s)

end SistemasOperacionais.Xv6.Mkfs
