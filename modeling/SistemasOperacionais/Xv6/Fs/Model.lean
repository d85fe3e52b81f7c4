import SistemasOperacionais.Xv6.Fs.Layout

/-!
# Blocks, inodes and directories

`fs.c` from `balloc` to `dirlink`, and the part of `sys_unlink` that comes after the path. The
calls are executed one at a time, so a lock is always free and is left out. `bread` gives what was
written last; a block that is changed is passed to `log_write` at once, and the numbers of these
blocks are kept in the order of the calls. A `panic` is `none`.
-/

namespace SistemasOperacionais.Xv6.Fs

open Foundations Function Codec

def ninode : ℕ := 50

def ndev : ℕ := 10

/-- `struct inode`; `din` is the copy of the disk inode. -/
structure Inode where
  inum : ℕ
  ref : ℕ
  valid : Bool
  din : Dinode

namespace Inode

variable (x : Inode)

def withDin (din : Dinode) : Inode := { x with din := din }

def withRef (ref : ℕ) : Inode := { x with ref := ref }

def withValid (valid : Bool) : Inode := { x with valid := valid }

end Inode

/-- What the drivers of the devices return, by their major numbers. -/
structure Devsw where
  read : ℕ → Option (ℕ → Option (List UInt8))
  write : ℕ → Option (List UInt8 → Option ℕ)

structure State where
  sb : Superblock
  disk : Disk
  icache : Fin ninode → Inode
  /-- The blocks passed to `log_write`. -/
  logged : List ℕ

namespace State

variable (s : State)

/-! ## Blocks -/

/-- Change a block, and call `log_write`. -/
def logWrite (k : ℕ) (b : Block) : State :=
  { s with disk := update s.disk k b, logged := s.logged ++ [k] }

def bzero (bno : ℕ) : State := s.logWrite bno fun _ ↦ 0

def setBit (b : ℕ) : State :=
  s.logWrite (bblock s.sb b) (Bitmap.mark (s.disk (bblock s.sb b)) (bslot b))

def clearBit (b : ℕ) : State :=
  s.logWrite (bblock s.sb b) (Bitmap.clear (s.disk (bblock s.sb b)) (bslot b))

/-- `balloc`; its two loops go through the bits of all blocks in their order. -/
def balloc : Option (ℕ × State) :=
  ((List.range s.sb.size.toNat).find? fun b ↦ !used s.sb s.disk b).map fun b ↦
    (b, (s.setBit b).bzero b)

def refresh : State := { s with sb := readsb s.disk }

def bfree (b : ℕ) : Option State :=
  if used s.refresh.sb s.refresh.disk b then some (s.refresh.clearBit b) else none

/-! ## Inodes -/

def setInode (inum : ℕ) (x : Dinode) : State :=
  s.logWrite (iblock s.sb inum) (Block.setInode (s.disk (iblock s.sb inum)) (islot inum) x)

def setCache (i : Fin ninode) (x : Inode) : State := { s with icache := update s.icache i x }

/-- Change the copy of an inode in the cache. -/
def setDin (i : Fin ninode) (x : Dinode) : State :=
  s.setCache i ((s.icache i).withDin x)

def iget (inum : ℕ) : Option (Fin ninode × State) :=
  match (List.finRange ninode).find? fun i ↦ 0 < (s.icache i).ref ∧ (s.icache i).inum = inum with
  | some i => some (i, s.setCache i ((s.icache i).withRef ((s.icache i).ref + 1)))
  | none =>
    -- Recycle an inode cache entry.
    ((List.finRange ninode).find? fun i ↦ (s.icache i).ref = 0).map fun i ↦
      (i, s.setCache i ⟨inum, 1, false, (s.icache i).din⟩)

def ialloc (type : UInt16) : Option (Fin ninode × State) :=
  ((List.range' 1 (s.sb.ninodes.toNat - 1)).find? fun inum ↦
    (inodeAt s.sb s.disk inum).type = 0).bind fun inum ↦
      (s.setInode inum ⟨type, 0, 0, 0, 0, fun _ ↦ 0⟩).iget inum

def iupdate (i : Fin ninode) : State := s.setInode (s.icache i).inum (s.icache i).din

def idup (i : Fin ninode) : State :=
  s.setCache i ((s.icache i).withRef ((s.icache i).ref + 1))

/-- The part of `ilock` that reads the inode. -/
def load (i : Fin ninode) : State :=
  s.setCache i (((s.icache i).withDin (inodeAt s.sb s.disk (s.icache i).inum)).withValid true)

def ilock (i : Fin ninode) : Option State :=
  if (s.icache i).ref < 1 then none
  else if (s.icache i).valid then some s
  else if ((s.load i).icache i).din.type = 0 then none
  else some (s.load i)

/-! ## Contents of inodes -/

def setAddr (i : Fin ninode) (j : Fin 13) (addr : UInt32) : State :=
  s.setDin i ((s.icache i).din.withAddrs (update (s.icache i).din.addrs j addr))

/-- `if((addr = ip->addrs[j]) == 0) ip->addrs[j] = addr = balloc(ip->dev);` -/
def direct (i : Fin ninode) (j : Fin 13) : Option (UInt32 × State) :=
  if (s.icache i).din.addrs j = 0 then
    s.balloc.map fun (b, s) ↦ (.ofNat b, s.setAddr i j (.ofNat b))
  else some ((s.icache i).din.addrs j, s)

/-- The same for an entry of the indirect block `addr`. -/
def entry (addr : UInt32) (j : Fin 128) : Option (UInt32 × State) :=
  if Block.word (s.disk addr.toNat) j = 0 then
    s.balloc.map fun (b, s) ↦
      (.ofNat b, s.logWrite addr.toNat (Block.setWord (s.disk addr.toNat) j (.ofNat b)))
  else some (Block.word (s.disk addr.toNat) j, s)

def bmap (i : Fin ninode) (bn : ℕ) : Option (UInt32 × State) :=
  if h : bn < ndirect then s.direct i (place bn h)
  else if h : bn - ndirect < nindirect then
    (s.direct i last).bind fun (addr, s) ↦ s.entry addr ⟨bn - ndirect, h⟩
  else none

/-- The first loop of `itrunc`. -/
def freeDirect (i : Fin ninode) : List (Fin 13) → State → Option State
  | [], s => some s
  | j :: js, s =>
    if (s.icache i).din.addrs j = 0 then freeDirect i js s
    else (s.bfree ((s.icache i).din.addrs j).toNat).bind fun s ↦ freeDirect i js (s.setAddr i j 0)

/-- The second loop of `itrunc`, over the entries of the indirect block `addr`. -/
def freeEntries (addr : UInt32) : List (Fin 128) → State → Option State
  | [], s => some s
  | j :: js, s =>
    if Block.word (s.disk addr.toNat) j = 0 then freeEntries addr js s
    else (s.bfree (Block.word (s.disk addr.toNat) j).toNat).bind fun s ↦ freeEntries addr js s

/-- `itrunc` for the indirect block. -/
def freeIndirect (i : Fin ninode) : Option State :=
  if (s.icache i).din.addrs last = 0 then some s
  else (freeEntries ((s.icache i).din.addrs last) (List.finRange 128) s).bind fun s ↦
    (s.bfree ((s.icache i).din.addrs last).toNat).map fun s ↦ s.setAddr i last 0

def itrunc (i : Fin ninode) : Option State :=
  (freeDirect i ((List.finRange 12).map Fin.castSucc) s).bind fun s ↦
    (s.freeIndirect i).map fun s ↦ (s.setDin i ((s.icache i).din.withSize 0)).iupdate i

def setType (i : Fin ninode) (type : UInt16) : State :=
  (s.setDin i ((s.icache i).din.withType type)).iupdate i

/-- `ip->flags = 0` -/
def invalidate (i : Fin ninode) : State := s.setCache i ((s.icache i).withValid false)

/-- `iput` when the last reference to an inode without links is dropped. -/
def free (i : Fin ninode) : Option State :=
  (s.itrunc i).map fun s ↦ (s.setType i 0).invalidate i

def deref (i : Fin ninode) : State :=
  s.setCache i ((s.icache i).withRef ((s.icache i).ref - 1))

def iput (i : Fin ninode) : Option State :=
  if (s.icache i).ref = 1 ∧ (s.icache i).valid ∧ (s.icache i).din.nlink = 0 then
    (s.free i).map fun s ↦ s.deref i
  else some (s.deref i)

/-- `m` bytes of a block. -/
def slice (b : Block) (off m : ℕ) : List UInt8 := (List.range m).map fun x ↦ b.mem (off + x)

/-- Copy bytes into a block. -/
def splice (b : Block) (off : ℕ) (src : List UInt8) : Block :=
  fun x ↦ if off ≤ x then src.getD (x - off) (b x) else b x

/-- How many bytes are left up to the end of the block, at most `n`. -/
def span (off n : ℕ) : ℕ := min n (bsize - off % bsize)

/-- The loop of `readi`, which is executed once for a byte at most. -/
def readLoop (i : Fin ninode) : ℕ → ℕ → ℕ → State → Option (List UInt8 × State)
  | 0, _, _, s => some ([], s)
  | fuel + 1, off, n, s =>
    if n = 0 then some ([], s)
    else (s.bmap i (off / bsize)).bind fun (addr, s) ↦
      (readLoop i fuel (off + span off n) (n - span off n) s).map fun (bs, s') ↦
        (slice (s.disk addr.toNat) (off % bsize) (span off n) ++ bs, s')

/-- `readi`; it returns the bytes, or `none` for `-1`. -/
def readi (dev : Devsw) (i : Fin ninode) (off n : ℕ) : Option (Option (List UInt8) × State) :=
  if (s.icache i).din.type = tDev then
    if (s.icache i).din.major.toNat < ndev then
      some ((dev.read (s.icache i).din.major.toNat).bind fun f ↦ f n, s)
    else some (none, s)
  else if (s.icache i).din.size.toNat < off ∨ 2 ^ 32 ≤ off + n then some (none, s)
  else
    (readLoop i n off (min n ((s.icache i).din.size.toNat - off)) s).map fun (bs, s) ↦ (some bs, s)

/-- The loop of `writei`, which is executed once for a byte at most. -/
def writeLoop (i : Fin ninode) : ℕ → ℕ → List UInt8 → State → Option State
  | 0, _, _, s => some s
  | fuel + 1, off, src, s =>
    if src = [] then some s
    else (s.bmap i (off / bsize)).bind fun (addr, s) ↦
      writeLoop i fuel (off + span off src.length) (src.drop (span off src.length))
        (s.logWrite addr.toNat
          (splice (s.disk addr.toNat) (off % bsize) (src.take (span off src.length))))

/-- `if(n > 0 && off > ip->size){ ip->size = off; iupdate(ip); }` -/
def extend (i : Fin ninode) (off n : ℕ) : State :=
  if 0 < n ∧ (s.icache i).din.size.toNat < off then
    (s.setDin i ((s.icache i).din.withSize (.ofNat off))).iupdate i
  else s

/-- `writei`; it returns the number of bytes, or `none` for `-1`. -/
def writei (dev : Devsw) (i : Fin ninode) (src : List UInt8) (off : ℕ) :
    Option (Option ℕ × State) :=
  if (s.icache i).din.type = tDev then
    if (s.icache i).din.major.toNat < ndev then
      some ((dev.write (s.icache i).din.major.toNat).bind fun f ↦ f src, s)
    else some (none, s)
  else if (s.icache i).din.size.toNat < off ∨ 2 ^ 32 ≤ off + src.length then some (none, s)
  else if maxfile * bsize < off + src.length then some (none, s)
  else (writeLoop i src.length off src s).map fun s ↦
    (some src.length, s.extend i (off + src.length) src.length)

/-! ## Directories -/

/-- Sixteen bytes as an entry. -/
def toDirent (bs : List UInt8) : Dirent := dirent.dec fun j ↦ bs.getD j 0

def ofDirent (e : Dirent) : List UInt8 := List.ofFn (dirent.enc e)

/-- Go through the entries of a directory from `off` on, up to one that passes the test. It returns
where it stops, and the entry. -/
def scan (dev : Devsw) (i : Fin ninode) (test : Dirent → Bool) :
    ℕ → ℕ → State → Option ((ℕ × Option Dirent) × State)
  | 0, off, s => some ((off, none), s)
  | fuel + 1, off, s =>
    if off < (s.icache i).din.size.toNat then
      (s.readi dev i off 16).bind fun (r, s) ↦
        match r with
        | some bs =>
          if bs.length ≠ 16 then none
          else if test (toDirent bs) then some ((off, some (toDirent bs)), s)
          else scan dev i test fuel (off + 16) s
        | none => none
    else some ((off, none), s)

/-- An entry of size 16 is at most at every byte, so this many rounds are enough. -/
def rounds (i : Fin ninode) : ℕ := (s.icache i).din.size.toNat

/-- `dirlookup`; it returns the inode and the offset of the entry. -/
def dirlookup (dev : Devsw) (i : Fin ninode) (name : CString) :
    Option (Option (Fin ninode × ℕ) × State) :=
  if (s.icache i).din.type ≠ tDir then none
  else (scan dev i (fun e ↦ e.inum ≠ 0 ∧ namecmp name e) (s.rounds i) 0 s).bind fun (r, s) ↦
    match r with
    | (off, some e) => (s.iget e.inum.toNat).map fun (j, s) ↦ (some (j, off), s)
    | (_, none) => some (none, s)

def dirlink (dev : Devsw) (i : Fin ninode) (name : CString) (inum : ℕ) : Option (Bool × State) :=
  (s.dirlookup dev i name).bind fun (r, s) ↦
    match r with
    | some (j, _) => (s.iput j).map fun s ↦ (false, s)
    | none =>
      -- Look for an empty dirent.
      (scan dev i (fun e ↦ e.inum = 0) (s.rounds i) 0 s).bind fun ((off, _), s) ↦
        (s.writei dev i (ofDirent ⟨.ofNat inum, name.strncpy⟩) off).bind fun (r, s) ↦
          if r = some 16 then some (true, s) else none

/-! ## The system call `unlink` -/

def isdirempty (dev : Devsw) (i : Fin ninode) : Option (Bool × State) :=
  (scan dev i (fun e ↦ e.inum ≠ 0) (s.rounds i) 32 s).map fun ((_, e), s) ↦ (e = none, s)

def setNlink (i : Fin ninode) (n : UInt16) : State :=
  (s.setDin i ((s.icache i).din.withNlink n)).iupdate i

def dot : CString := ⟨[46], by decide⟩

def dotdot : CString := ⟨[46, 46], by decide⟩

def decNlink (i : Fin ninode) : State := s.setNlink i ((s.icache i).din.nlink - 1)

/-- The end of `sys_unlink`: erase the entry at `off` of directory `i`, and a link of inode `j`. -/
def erase (dev : Devsw) (i j : Fin ninode) (off : ℕ) : Option State :=
  (s.writei dev i (ofDirent ⟨0, fun _ ↦ 0⟩) off).bind fun (r, s) ↦
    if r ≠ some 16 then none
    else ((if (s.icache j).din.type = tDir then s.decNlink i else s).iput i).bind fun s ↦
      (s.decNlink j).iput j

/-- `sys_unlink` for the entry `name` of directory `i`, whose reference it drops. -/
def unlink (dev : Devsw) (i : Fin ninode) (name : CString) : Option (Bool × State) :=
  (s.ilock i).bind fun s ↦
    if strncmp name.byte dot.byte dirsiz 0 ∨ strncmp name.byte dotdot.byte dirsiz 0 then
      (s.iput i).map fun s ↦ (false, s)
    else (s.dirlookup dev i name).bind fun (r, s) ↦
      match r with
      | none => (s.iput i).map fun s ↦ (false, s)
      | some (j, off) => (s.ilock j).bind fun s ↦
        if (s.icache j).din.nlink.toInt16.toInt < 1 then none
        else if (s.icache j).din.type = tDir then
          (s.isdirempty dev j).bind fun (empty, s) ↦
            if empty then (s.erase dev i j off).map fun s ↦ (true, s)
            else (s.iput j).bind fun s ↦ (s.iput i).map fun s ↦ (false, s)
        else (s.erase dev i j off).map fun s ↦ (true, s)

end State

end SistemasOperacionais.Xv6.Fs
