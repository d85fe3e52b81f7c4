import SistemasOperacionais.Foundations.Bitmap
import SistemasOperacionais.Foundations.Codec
import SistemasOperacionais.Xv6.Block
import Mathlib.Data.List.GetD

/-!
# The file system on the disk

`fs.h` and `stat.h`: the super block, the inodes, the free map, indirect blocks and directory
entries, as they lie on the disk

```text
boot block | super block | log | inode blocks | free bit map | data blocks
```

The kernel and `mkfs` both put these structures over the bytes of a block.
-/

namespace SistemasOperacionais.Xv6.Fs

open Foundations

abbrev Disk := ℕ → Block

/-! ## Constants -/

def rootino : ℕ := 1

def ndirect : ℕ := 12

def nindirect : ℕ := 128

def maxfile : ℕ := ndirect + nindirect

/-- Inodes per block. -/
def ipb : ℕ := 8

/-- Bitmap bits per block. -/
def bpb : ℕ := 4096

def dirsiz : ℕ := 14

def tDir : UInt16 := 1

def tFile : UInt16 := 2

def tDev : UInt16 := 3

/-- The place of a direct block in `addrs`. -/
def place (n : ℕ) (h : n < ndirect) : Fin 13 := ⟨n, Nat.lt_succ_of_lt h⟩

/-- `NDIRECT` as a place of `addrs`. -/
def last : Fin 13 := ⟨ndirect, Nat.lt_succ_self _⟩

/-! ## Structures -/

@[ext] structure Superblock where
  size : UInt32
  nblocks : UInt32
  ninodes : UInt32
  nlog : UInt32
  logstart : UInt32
  inodestart : UInt32
  bmapstart : UInt32
deriving DecidableEq

/-- `struct dinode`; a type of zero means that the inode is free. -/
@[ext] structure Dinode where
  type : UInt16
  major : UInt16
  minor : UInt16
  nlink : UInt16
  size : UInt32
  addrs : Fin 13 → UInt32
deriving DecidableEq

namespace Dinode

variable (x : Dinode)

def withType (type : UInt16) : Dinode := { x with type := type }

def withNlink (nlink : UInt16) : Dinode := { x with nlink := nlink }

def withSize (size : UInt32) : Dinode := { x with size := size }

def withAddrs (addrs : Fin 13 → UInt32) : Dinode := { x with addrs := addrs }

end Dinode

/-- `struct dirent` -/
@[ext] structure Dirent where
  inum : UInt16
  name : Fin 14 → UInt8
deriving DecidableEq

open Codec

/-- The super block at the start of its block; nothing is read behind it. -/
def superblock : Codec Superblock 28 :=
  (array 7 u32).iso (fun w ↦ ⟨w 0, w 1, w 2, w 3, w 4, w 5, w 6⟩)
    (fun s ↦ ![s.size, s.nblocks, s.ninodes, s.nlog, s.logstart, s.inodestart, s.bmapstart])
    fun _ ↦ rfl

def dinode : Codec Dinode 64 :=
  (u16.prod (u16.prod (u16.prod (u16.prod (u32.prod (array 13 u32)))))).iso
    (fun x ↦ ⟨x.1, x.2.1, x.2.2.1, x.2.2.2.1, x.2.2.2.2.1, x.2.2.2.2.2⟩)
    (fun d ↦ (d.type, d.major, d.minor, d.nlink, d.size, d.addrs)) fun _ ↦ rfl

def dirent : Codec Dirent 16 :=
  (u16.prod (array 14 u8)).iso (fun x ↦ ⟨x.1, x.2⟩) (fun e ↦ (e.inum, e.name)) fun _ ↦ rfl

/-! ## Blocks as arrays of structures -/

namespace Block

variable (b : Block)

/-- `(struct dinode*)b + j` -/
def inode (j : Fin 8) : Dinode := dinode.get (k := 8) b j

def setInode (j : Fin 8) (x : Dinode) : Block := dinode.set (k := 8) b j x

/-- An entry of an indirect block. -/
def word (j : Fin 128) : UInt32 := u32.get (k := 128) b j

def setWord (j : Fin 128) (x : UInt32) : Block := u32.set (k := 128) b j x

theorem inode_setInode (j : Fin 8) (x : Dinode) :
    inode (setInode b j x) = Function.update (inode b) j x := by
  funext i
  obtain rfl | hne := eq_or_ne i j
  · rw [Function.update_self]
    exact get_set_self
  · rw [Function.update_of_ne hne]
    exact get_set_of_ne hne

theorem word_setWord (j : Fin 128) (x : UInt32) :
    word (setWord b j x) = Function.update (word b) j x := by
  funext i
  obtain rfl | hne := eq_or_ne i j
  · rw [Function.update_self]
    exact get_set_self
  · rw [Function.update_of_ne hne]
    exact get_set_of_ne hne

theorem word_zero (j : Fin 128) : word (fun _ ↦ 0) j = 0 := u32_dec_zero

end Block

/-! ## Places on the disk -/

section Places

variable (sb : Superblock) (d : Disk) (i b : ℕ)

/-- A block that begins with the super block. -/
def Block.ofSuper : Block := fun j ↦ if h : j.1 < 28 then superblock.enc sb ⟨j, h⟩ else 0

def readsb : Superblock := superblock.dec fun j ↦ d 1 ⟨j, j.2.trans (by decide)⟩

def iblock : ℕ := i / ipb + sb.inodestart.toNat

/-- The place of an inode in its block. -/
def islot : Fin 8 := ⟨i % ipb, Nat.mod_lt i (by decide)⟩

def inodeAt : Dinode := Block.inode (d (iblock sb i)) (islot i)

def bblock : ℕ := b / bpb + sb.bmapstart.toNat

/-- The place of a bit in its block. -/
def bslot : Fin (bsize * 8) := ⟨b % bpb, Nat.mod_lt b (by decide)⟩

/-- The block is marked in the free map. -/
def used : Bool := Bitmap.test (d (bblock sb b)) (bslot b)

variable {sb d}

theorem readsb_eq (h : d 1 = Block.ofSuper sb) : readsb d = sb := by
  have henc : (fun j : Fin 28 ↦ d 1 ⟨j, j.2.trans (by decide)⟩) = superblock.enc sb := by
    funext j
    rw [h, Block.ofSuper, dif_pos j.2]
  rw [readsb, henc, superblock.dec_enc]

end Places

/-! ## Names -/

/-- A string of C, without its terminating zero. -/
structure CString where
  bytes : List UInt8
  nonzero : 0 ∉ bytes
deriving DecidableEq

namespace CString

def byte (c : CString) (i : ℕ) : UInt8 := c.bytes.getD i 0

/-- `strncpy(_, c, DIRSIZ)` -/
def strncpy (c : CString) : Fin 14 → UInt8 := fun i ↦ c.byte i

end CString

/-- `strncmp(s, t, n) == 0`, from place `i` on. -/
def strncmp (s t : ℕ → UInt8) : ℕ → ℕ → Bool
  | 0, _ => true
  | n + 1, i => if s i ≠ t i then false else if s i = 0 then true else strncmp s t n (i + 1)

/-- `namecmp(c, e.name) == 0` -/
def namecmp (c : CString) (e : Dirent) : Bool :=
  strncmp c.byte (fun i ↦ if h : i < 14 then e.name ⟨i, h⟩ else 0) dirsiz 0

section Names

variable {c c' : CString} {i n : ℕ}

theorem byte_eq_zero_of_le (h : c.byte i = 0) (hle : i ≤ n) : c.byte n = 0 := by
  have hlen : c.bytes.length ≤ i := by
    by_contra hlt
    rw [CString.byte, List.getD_eq_getElem _ _ (not_le.mp hlt)] at h
    exact c.nonzero (h ▸ List.getElem_mem _)
  exact List.getD_eq_default _ _ (hlen.trans hle)

theorem strncmp_iff {t : ℕ → UInt8} (ht : ∀ x < i + n, t x = c'.byte x) :
    strncmp c.byte t n i = true ↔ ∀ x, i ≤ x → x < i + n → c.byte x = c'.byte x := by
  induction n generalizing i with
  | zero => exact iff_of_true rfl fun x hx hx' ↦ absurd hx' (by omega)
  | succ n ih =>
    rw [strncmp, ht i (by omega)]
    split_ifs with hne h0
    · exact iff_of_false id fun h ↦ hne (h i le_rfl (by omega))
    · refine iff_of_true rfl fun x hx _ ↦ ?_
      rw [byte_eq_zero_of_le h0 hx, byte_eq_zero_of_le (not_not.mp hne ▸ h0) hx]
    · rw [ih fun x hx ↦ ht x (by omega)]
      refine ⟨fun h x hx hx' ↦ ?_, fun h x hx hx' ↦ h x (by omega) (by omega)⟩
      obtain rfl | hlt := hx.eq_or_lt
      · exact not_not.mp hne
      · exact h x hlt (by omega)

theorem namecmp_iff {num : UInt16} :
    namecmp c ⟨num, c'.strncpy⟩ = true ↔ c.strncpy = c'.strncpy := by
  have ht (x : ℕ) (hx : x < 0 + dirsiz) :
      (fun i ↦ if h : i < 14 then c'.strncpy ⟨i, h⟩ else 0) x = c'.byte x :=
    dif_pos (show x < 14 by rw [dirsiz] at hx; omega)
  rw [namecmp, strncmp_iff ht]
  constructor
  · intro h
    funext x
    exact h x (Nat.zero_le _) (by rw [dirsiz]; omega)
  · intro h x _ hx
    rw [dirsiz] at hx
    exact congrFun h ⟨x, by omega⟩

end Names

end SistemasOperacionais.Xv6.Fs
