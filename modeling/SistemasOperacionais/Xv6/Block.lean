import SistemasOperacionais.Foundations.ByteMemory

/-!
# Disk blocks

The kernel and `mkfs` see the disk as an array of blocks of `BSIZE` bytes, and the numbers in a
block are little-endian. Reads and stores inside a block are those of a memory of bytes.
-/

namespace SistemasOperacionais.Xv6

open Foundations

def bsize : ℕ := 512

abbrev Block := Fin bsize → UInt8

namespace Block

/-- A block as a memory; nothing of the program looks behind its end. -/
def mem (b : Block) : ByteMemory := fun i ↦ if h : i < bsize then b ⟨i, h⟩ else 0

def ofMem (m : ByteMemory) : Block := fun i ↦ m i

def load (b : Block) (off w : ℕ) : ℕ := b.mem.load off w

def store (b : Block) (off w v : ℕ) : Block := ofMem (b.mem.store off w v)

variable {b : Block} {m : ByteMemory} {i off off' w w' v : ℕ}

theorem mem_ofMem (h : i < bsize) : (ofMem m).mem i = m i := by rw [mem, dif_pos h, ofMem]

theorem load_ofMem (h : off + w ≤ bsize) : (ofMem m).load off w = m.load off w :=
  ByteMemory.load_congr fun _ _ hlt ↦ mem_ofMem (hlt.trans_le h)

theorem load_store_self (h : off + w ≤ bsize) : (b.store off w v).load off w = v % 256 ^ w := by
  rw [store, load_ofMem h, ByteMemory.load_store_self]

theorem load_store_of_disjoint (h : off' + w' ≤ bsize) (hd : off + w ≤ off' ∨ off' + w' ≤ off) :
    (b.store off w v).load off' w' = b.load off' w' := by
  rw [store, load_ofMem h, ByteMemory.load_store_of_disjoint hd, load]

end Block

end SistemasOperacionais.Xv6
