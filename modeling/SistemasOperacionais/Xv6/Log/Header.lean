import SistemasOperacionais.Xv6.Block

/-!
# The header of the log

`struct logheader` of `log.c`: the number `n` of logged blocks and the array `block` of their
numbers. In memory it is the list of the first `n` entries. On disk it stands at the start of the
header block; `write_head` stores `n` and the first `n` entries and leaves the rest of the block as
it was.
-/

namespace SistemasOperacionais.Xv6.Log

def logsize : ℕ := 30

/-- Log absorption in `log_write`: a block that is logged already is not logged again. -/
def absorb (lh : List UInt32) (k : UInt32) : List UInt32 := if k ∈ lh then lh else lh ++ [k]

theorem mem_absorb {lh : List UInt32} {k k' : UInt32} : k' ∈ absorb lh k ↔ k' ∈ lh ∨ k' = k := by
  rw [absorb]
  split_ifs with hk
  · exact ⟨Or.inl, fun h ↦ h.elim id fun heq ↦ heq ▸ hk⟩
  · rw [List.mem_append, List.mem_singleton]

theorem nodup_absorb {lh : List UInt32} {k : UInt32} (h : lh.Nodup) : (absorb lh k).Nodup := by
  rw [absorb]
  split_ifs with hk
  · exact h
  · exact List.nodup_append.mpr ⟨h, List.nodup_singleton k, fun x hx y hy heq ↦
      hk (List.mem_singleton.mp hy ▸ heq ▸ hx)⟩

/-- The field `n` of the header in a block. -/
def headN (b : Block) : ℤ := (UInt32.ofNat (b.load 0 4)).toInt32.toInt

/-- What `read_head` takes from the header block. -/
def readHead (b : Block) : List UInt32 :=
  (List.range (headN b).toNat).map fun i ↦ .ofNat (b.load (4 + 4 * i) 4)

/-- The loop of `write_head`, from entry `i` on. -/
def storeEntries (b : Block) (i : ℕ) : List UInt32 → Block
  | [] => b
  | x :: xs => storeEntries (b.store (4 + 4 * i) 4 x.toNat) (i + 1) xs

/-- What `write_head` leaves in the header block. -/
def writeHead (lh : List UInt32) (b : Block) : Block := storeEntries (b.store 0 4 lh.length) 0 lh

variable {b : Block} {i : ℕ} {lh : List UInt32}

theorem load_storeEntries_of_le {off w : ℕ} (hoff : off + w ≤ 4 + 4 * i)
    (hfit : 4 + 4 * (i + lh.length) ≤ bsize) :
    (storeEntries b i lh).load off w = b.load off w := by
  induction lh generalizing b i with
  | nil => rfl
  | cons x xs ih =>
    rw [List.length_cons] at hfit
    rw [storeEntries, ih (by omega) (by omega)]
    exact Block.load_store_of_disjoint (by omega) (Or.inr hoff)

theorem load_storeEntries {j : ℕ} {x : UInt32} (hx : lh[j]? = some x)
    (hfit : 4 + 4 * (i + lh.length) ≤ bsize) :
    (storeEntries b i lh).load (4 + 4 * (i + j)) 4 = x.toNat := by
  induction lh generalizing b i j with
  | nil => simp at hx
  | cons y ys ih =>
    rw [List.length_cons] at hfit
    rw [storeEntries]
    cases j with
    | zero =>
      obtain rfl : y = x := by simpa using hx
      have hlt := y.toNat_lt
      rw [Nat.add_zero i, load_storeEntries_of_le (by omega) (by omega),
        Block.load_store_self (by omega), Nat.mod_eq_of_lt (by omega)]
    | succ j =>
      rw [List.getElem?_cons_succ] at hx
      have hplace : i + (j + 1) = i + 1 + j := by omega
      rw [hplace, ih hx (by omega)]

theorem headN_writeHead (h : 4 + 4 * lh.length ≤ bsize) : headN (writeHead lh b) = lh.length := by
  have hload : (writeHead lh b).load 0 4 = lh.length := by
    rw [writeHead, load_storeEntries_of_le (by omega) (by omega)]
    rw [bsize] at h
    rw [Block.load_store_self (by decide), Nat.mod_eq_of_lt (by omega)]
  rw [bsize] at h
  rw [headN, hload]
  exact Int32.toInt_ofNat_of_lt (by omega)

/-- **The header survives the disk.** -/
theorem readHead_writeHead (h : 4 + 4 * lh.length ≤ bsize) : readHead (writeHead lh b) = lh := by
  refine List.ext_getElem? fun i ↦ ?_
  rw [readHead, headN_writeHead h, Int.toNat_natCast, List.getElem?_map]
  cases hx : lh[i]? with
  | none =>
    rw [List.getElem?_eq_none_iff] at hx
    rw [List.getElem?_eq_none_iff.mpr (by rwa [List.length_range]), Option.map_none]
  | some x =>
    have hlt : i < lh.length := (List.getElem?_eq_some_iff.mp hx).1
    have hload := load_storeEntries (b := b.store 0 4 lh.length) (i := 0) hx (by omega)
    rw [Nat.zero_add] at hload
    rw [List.getElem?_range hlt, Option.map_some, writeHead, hload, UInt32.ofNat_toNat]

theorem readHead_eq_nil (h : headN b = 0) : readHead b = [] := by
  rw [readHead, h]
  rfl

end SistemasOperacionais.Xv6.Log
