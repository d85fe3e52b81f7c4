import SistemasOperacionais.Foundations.Codec

/-!
# Pages and the entries of page tables

A physical page is 4096 bytes, and a page table or a page directory is such a page, read as 1024
little-endian words. A word holds the number of a page and twelve flag bits. The number is what is
left of `PTE_ADDR` without its twelve zeros.
-/

namespace SistemasOperacionais.Xv6.Vm

open Foundations

/-- A physical page, by its number. -/
abbrev Frame := ℕ

def pgsize : ℕ := 4096

/-- `NPDENTRIES` and `NPTENTRIES` -/
def nentries : ℕ := 1024

abbrev Page := Fin (1024 * 4) → UInt8

/-! ## Words -/

namespace Page

variable {b : Page} {i off : ℕ} {w : UInt32} {l : List UInt8}

def word (b : Page) (i : ℕ) : UInt32 := if h : i < 1024 then Codec.u32.get b ⟨i, h⟩ else 0

def setWord (b : Page) (i : ℕ) (w : UInt32) : Page :=
  if h : i < 1024 then Codec.u32.set b ⟨i, h⟩ w else b

/-- `memset` of the whole page -/
def fill (x : UInt8) : Page := fun _ ↦ x

/-- `memmove` of `l` to the offset `off` -/
def put (b : Page) (off : ℕ) (l : List UInt8) : Page :=
  fun i ↦ if off ≤ i then l.getD (i - off) (b i) else b i

theorem word_setWord (hi : i < nentries) : (b.setWord i w).word = Function.update b.word i w := by
  have hi' : i < 1024 := hi
  funext j
  by_cases hj : j = i
  · subst hj
    rw [Function.update_self, word, dif_pos hi', setWord, dif_pos hi', Codec.get_set_self]
  · rw [Function.update_of_ne hj, word, word, setWord, dif_pos hi']
    split_ifs with hlt
    · exact Codec.get_set_of_ne fun h ↦ hj (Fin.mk.inj h)
    · rfl

theorem word_fill_zero (i : ℕ) : (fill 0).word i = 0 := by
  rw [word]
  split_ifs
  · exact Codec.u32_dec_zero
  · rfl

end Page

/-! ## Entries -/

/-- `PTE_P`, `PTE_W` and `PTE_U` -/
def flagP : UInt32 := 1

def flagW : UInt32 := 2

def flagU : UInt32 := 4

def pteAddr (e : UInt32) : Frame := e.toNat / pgsize

def pteFlags (e : UInt32) : UInt32 := e &&& 0xFFF

/-- `*pte & PTE_P` and `*pte & PTE_U` -/
def present (e : UInt32) : Bool := e &&& flagP != 0

def user (e : UInt32) : Bool := e &&& flagU != 0

/-- `pa | perm | PTE_P`, for the address `pa` of a page -/
def mkPte (pa : ℕ) (perm : UInt32) : UInt32 := UInt32.ofNat (pa * pgsize) ||| perm ||| flagP

section Bits

variable {pa : ℕ} {perm e : UInt32}

theorem toNat_pteFlags (e : UInt32) : (pteFlags e).toNat = e.toNat % 2 ^ 12 := by
  rw [pteFlags, UInt32.toNat_and]
  exact Nat.and_two_pow_sub_one_eq_mod e.toNat 12

theorem pteFlags_lt (e : UInt32) : (pteFlags e).toNat < 2 ^ 12 := by
  rw [toNat_pteFlags]
  exact Nat.mod_lt _ (by decide)

theorem present_iff : present e = true ↔ e.toNat.testBit 0 = true := by
  have hval : (e &&& flagP).toNat = e.toNat % 2 ^ 1 := by
    rw [UInt32.toNat_and]
    exact Nat.and_two_pow_sub_one_eq_mod e.toNat 1
  rw [present, bne_iff_ne, Ne, ← UInt32.toNat_inj, hval, Nat.testBit_zero, decide_eq_true_iff]
  exact Nat.mod_two_ne_zero

@[simp] theorem present_zero : present 0 = false := by decide

theorem toNat_or_flagP_lt (hperm : perm.toNat < 2 ^ 12) : (perm ||| flagP).toNat < 2 ^ 12 := by
  rw [UInt32.toNat_or]
  exact Nat.or_lt_two_pow hperm (by decide)

theorem toNat_mkPte (hpa : pa < 2 ^ 20) (hperm : perm.toNat < 2 ^ 12) :
    (mkPte pa perm).toNat = pa * 2 ^ 12 + (perm ||| flagP).toNat := by
  have hfit : pa * pgsize < 2 ^ 32 := by
    simp only [pgsize]
    omega
  rw [mkPte, UInt32.or_assoc, UInt32.toNat_or, UInt32.toNat_ofNat_of_lt' hfit,
    ← Nat.shiftLeft_eq, Nat.shiftLeft_add_eq_or_of_lt (toNat_or_flagP_lt hperm), Nat.shiftLeft_eq]
  rfl

theorem pteAddr_mkPte (hpa : pa < 2 ^ 20) (hperm : perm.toNat < 2 ^ 12) :
    pteAddr (mkPte pa perm) = pa := by
  have hlow := toNat_or_flagP_lt hperm
  rw [pteAddr, toNat_mkPte hpa hperm]
  change (pa * 4096 + (perm ||| flagP).toNat) / 4096 = pa
  omega

theorem pteFlags_mkPte (hpa : pa < 2 ^ 20) (hperm : perm.toNat < 2 ^ 12) :
    pteFlags (mkPte pa perm) = perm ||| flagP := by
  have hlow := toNat_or_flagP_lt hperm
  rw [← UInt32.toNat_inj, toNat_pteFlags, toNat_mkPte hpa hperm]
  omega

@[simp] theorem present_mkPte (pa : ℕ) (perm : UInt32) : present (mkPte pa perm) = true := by
  rw [present_iff, mkPte, UInt32.toNat_or, Nat.testBit_or]
  exact Bool.or_eq_true_iff.mpr (.inr rfl)

theorem pteFlags_or_present (h : present e = true) : pteFlags e ||| flagP = pteFlags e := by
  rw [← UInt32.toNat_inj, UInt32.toNat_or, toNat_pteFlags]
  refine Nat.eq_of_testBit_eq fun i ↦ ?_
  rw [Nat.testBit_or, Nat.testBit_mod_two_pow]
  by_cases hi : i = 0
  · subst hi
    rw [present_iff.mp h]
    rfl
  · have hone : Nat.testBit flagP.toNat i = false := Nat.testBit_two_pow_of_ne (Ne.symm hi)
    rw [hone, Bool.or_false]

end Bits

end SistemasOperacionais.Xv6.Vm
