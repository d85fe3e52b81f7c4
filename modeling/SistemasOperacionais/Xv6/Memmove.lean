import SistemasOperacionais.Foundations.ByteMemory
import SistemasOperacionais.Foundations.Copying

/-!
# The two `memmove`

The one of `ulib.c`, for user programs, and the one of `string.c`, for the kernel. Pointers are 32
bits wide and wrap around. The kernel's one looks whether the source reaches into the destination
from below and copies downwards then; the user's one copies upwards in any case.
-/

namespace SistemasOperacionais.Xv6.Memmove

open Foundations

/-- `while(n-- > 0) *d++ = *s++;`, with `n` rounds to go -/
def upLoop (m : ByteMemory) (d s : UInt32) : ℕ → ByteMemory
  | 0 => m
  | n + 1 => upLoop (Function.update m d.toNat (m s.toNat)) (d + 1) (s + 1) n

/-- `while(n-- > 0) *--d = *--s;`, with `n` rounds to go -/
def downLoop (m : ByteMemory) (d s : UInt32) : ℕ → ByteMemory
  | 0 => m
  | n + 1 => downLoop (Function.update m (d - 1).toNat (m (s - 1).toNat)) (d - 1) (s - 1) n

/-- `memmove` of `ulib.c`, with the memory that it leaves. A loop with a negative `n` has no
rounds. -/
def Ulib.memmove (m : ByteMemory) (vdst vsrc : UInt32) (n : Int32) : ByteMemory × UInt32 :=
  (upLoop m vdst vsrc n.toInt.toNat, vdst)

/-- `memmove` of `string.c`, with the memory that it leaves -/
def Kernel.memmove (m : ByteMemory) (dst src n : UInt32) : ByteMemory × UInt32 :=
  if src < dst ∧ dst < src + n then
    (downLoop m (dst + n) (src + n) n.toNat, dst)
  else
    (upLoop m dst src n.toNat, dst)

variable {m : ByteMemory} {d s : UInt32} {n : ℕ}

/-! ## The loops -/

theorem toNat_add_one {p : UInt32} (h : p.toNat + (n + 1) ≤ 2 ^ 32) (hn : n ≠ 0) :
    (p + 1).toNat = p.toNat + 1 := by
  rw [UInt32.toNat_add, UInt32.toNat_one]
  omega

theorem upLoop_eq_copyUp (hd : d.toNat + n ≤ 2 ^ 32) (hs : s.toNat + n ≤ 2 ^ 32) :
    upLoop m d s n = copyUp m d.toNat s.toNat n := by
  induction n generalizing m d s with
  | zero => rfl
  | succ n ih =>
    rw [upLoop, copyUp]
    by_cases hn : n = 0
    · -- the pointers may have come to the end of the address space
      rw [hn, upLoop, copyUp]
    · have hd' := toNat_add_one hd hn
      have hs' := toNat_add_one hs hn
      rw [ih (by omega) (by omega), hd', hs']

theorem toNat_sub_one {p : UInt32} {a : ℕ} (h : p.toNat = (a + (n + 1)) % 2 ^ 32)
    (ha : a + (n + 1) ≤ 2 ^ 32) : (p - 1).toNat = a + n := by
  rw [UInt32.toNat_sub, UInt32.toNat_one]
  omega

theorem downLoop_eq_copyDown {a b : ℕ} (hd : d.toNat = (a + n) % 2 ^ 32)
    (hs : s.toNat = (b + n) % 2 ^ 32) (ha : a + n ≤ 2 ^ 32) (hb : b + n ≤ 2 ^ 32) :
    downLoop m d s n = copyDown m a b n := by
  induction n generalizing m d s with
  | zero => rfl
  | succ n ih =>
    have hd' := toNat_sub_one hd ha
    have hs' := toNat_sub_one hs hb
    rw [downLoop, copyDown, hd', hs']
    exact ih (by omega) (by omega) (by omega) (by omega)

/-! ## The two functions -/

/-- **The kernel's `memmove`** reads everything before it writes. -/
theorem kernel_memmove_eq_moved {n : UInt32} (hd : d.toNat + n.toNat ≤ 2 ^ 32)
    (hs : s.toNat + n.toNat ≤ 2 ^ 32) :
    Kernel.memmove m d s n = (moved m d.toNat s.toNat n.toNat, d) := by
  have hlt : s < d ↔ s.toNat < d.toNat := UInt32.lt_iff_toNat_lt
  rw [Kernel.memmove]
  split_ifs with hover
  · have hend : ∀ p : UInt32, (p + n).toNat = (p.toNat + n.toNat) % 2 ^ 32 := fun p ↦
      UInt32.toNat_add p n
    rw [downLoop_eq_copyDown (hend d) (hend s) hd hs, copyDown_eq_moved (hlt.mp hover.1).le]
  · rw [upLoop_eq_copyUp hd hs]
    refine congrArg (·, d) (copyUp_eq_moved_iff.mpr (.inl fun hin ↦ hover ⟨hlt.mpr hin.1, ?_⟩))
    -- the source ends before the destination does, so `s + n` has not wrapped around
    rw [UInt32.lt_iff_toNat_lt, UInt32.toNat_add]
    omega

theorem toNat_toUInt32 {n : Int32} (hn : 0 ≤ n.toInt) : n.toUInt32.toNat = n.toInt.toNat := by
  have hint : n.toInt = if 2 * n.toUInt32.toNat < 2 ^ 32 then (n.toUInt32.toNat : ℤ)
      else n.toUInt32.toNat - 2 ^ 32 := BitVec.toInt_eq_toNat_cond n.toBitVec
  have hlt := n.toUInt32.toNat_lt
  split_ifs at hint <;> omega

/-- **The two functions agree** and move the source to the destination, if and only if the
destination does not start inside the source, or the source repeats with their distance as its
period. -/
theorem memmove_agree_iff {dst src : UInt32} {n : Int32} (hn : 0 ≤ n.toInt)
    (hdst : dst.toNat + n.toInt.toNat ≤ 2 ^ 32) (hsrc : src.toNat + n.toInt.toNat ≤ 2 ^ 32) :
    ((Ulib.memmove m dst src n).1 = (Kernel.memmove m dst src n.toUInt32).1 ∧
      ∀ i < n.toInt.toNat, (Ulib.memmove m dst src n).1 (dst.toNat + i) = m (src.toNat + i)) ↔
    ¬(src.toNat < dst.toNat ∧ dst.toNat < src.toNat + n.toInt.toNat) ∨
      ∀ i < n.toInt.toNat, m (src.toNat + i) = m (src.toNat + i % (dst.toNat - src.toNat)) := by
  have hcount := toNat_toUInt32 hn
  rw [← hcount] at hdst hsrc ⊢
  have hkernel : (Kernel.memmove m dst src n.toUInt32).1 =
      moved m dst.toNat src.toNat n.toUInt32.toNat :=
    congrArg Prod.fst (kernel_memmove_eq_moved hdst hsrc)
  have hulib : (Ulib.memmove m dst src n).1 = copyUp m dst.toNat src.toNat n.toUInt32.toNat := by
    rw [Ulib.memmove, ← hcount, upLoop_eq_copyUp hdst hsrc]
  rw [hkernel, hulib, ← copyUp_eq_moved_iff]
  refine and_iff_left_of_imp fun heq i hi ↦ ?_
  rw [heq, moved_add hi]

/-- Two bytes are moved down by one. -/
theorem memmove_agree_down :
    (Ulib.memmove UInt8.ofNat 100 101 2).1 = (Kernel.memmove UInt8.ofNat 100 101 2).1 ∧
      ∀ i < 2, (Ulib.memmove UInt8.ofNat 100 101 2).1 (100 + i) = UInt8.ofNat (101 + i) :=
  (memmove_agree_iff (n := 2) (by decide) (by decide) (by decide)).mpr (.inl (by decide))

/-- Two bytes are moved up by one: the first of them arrives twice. -/
theorem not_memmove_agree :
    ¬((Ulib.memmove UInt8.ofNat 101 100 2).1 = (Kernel.memmove UInt8.ofNat 101 100 2).1 ∧
      ∀ i < 2, (Ulib.memmove UInt8.ofNat 101 100 2).1 (101 + i) = UInt8.ofNat (100 + i)) := by
  rintro ⟨-, hmoved⟩
  exact absurd (hmoved 1 (by decide)) (by decide)

end SistemasOperacionais.Xv6.Memmove
