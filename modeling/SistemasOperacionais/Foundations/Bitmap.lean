import Mathlib.Data.Fin.Tuple.Basic
import Mathlib.Logic.Equiv.Fin.Basic
import Mathlib.Tactic

/-!
# Bitmaps

An array of bytes as an array of bits, eight to a byte and the lowest first, tested and changed with
masks.
-/

namespace Foundations.Bitmap

open Function

def mask (i : Fin 8) : UInt8 := 1 <<< UInt8.ofNat i

theorem mask_ne_zero : ∀ i, mask i ≠ 0 := by decide

theorem mask_and_mask : ∀ {i j}, j ≠ i → mask i &&& mask j = 0 := by decide

theorem not_mask_and_mask : ∀ {i j}, j ≠ i → ~~~mask i &&& mask j = mask j := by decide

theorem or_and_mask (x y z : UInt8) : (x ||| y) &&& z = (x &&& z) ||| (y &&& z) := by
  refine UInt8.toBitVec_inj.mp ?_
  rw [UInt8.toBitVec_and, UInt8.toBitVec_or, UInt8.toBitVec_or, UInt8.toBitVec_and,
    UInt8.toBitVec_and]
  ext i hi
  simp only [BitVec.getElem_and, BitVec.getElem_or, Bool.and_or_distrib_right]

variable {n : ℕ} {f : Fin n → UInt8} {i j : Fin (n * 8)}

def test (f : Fin n → UInt8) (i : Fin (n * 8)) : Bool := f i.divNat &&& mask i.modNat != 0

def mark (f : Fin n → UInt8) (i : Fin (n * 8)) : Fin n → UInt8 :=
  update f i.divNat (f i.divNat ||| mask i.modNat)

def clear (f : Fin n → UInt8) (i : Fin (n * 8)) : Fin n → UInt8 :=
  update f i.divNat (f i.divNat &&& ~~~mask i.modNat)

/-- Two bits are in different bytes or in different places of one. -/
theorem eq_of_divNat_of_modNat (hd : j.divNat = i.divNat) (hm : j.modNat = i.modNat) : j = i :=
  finProdFinEquiv.symm.injective (Prod.ext hd hm)

theorem test_mark : test (mark f i) j = (decide (j = i) || test f j) := by
  simp only [test, mark]
  obtain hd | hd := eq_or_ne j.divNat i.divNat
  · rw [hd, update_self, or_and_mask]
    obtain hm | hm := eq_or_ne j.modNat i.modNat
    · obtain rfl := eq_of_divNat_of_modNat hd hm
      simp [UInt8.or_eq_zero_iff, mask_ne_zero]
    · have hne : j ≠ i := fun h ↦ hm (by rw [h])
      simp [mask_and_mask hm, hne]
  · have hne : j ≠ i := fun h ↦ hd (by rw [h])
    simp [update_of_ne hd, hne]

theorem test_clear : test (clear f i) j = (!decide (j = i) && test f j) := by
  simp only [test, clear]
  obtain hd | hd := eq_or_ne j.divNat i.divNat
  · rw [hd, update_self, UInt8.and_assoc]
    obtain hm | hm := eq_or_ne j.modNat i.modNat
    · obtain rfl := eq_of_divNat_of_modNat hd hm
      simp
    · have hne : j ≠ i := fun h ↦ hm (by rw [h])
      simp [not_mask_and_mask hm, hne]
  · have hne : j ≠ i := fun h ↦ hd (by rw [h])
    simp [update_of_ne hd, hne]

end Foundations.Bitmap
