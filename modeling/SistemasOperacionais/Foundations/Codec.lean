import SistemasOperacionais.Foundations.ByteMemory
import Mathlib.Data.Fin.Tuple.Basic
import Mathlib.Logic.Equiv.Fin.Basic

/-!
# Records laid over bytes

A program that keeps records of fixed size in an array of bytes reads any bytes as a record, and
gets back the record that it has written last. A `Codec` is such a layout: decoding is total, and it
undoes encoding. Numbers are little-endian; records are put together from their fields, and an array
of records can be read and written at one place without touching the others.
-/

namespace Foundations

variable {α β : Type*} {n m k : ℕ}

/-- A layout of the values of `α` on `n` bytes. -/
structure Codec (α : Type*) (n : ℕ) where
  enc : α → Fin n → UInt8
  dec : (Fin n → UInt8) → α
  dec_enc : ∀ a, dec (enc a) = a

namespace Codec

/-! ## Numbers -/

/-- The lowest `n` bytes of a number. -/
def bytesOf (n v : ℕ) : Fin n → UInt8 := fun i ↦ ByteMemory.store (fun _ ↦ 0) 0 n v i

/-- The number that `n` bytes stand for. -/
def valueOf (f : Fin n → UInt8) : ℕ :=
  ByteMemory.load (fun i ↦ if h : i < n then f ⟨i, h⟩ else 0) 0 n

theorem valueOf_bytesOf (n v : ℕ) : valueOf (bytesOf n v) = v % 256 ^ n := by
  rw [valueOf, ← ByteMemory.load_store_self (m := fun _ ↦ 0) (a := 0)]
  refine ByteMemory.load_congr fun x _ hx ↦ ?_
  rw [Nat.zero_add] at hx
  rw [dif_pos hx, bytesOf]

theorem valueOf_zero (n : ℕ) : valueOf (fun _ : Fin n ↦ 0) = 0 := by
  have h := valueOf_bytesOf n 0
  rw [Nat.zero_mod] at h
  rw [← h]
  congr 1
  funext i
  simp [bytesOf, ByteMemory.store]

theorem u16_dec_enc (x : UInt16) : UInt16.ofNat (valueOf (bytesOf 2 x.toNat)) = x := by
  have hlt : x.toNat < 256 ^ 2 := x.toNat_lt
  rw [valueOf_bytesOf, Nat.mod_eq_of_lt hlt, UInt16.ofNat_toNat]

theorem u32_dec_enc (x : UInt32) : UInt32.ofNat (valueOf (bytesOf 4 x.toNat)) = x := by
  have hlt : x.toNat < 256 ^ 4 := x.toNat_lt
  rw [valueOf_bytesOf, Nat.mod_eq_of_lt hlt, UInt32.ofNat_toNat]

def u8 : Codec UInt8 1 := ⟨fun x _ ↦ x, fun f ↦ f (Fin.last 0), fun _ ↦ rfl⟩

def u16 : Codec UInt16 2 := ⟨fun x ↦ bytesOf 2 x.toNat, fun f ↦ .ofNat (valueOf f), u16_dec_enc⟩

def u32 : Codec UInt32 4 := ⟨fun x ↦ bytesOf 4 x.toNat, fun f ↦ .ofNat (valueOf f), u32_dec_enc⟩

theorem u16_dec_zero : u16.dec (fun _ ↦ 0) = 0 := congrArg UInt16.ofNat (valueOf_zero 2)

theorem u32_dec_zero : u32.dec (fun _ ↦ 0) = 0 := congrArg UInt32.ofNat (valueOf_zero 4)

/-! ## Fields -/

theorem prod_dec_enc (c : Codec α n) (c' : Codec β m) (x : α × β) :
    (c.dec fun i ↦ Fin.append (c.enc x.1) (c'.enc x.2) (Fin.castAdd m i),
      c'.dec fun i ↦ Fin.append (c.enc x.1) (c'.enc x.2) (Fin.natAdd n i)) = x := by
  simp only [Fin.append_left, Fin.append_right, c.dec_enc, c'.dec_enc]

/-- One field after the other. -/
def prod (c : Codec α n) (c' : Codec β m) : Codec (α × β) (n + m) where
  enc x := Fin.append (c.enc x.1) (c'.enc x.2)
  dec f := (c.dec fun i ↦ f (Fin.castAdd m i), c'.dec fun i ↦ f (Fin.natAdd n i))
  dec_enc := prod_dec_enc c c'

theorem iso_dec_enc (c : Codec α n) {f : α → β} {g : β → α} (h : ∀ b, f (g b) = b) (b : β) :
    f (c.dec (c.enc (g b))) = b := by rw [c.dec_enc, h]

/-- The fields put together as another type. -/
def iso (c : Codec α n) (f : α → β) (g : β → α) (h : ∀ b, f (g b) = b) : Codec β n where
  enc b := c.enc (g b)
  dec x := f (c.dec x)
  dec_enc := iso_dec_enc c h

/-! ## Arrays -/

def get (c : Codec α n) (f : Fin (k * n) → UInt8) (j : Fin k) : α :=
  c.dec fun i ↦ f (finProdFinEquiv (j, i))

def set (c : Codec α n) (f : Fin (k * n) → UInt8) (j : Fin k) (a : α) : Fin (k * n) → UInt8 :=
  fun x ↦ if x.divNat = j then c.enc a x.modNat else f x

section Array

variable {c : Codec α n} {f : Fin (k * n) → UInt8} {j j' : Fin k} {a : α}

theorem divNat_place (j : Fin k) (i : Fin n) : (finProdFinEquiv (j, i)).divNat = j :=
  congrArg Prod.fst (finProdFinEquiv.symm_apply_apply (j, i))

theorem modNat_place (j : Fin k) (i : Fin n) : (finProdFinEquiv (j, i)).modNat = i :=
  congrArg Prod.snd (finProdFinEquiv.symm_apply_apply (j, i))

@[simp] theorem get_set_self : c.get (c.set f j a) j = a := by
  simp only [get, set, divNat_place, modNat_place, if_true]
  exact c.dec_enc a

theorem get_set_of_ne (h : j' ≠ j) : c.get (c.set f j a) j' = c.get f j' := by
  simp only [get, set, divNat_place, if_neg h]

theorem array_dec_enc (c : Codec α n) (g : Fin k → α) :
    (fun j ↦ c.dec fun i ↦ c.enc (g (finProdFinEquiv (j, i)).divNat)
      (finProdFinEquiv (j, i)).modNat) = g := by
  funext j
  simp only [divNat_place, modNat_place]
  exact c.dec_enc (g j)

end Array

def array (k : ℕ) (c : Codec α n) : Codec (Fin k → α) (k * n) where
  enc g x := c.enc (g x.divNat) x.modNat
  dec f j := c.get f j
  dec_enc := array_dec_enc c

end Codec

end Foundations
