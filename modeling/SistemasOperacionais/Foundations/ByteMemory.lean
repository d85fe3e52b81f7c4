import Mathlib.Tactic

/-!
# A memory of bytes

A memory gives a byte at every address, and numbers are kept in it little-endian. The two facts a
program needs about a store are the usual ones: reading back what was stored gives it up to the
width, and a read elsewhere does not notice. A read inside a store, at a smaller width, sees some of
the digits of the number to base `256`; that is what a program gets that reads an array through a
pointer of another type.
-/

namespace Foundations

abbrev ByteMemory := ℕ → UInt8

namespace ByteMemory

/-- The number in the `n` bytes from `a` on. -/
def load (m : ByteMemory) : ℕ → ℕ → ℕ
  | _, 0 => 0
  | a, n + 1 => (m a).toNat + 256 * load m (a + 1) n

/-- Put `v` into the `n` bytes from `a` on. -/
def store (m : ByteMemory) (a n v : ℕ) : ByteMemory := fun x ↦
  if a ≤ x ∧ x < a + n then UInt8.ofNat (v / 256 ^ (x - a)) else m x

variable {m m' : ByteMemory} {a b n k v : ℕ}

theorem load_congr (h : ∀ x, a ≤ x → x < a + n → m x = m' x) : load m a n = load m' a n := by
  induction n generalizing a with
  | zero => rfl
  | succ n ih =>
    rw [load, load, h a le_rfl (by omega), ih fun x hlo hhi ↦ h x (by omega) (by omega)]

theorem load_store_self : load (store m a n v) a n = v % 256 ^ n := by
  induction n generalizing m a v with
  | zero => simp [load, Nat.mod_one]
  | succ n ih =>
    have hrest : load (store m a (n + 1) v) (a + 1) n =
        load (store m (a + 1) n (v / 256)) (a + 1) n := by
      refine load_congr fun x hlo hhi ↦ ?_
      have hsub : x - a = x - (a + 1) + 1 := by omega
      rw [store, store, if_pos (by omega), if_pos (by omega), hsub, pow_succ, Nat.mul_comm,
        Nat.div_div_eq_div_mul]
    have hfirst : (store m a (n + 1) v a).toNat = v % 256 := by
      rw [store, if_pos (by omega), Nat.sub_self, pow_zero, Nat.div_one]
      simp
    rw [load, hrest, ih, hfirst, pow_succ, Nat.mul_comm (256 ^ n) 256, Nat.mod_mul]

theorem load_store_of_disjoint (h : a + n ≤ b ∨ b + k ≤ a) :
    load (store m a n v) b k = load m b k := by
  refine load_congr fun x hlo hhi ↦ ?_
  rw [store, if_neg (by omega)]

theorem load_store_inside {i : ℕ} (h : i + k ≤ n) :
    load (store m a n v) (a + i) k = v / 256 ^ i % 256 ^ k := by
  rw [← load_store_self (m := m) (a := a + i)]
  refine load_congr fun x hlo hhi ↦ ?_
  have hsub : x - a = i + (x - (a + i)) := by omega
  rw [store, store, if_pos (by omega), if_pos (by omega), hsub, pow_add, Nat.div_div_eq_div_mul]

/-- An array of numbers, `w` bytes each, from `a` on. -/
def storeArray (m : ByteMemory) (w : ℕ) : ℕ → List ℕ → ByteMemory
  | _, [] => m
  | a, v :: vs => store (storeArray m w (a + w) vs) a w v

theorem load_storeArray {w i j : ℕ} {vs : List ℕ} (hv : vs[j]? = some v) (h : i + k ≤ w) :
    load (storeArray m w a vs) (a + w * j + i) k = v / 256 ^ i % 256 ^ k := by
  induction vs generalizing a j with
  | nil => simp at hv
  | cons x xs ih =>
    cases j with
    | zero =>
      obtain rfl : x = v := by simpa using hv
      rw [storeArray, Nat.mul_zero, Nat.add_zero, load_store_inside h]
    | succ j =>
      rw [List.getElem?_cons_succ] at hv
      have hplace : a + w * (j + 1) + i = a + w + w * j + i := by ring
      rw [storeArray, hplace, load_store_of_disjoint (Or.inl (by omega)), ih hv]

end ByteMemory

end Foundations
