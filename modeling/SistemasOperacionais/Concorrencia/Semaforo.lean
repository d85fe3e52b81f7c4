import SistemasOperacionais.Foundations.ByteMemory

/-!
# Semaphore sets

The functions of `mysem.c` over a set of System V semaphores. `semop` with one operation either
changes one value or has to wait, and waiting is `none`: the thread takes no step.

`sem_init_diff_val` passes its array of `int`s to `semctl` as an array of `unsigned short`s, so what
it initialises is read from the memory of the array two bytes at a time.
-/

namespace SistemasOperacionais.Mysem

open Foundations Function

/-- The values of a semaphore set. -/
abbrev Conjunto := ℕ → ℕ

/-- `sem_change`: a negative amount waits until the value allows it, amount `0` waits for `0`. -/
def semChange (S : Conjunto) (no : ℕ) (amount : ℤ) : Option Conjunto :=
  if 0 < amount then some (update S no (S no + amount.natAbs))
  else if amount < 0 then
    if amount.natAbs ≤ S no then some (update S no (S no - amount.natAbs)) else none
  else if S no = 0 then some S else none

variable {S S' : Conjunto} {no : ℕ}

@[simp]
theorem semChange_one : semChange S no 1 = some (update S no (S no + 1)) := rfl

/-- `sem_change(id, no, -1)` is the only operation here that waits. -/
theorem semChange_neg_one_eq_some :
    semChange S no (-1) = some S' ↔ 0 < S no ∧ S' = update S no (S no - 1) := by
  rw [semChange, if_neg (by decide), if_pos (by decide)]
  split_ifs with h
  · have hpos : 0 < S no := h
    simp [hpos, eq_comm]
  · have hzero : S no = 0 := by simpa using h
    simp [hzero]

theorem semChange_neg_one_eq_none : semChange S no (-1) = none ↔ S no = 0 := by
  rw [Option.eq_none_iff_forall_ne_some]
  simp [semChange_neg_one_eq_some]

theorem map_semChange_neg_one {α : Type*} {f : Conjunto → α} {x : α} :
    (semChange S no (-1)).map f = some x ↔ 0 < S no ∧ x = f (update S no (S no - 1)) := by
  simp [semChange_neg_one_eq_some, and_assoc, eq_comm]

/-- An `int` as the number in its four bytes. -/
def inteiro (x : ℤ) : ℕ := (x % 2 ^ 32).toNat

/-- `sem_init_diff_val` with the array at address `a` of the memory `m`: `SETALL` reads
`no_of_sems` values of type `unsigned short` from there. -/
def semInitDiffVal (m : ByteMemory) (a noOfSems : ℕ) (array : List ℤ) : Conjunto := fun i ↦
  if i < noOfSems then (m.storeArray 4 a (array.map inteiro)).load (a + 2 * i) 2 else 0

/-- Semaphore `i` gets one half of element `i / 2`, the low half when `i` is even. -/
theorem semInitDiffVal_apply {m : ByteMemory} {a n i : ℕ} {array : List ℤ} {x : ℤ} (hi : i < n)
    (hx : array[i / 2]? = some x) :
    semInitDiffVal m a n array i = inteiro x / 256 ^ (2 * (i % 2)) % 256 ^ 2 := by
  have hplace : a + 2 * i = a + 4 * (i / 2) + 2 * (i % 2) := by omega
  have hget : (array.map inteiro)[i / 2]? = some (inteiro x) := by rw [List.getElem?_map, hx]; rfl
  rw [semInitDiffVal, if_pos hi, hplace, ByteMemory.load_storeArray hget (by omega)]

/-! ## Which arrays arrive

An array of values in the range of `unsigned short`, as `int`s. Two bytes of each element are read
as a value and the other two as a zero, so the values arrive spread out: element `j` at semaphore
`2 * j`, and zeros between them. -/

/-- The `int` array with these values. -/
def arrayDe (valores : List UInt16) : List ℤ := valores.map fun v ↦ (v.toNat : ℤ)

theorem inteiro_natCast (v : UInt16) : inteiro v.toNat = v.toNat := by
  have hlt := v.toNat_lt
  rw [inteiro]
  omega

variable {m : ByteMemory} {a i : ℕ} {valores : List UInt16}

theorem semInitDiffVal_arrayDe (hi : i < valores.length) :
    semInitDiffVal m a valores.length (arrayDe valores) i =
      (valores.getD (i / 2) 0).toNat / 256 ^ (2 * (i % 2)) % 256 ^ 2 := by
  have hhalf : i / 2 < valores.length := by omega
  have hx : (arrayDe valores)[i / 2]? = some (valores[i / 2].toNat : ℤ) := by
    rw [arrayDe, List.getElem?_map, List.getElem?_eq_getElem hhalf, Option.map_some]
  have hget : valores.getD (i / 2) 0 = valores[i / 2] := by
    rw [List.getD_eq_getElem?_getD, List.getElem?_eq_getElem hhalf, Option.getD_some]
  rw [semInitDiffVal_apply hi hx, inteiro_natCast, hget]

theorem semInitDiffVal_even (hi : i < valores.length) (heven : i % 2 = 0) :
    semInitDiffVal m a valores.length (arrayDe valores) i = (valores.getD (i / 2) 0).toNat := by
  have hlt := (valores.getD (i / 2) 0).toNat_lt
  rw [semInitDiffVal_arrayDe hi, heven]
  omega

theorem semInitDiffVal_odd (hi : i < valores.length) (hodd : i % 2 = 1) :
    semInitDiffVal m a valores.length (arrayDe valores) i = 0 := by
  have hlt := (valores.getD (i / 2) 0).toNat_lt
  rw [semInitDiffVal_arrayDe hi, hodd]
  omega

/-- Every semaphore has the value that the array has for it. -/
def Iniciado (m : ByteMemory) (a : ℕ) (valores : List UInt16) : Prop :=
  ∀ i < valores.length,
    semInitDiffVal m a valores.length (arrayDe valores) i = (valores.getD i 0).toNat

/-- If the semaphores are as they should be, element `i` is a zero or equal to element `i / 2`. -/
theorem Iniciado.eq_zero (h : Iniciado m a valores) (hpos : 0 < i) (hi : i < valores.length) :
    (valores.getD i 0).toNat = 0 := by
  induction i using Nat.strong_induction_on with
  | _ i ih =>
    rcases Nat.mod_two_eq_zero_or_one i with heven | hodd
    · rw [← h i hi, semInitDiffVal_even hi heven]
      exact ih (i / 2) (by omega) (by omega) (by omega)
    · rw [← h i hi, semInitDiffVal_odd hi hodd]

/-- **The semaphores get the values of the array exactly when all elements after the first are
zero.** -/
theorem iniciado_iff (m : ByteMemory) (a : ℕ) (valores : List UInt16) :
    Iniciado m a valores ↔ ∀ i, 0 < i → i < valores.length → valores.getD i 0 = 0 := by
  constructor
  · intro h i hpos hi
    exact UInt16.toNat_inj.mp (h.eq_zero hpos hi)
  · intro h i hi
    rcases Nat.mod_two_eq_zero_or_one i with heven | hodd
    · rw [semInitDiffVal_even hi heven]
      by_cases hzero : i = 0
      · rw [hzero]
      · rw [h i (by omega) hi, h (i / 2) (by omega) (by omega)]
    · rw [semInitDiffVal_odd hi hodd, h i (by omega) hi]
      rfl

/-- The array of the barber's program, `{1, 0, MAX_C, 0, 0}`. -/
theorem not_iniciado_barbeiro : ¬Iniciado (fun _ ↦ 0) 0 [1, 0, 5, 0, 0] := by
  intro h
  exact absurd (h.eq_zero (i := 2) (by decide) (by decide)) (by decide)

end SistemasOperacionais.Mysem
