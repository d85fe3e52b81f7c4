import SistemasOperacionais.Foundations.Trace
import SistemasOperacionais.Foundations.Redo
import SistemasOperacionais.Xv6.Log.Header

/-!
# Crashes of the log

`log.c` with the disk under it. A transaction is a sequence of calls of `log_write`, and `commit`
writes it to the log, records it in the header, installs it and clears the header. The machine
advances by one disk write at a time and may crash between any two of them; after a crash only the
disk is left, and `recover_from_log` runs, which may crash in turn.

What a disk stands for is decided by its header alone: nothing but the write of a header with
`n > 0` changes what recovery makes of it.
-/

namespace SistemasOperacionais.Xv6.Log

open Foundations Function

/-! ## The program -/

/-- The blocks passed to `log_write`, with their contents, in order. -/
abbrev Tx := List (ℕ × Block)

inductive Outcome
  /-- `commit()` returned -/
  | returned
  /-- cut off by a crash -/
  | cut
deriving DecidableEq

/-- A buffer of the cache; it is not recycled while it is dirty. -/
structure Buf where
  data : Block
  dirty : Bool

/-- Where `commit` or `recover_from_log` is. -/
inductive Pc
  /-- neither is running -/
  | running
  | writeLog (tail : ℕ)
  | writeHead
  | installTrans (recovering : Bool) (tail : ℕ)
  /-- the `write_head` after `log.lh.n = 0` -/
  | clear (recovering : Bool)
  | readHead
  | panicked

def Pc.recovering : Pc → Bool
  | .readHead => true
  | .installTrans r _ | .clear r => r
  | _ => false

structure State where
  disk : ℕ → Block
  cache : ℕ → Option Buf
  lh : List UInt32
  pc : Pc
  /-- The transaction so far, and those before it. -/
  tx : Tx
  history : List (Tx × Outcome)

/-- The kernel starts with `recover_from_log`. -/
def boot (disk : ℕ → Block) : State where
  disk := disk
  cache _ := none
  lh := []
  pc := .readHead
  tx := []
  history := []

section Program

variable (start size : ℕ)

/-- The header block and the log blocks. -/
def InLog (a : ℕ) : Prop := a = start ∨ start < a ∧ a < start + size

instance (a : ℕ) : Decidable (InLog start size a) := inferInstanceAs (Decidable (_ ∨ _))

namespace State

/-- What `bread` finds in block `a`. -/
def data (s : State) (a : ℕ) : Block := (s.cache a).elim (s.disk a) Buf.data

def bread (s : State) (a : ℕ) : State :=
  match s.cache a with
  | some _ => s
  | none => { s with cache := update s.cache a (some ⟨s.disk a, false⟩) }

def bwrite (s : State) (a : ℕ) (d : Block) : State :=
  { s with disk := update s.disk a d, cache := update s.cache a (some ⟨d, false⟩) }

/-- A caller reads block `b`, changes its contents to `d` and calls `log_write`. -/
def logWrite (s : State) (b : UInt32) (d : Block) : State :=
  if logsize ≤ s.lh.length ∨ (size : ℤ) - 1 ≤ s.lh.length then { s with pc := .panicked }
  else
    { s with
      cache := update s.cache b.toNat (some ⟨d, true⟩)
      lh := absorb s.lh b
      tx := s.tx ++ [(b.toNat, d)] }

def finish (s : State) : State :=
  { s with pc := .running, tx := [], history := s.history ++ [(s.tx, .returned)] }

def commit (s : State) : State :=
  if 0 < s.lh.length then { s with pc := .writeLog 0 } else s.finish

def writeHead (s : State) : State :=
  let s := s.bread start
  s.bwrite start (Log.writeHead s.lh (s.data start))

/-- One iteration of `write_log`, for the logged block `b`. -/
def copyToLog (s : State) (tail : ℕ) (b : UInt32) : State :=
  let s := (s.bread (start + tail + 1)).bread b.toNat
  s.bwrite (start + tail + 1) (s.data b.toNat)

/-- One iteration of `install_trans`. -/
def copyHome (s : State) (tail : ℕ) (b : UInt32) : State :=
  let s := (s.bread (start + tail + 1)).bread b.toNat
  s.bwrite b.toNat (s.data (start + tail + 1))

/-- The next step of `commit` or `recover_from_log`, at most one disk write. -/
def step (s : State) : Option State :=
  match s.pc with
  | .running | .panicked => none
  | .writeLog tail =>
    match s.lh[tail]? with
    | some b => some { s.copyToLog start tail b with pc := .writeLog (tail + 1) }
    | none => some { s with pc := .writeHead }
  | .writeHead => some { s.writeHead start with pc := .installTrans false 0 }
  | .installTrans r tail =>
    match s.lh[tail]? with
    | some b => some { s.copyHome start tail b with pc := .installTrans r (tail + 1) }
    | none => some { s with lh := [], pc := .clear r }
  | .clear r =>
    let s := s.writeHead start
    some (if r then { s with pc := .running } else s.finish)
  | .readHead =>
    let s := s.bread start
    some { s with lh := Log.readHead (s.data start), pc := .installTrans true 0 }

def crash (s : State) : State where
  disk := s.disk
  cache _ := none
  lh := []
  pc := .readHead
  tx := []
  history := if s.pc.recovering then s.history else s.history ++ [(s.tx, .cut)]

end State

inductive Label
  /-- somebody reads block `a` -/
  | bread (a : ℕ)
  /-- the buffer of block `a` is recycled -/
  | evict (a : ℕ)
  | logWrite (b : UInt32) (d : Block)
  | commit
  | step
  | crash

def State.exec (s : State) : Label → Option State
  | .bread a => if s.pc matches .panicked then none else some (s.bread a)
  | .evict a =>
    match s.pc, s.cache a with
    | .panicked, _ => none
    | _, some ⟨_, false⟩ => some { s with cache := update s.cache a none }
    | _, _ => none
  | .logWrite b d =>
    if s.pc matches .running then
      if InLog start size b.toNat then none else some (s.logWrite size b d)
    else none
  | .commit => if s.pc matches .running then some s.commit else none
  | .step => s.step start
  | .crash => some s.crash

def Step (s : State) (a : Label) (s' : State) : Prop := s.exec start size a = some s'

end Program

/-- Which transactions have survived: all that returned, and of those cut off by a crash some. -/
inductive Present : List (Tx × Outcome) → List Tx → Prop
  | nil : Present [] []
  | snoc {h : List (Tx × Outcome)} {kept : List Tx} (tx : Tx) (o : Outcome) :
      Present h kept → Present (h ++ [(tx, o)]) (kept ++ [tx])
  | lost {h : List (Tx × Outcome)} {kept : List Tx} (tx : Tx) :
      Present h kept → Present (h ++ [(tx, .cut)]) kept

/-! ## What a disk stands for -/

section Disk

variable {start size : ℕ} {disk data H : ℕ → Block} {lh l : List UInt32} {tx : Tx} {b : UInt32}
  {i j tail : ℕ} {d : Block}

/-- A header that the log has room for. -/
structure Fits (start size : ℕ) (lh : List UInt32) : Prop where
  nodup : lh.Nodup
  home : ∀ b ∈ lh, ¬InLog start size b.toNat
  cap : ∀ j < lh.length, j + 1 < size
  le : lh.length ≤ logsize

namespace Fits

theorem nil : Fits start size [] := ⟨List.nodup_nil, by simp, by simp, Nat.zero_le _⟩

theorem inLog (h : Fits start size lh) (hb : lh[i]? = some b) :
    InLog start size (start + i + 1) := by
  have hcap := h.cap i (List.getElem?_eq_some_iff.mp hb).1
  exact Or.inr ⟨by omega, by omega⟩

theorem absorb (h : Fits start size lh) (hb : ¬InLog start size b.toNat)
    (hlen : lh.length < logsize) (hsize : lh.length + 1 < size) :
    Fits start size (Log.absorb lh b) := by
  have hle : (Log.absorb lh b).length ≤ lh.length + 1 := by
    rw [Log.absorb]
    split_ifs
    · exact Nat.le_succ _
    · rw [List.length_append, List.length_singleton]
  refine ⟨nodup_absorb h.nodup, fun c hc ↦ ?_, fun j hj ↦ by omega, by omega⟩
  obtain hc | rfl := mem_absorb.mp hc
  · exact h.home c hc
  · exact hb

end Fits

/-- No transaction is recorded, and the disk is `H`. The transaction `tx` is in the cache, and the
first `j` of its blocks are in the log. -/
structure Open (start size : ℕ) (disk data : ℕ → Block) (lh : List UInt32) (tx : Tx)
    (H : ℕ → Block) (j : ℕ) : Prop where
  header : readHead (disk start) = []
  home : ∀ a, ¬InLog start size a → disk a = H a
  fits : Fits start size lh
  clean : ∀ a, (∀ b ∈ lh, b.toNat ≠ a) → data a = disk a
  logged : ∀ b ∈ lh, data b.toNat = install H tx b.toNat
  keys : ∀ a, (∃ x ∈ tx, x.1 = a) ↔ ∃ b ∈ lh, b.toNat = a
  copied : ∀ i < j, ∀ b, lh[i]? = some b → disk (start + i + 1) = data b.toNat

/-- The header records `l`, and recovery makes `H` of the disk. The first `j` blocks are
installed. -/
structure Committed (start size : ℕ) (disk data : ℕ → Block) (l : List UInt32) (H : ℕ → Block)
    (j : ℕ) : Prop where
  header : readHead (disk start) = l
  fits : Fits start size l
  record : ∀ i b, l[i]? = some b → disk (start + i + 1) = H b.toNat
  installed : ∀ i < j, ∀ b, l[i]? = some b → disk b.toNat = H b.toNat
  rest : ∀ a, ¬InLog start size a → (∀ b ∈ l, b.toNat ≠ a) → disk a = H a
  clean : ∀ a, (∀ i b, j ≤ i → l[i]? = some b → b.toNat ≠ a) → data a = disk a

namespace Open

theorem logWrite (h : Open start size disk data lh tx H j) (hb : ¬InLog start size b.toNat)
    (hlen : lh.length < logsize) (hsize : lh.length + 1 < size) (d : Block) :
    Open start size disk (update data b.toNat d) (absorb lh b) (tx ++ [(b.toNat, d)]) H 0
    where
  header := h.header
  home := h.home
  fits := h.fits.absorb hb hlen hsize
  clean a ha := by
    have hne : a ≠ b.toNat := (ha b (mem_absorb.mpr (Or.inr rfl))).symm
    rw [update_of_ne hne, h.clean a fun c hc ↦ ha c (mem_absorb.mpr (Or.inl hc))]
  logged c hc := by
    rw [install_snoc]
    obtain heq | hne := eq_or_ne c.toNat b.toNat
    · rw [heq, update_self, update_self]
    · rw [update_of_ne hne, update_of_ne hne]
      refine h.logged c ((mem_absorb.mp hc).resolve_right fun heq ↦ hne ?_)
      rw [heq]
  keys a := by
    have hkeys := h.keys a
    simp only [List.mem_append, List.mem_singleton, mem_absorb, or_and_right, exists_or] at hkeys ⊢
    rw [hkeys]
    simp
  copied i hi := absurd hi (Nat.not_lt_zero i)

theorem copyToLog (h : Open start size disk data lh tx H tail) (hb : lh[tail]? = some b) :
    Open start size (update disk (start + tail + 1) (data b.toNat))
      (update data (start + tail + 1) (data b.toNat)) lh tx H (tail + 1) := by
  have hplace := h.fits.inLog hb
  have hne : ∀ a, ¬InLog start size a → a ≠ start + tail + 1 := fun a ha heq ↦ ha (heq ▸ hplace)
  refine ⟨?_, fun a ha ↦ ?_, h.fits, fun a ha ↦ ?_, fun c hc ↦ ?_, h.keys, fun i hi c hc ↦ ?_⟩
  · rw [update_of_ne (by omega)]
    exact h.header
  · rw [update_of_ne (hne a ha), h.home a ha]
  · obtain rfl | hne := eq_or_ne a (start + tail + 1)
    · rw [update_self, update_self]
    · rw [update_of_ne hne, update_of_ne hne, h.clean a ha]
  · rw [update_of_ne (hne _ (h.fits.home c hc)), h.logged c hc]
  · rw [update_of_ne (a := c.toNat) (hne _ (h.fits.home c (List.mem_of_getElem? hc)))]
    obtain rfl | hlt := Nat.eq_or_lt_of_le (Nat.le_of_lt_succ hi)
    · rw [update_self, Option.some.inj (hb.symm.trans hc)]
    · rw [update_of_ne (by omega), h.copied i hlt c hc]

/-- **The write of the header commits.** -/
theorem writeHead (h : Open start size disk data lh tx H lh.length) (x : Block) :
    Committed start size (update disk start (Log.writeHead lh x))
      (update data start (Log.writeHead lh x)) lh (install H tx) 0 := by
  have hhead : InLog start size start := Or.inl rfl
  refine ⟨?_, h.fits, fun i b hb ↦ ?_, fun i hi ↦ absurd hi (Nat.not_lt_zero i), fun a ha hl ↦ ?_,
    fun a ha ↦ ?_⟩
  · have hle := h.fits.le
    rw [logsize] at hle
    rw [update_self, readHead_writeHead (by rw [bsize]; omega)]
  · rw [update_of_ne (by omega), h.copied i (List.getElem?_eq_some_iff.mp hb).1 b hb,
      h.logged b (List.mem_of_getElem? hb)]
  · have hne : a ≠ start := fun heq ↦ ha (heq ▸ hhead)
    have hout : ¬∃ x ∈ tx, x.1 = a := fun hx ↦ by
      obtain ⟨b, hb, heq⟩ := (h.keys a).mp hx
      exact hl b hb heq
    push Not at hout
    rw [update_of_ne hne, h.home a ha, install_of_notMem hout]
  · obtain rfl | hne := eq_or_ne a start
    · rw [update_self, update_self]
    · rw [update_of_ne hne, update_of_ne hne]
      refine h.clean a fun b hb ↦ ?_
      obtain ⟨i, hi⟩ := List.mem_iff_getElem?.mp hb
      exact ha i b (Nat.zero_le i) hi

theorem crash (h : Open start size disk data lh tx H j) : Committed start size disk disk [] H 0 :=
  ⟨h.header, .nil, by simp, by simp, fun a ha _ ↦ h.home a ha, fun _ _ ↦ rfl⟩

end Open

namespace Committed

theorem copyHome (h : Committed start size disk data l H tail) (hb : l[tail]? = some b) :
    Committed start size (update disk b.toNat (data (start + tail + 1)))
      (update data b.toNat (data (start + tail + 1))) l H (tail + 1) := by
  have hhome : ∀ c ∈ l, ∀ a, InLog start size a → a ≠ c.toNat := fun c hc a ha heq ↦
    h.fits.home c hc (heq ▸ ha)
  have hmem := List.mem_of_getElem? hb
  have hdata : data (start + tail + 1) = H b.toNat := by
    rw [h.clean _ fun i c _ hc ↦ (hhome c (List.mem_of_getElem? hc) _ (h.fits.inLog hb)).symm]
    exact h.record tail b hb
  refine ⟨?_, h.fits, fun i c hc ↦ ?_, fun i hi c hc ↦ ?_, fun a ha hl ↦ ?_, fun a ha ↦ ?_⟩
  · rw [update_of_ne (hhome b hmem _ (Or.inl rfl))]
    exact h.header
  · rw [update_of_ne (hhome b hmem _ (h.fits.inLog hc)), h.record i c hc]
  · obtain heq | hne := eq_or_ne c.toNat b.toNat
    · rw [heq, update_self, hdata]
    · rw [update_of_ne hne]
      obtain rfl | hlt := Nat.eq_or_lt_of_le (Nat.le_of_lt_succ hi)
      · exact absurd (by rw [Option.some.inj (hb.symm.trans hc)]) hne
      · exact h.installed i hlt c hc
  · rw [update_of_ne (hl b hmem).symm, h.rest a ha hl]
  · obtain rfl | hne := eq_or_ne a b.toNat
    · rw [update_self, update_self]
    · rw [update_of_ne hne, update_of_ne hne]
      refine h.clean a fun i c hi hc ↦ ?_
      obtain rfl | hlt := Nat.eq_or_lt_of_le hi
      · rw [← Option.some.inj (hb.symm.trans hc)]
        exact hne.symm
      · exact ha i c hlt hc

/-- After the loop of `install_trans` the disk is what recovery would make of it. -/
theorem disk_eq (h : Committed start size disk data l H l.length) {a : ℕ}
    (ha : ¬InLog start size a) : disk a = H a := by
  by_cases hmem : ∃ b ∈ l, b.toNat = a
  · obtain ⟨b, hb, rfl⟩ := hmem
    obtain ⟨i, hi⟩ := List.mem_iff_getElem?.mp hb
    exact h.installed i (List.getElem?_eq_some_iff.mp hi).1 b hi
  · push Not at hmem
    exact h.rest a ha hmem

theorem data_eq (h : Committed start size disk data l H l.length) (a : ℕ) : data a = disk a :=
  h.clean a fun _ _ hi hc ↦ absurd (List.getElem?_eq_some_iff.mp hc).1 (not_lt.mpr hi)

/-- The `write_head` that clears the log. -/
theorem clear (h : Committed start size disk data l H l.length) (x : Block) :
    Open start size (update disk start (Log.writeHead [] x))
      (update data start (Log.writeHead [] x)) [] [] H 0 := by
  refine ⟨?_, fun a ha ↦ ?_, .nil, fun a _ ↦ ?_, by simp, by simp, by simp⟩
  · rw [update_self, readHead_writeHead (by decide)]
  · have hne : a ≠ start := fun heq ↦ ha (Or.inl heq)
    rw [update_of_ne hne, h.disk_eq ha]
  · obtain rfl | hne := eq_or_ne a start
    · rw [update_self, update_self]
    · rw [update_of_ne hne, update_of_ne hne, h.data_eq a]

theorem crash (h : Committed start size disk data l H j) : Committed start size disk disk l H 0 :=
  ⟨h.header, h.fits, h.record, fun i hi ↦ absurd hi (Nat.not_lt_zero i), h.rest, fun _ _ ↦ rfl⟩

end Committed

end Disk

/-! ## Every step -/

section Steps

variable {start size : ℕ} {disk₀ : ℕ → Block} {s s' : State} {a : ℕ} {d : Block}

/-- A buffer that may be recycled holds what the disk has. -/
def Coherent (s : State) : Prop :=
  ∀ a buf, s.cache a = some buf → buf.dirty = false → buf.data = s.disk a

/-- What holds at each place of the program. -/
def Phase (start size : ℕ) (disk data : ℕ → Block) (lh : List UInt32) (tx : Tx) (H : ℕ → Block) :
    Pc → Prop
  | .running | .panicked => Open start size disk data lh tx H 0
  | .writeLog tail => Open start size disk data lh tx H tail
  | .writeHead => Open start size disk data lh tx H lh.length
  | .installTrans r tail =>
    (r = true → tx = []) ∧ Committed start size disk data lh (install H tx) tail
  | .clear r =>
    (r = true → tx = []) ∧ lh = [] ∧ ∃ l, Committed start size disk data l (install H tx) l.length
  | .readHead => tx = [] ∧ ∃ l, Committed start size disk data l H 0

structure Inv (start size : ℕ) (disk₀ : ℕ → Block) (s : State) : Prop where
  coherent : Coherent s
  phase : ∃ kept, Present s.history kept ∧
    Phase start size s.disk s.data s.lh s.tx (install disk₀ kept.flatten) s.pc

namespace State

variable {tail : ℕ} {b : UInt32}

@[simp] theorem bread_disk : (s.bread a).disk = s.disk := by
  rw [bread]
  split <;> rfl

@[simp] theorem bread_lh : (s.bread a).lh = s.lh := by
  rw [bread]
  split <;> rfl

@[simp] theorem bread_pc : (s.bread a).pc = s.pc := by
  rw [bread]
  split <;> rfl

@[simp] theorem bread_tx : (s.bread a).tx = s.tx := by
  rw [bread]
  split <;> rfl

@[simp] theorem bread_history : (s.bread a).history = s.history := by
  rw [bread]
  split <;> rfl

@[simp] theorem bread_data : (s.bread a).data = s.data := by
  rw [bread]
  split
  · rfl
  · rename_i hc
    funext x
    rw [data, data]
    obtain rfl | hne := eq_or_ne x a
    · simp only [update_self, hc, Option.elim_some, Option.elim_none]
    · simp only [update_of_ne hne]

@[simp] theorem bwrite_disk : (s.bwrite a d).disk = update s.disk a d := rfl

@[simp] theorem bwrite_data : (s.bwrite a d).data = update s.data a d := by
  funext x
  rw [data, bwrite]
  obtain rfl | hne := eq_or_ne x a
  · simp only [update_self, Option.elim_some]
  · simp only [update_of_ne hne]
    rfl

/-- What a step that writes one block leaves. -/
structure Writes (s s' : State) (a : ℕ) (d : Block) : Prop where
  disk : s'.disk = update s.disk a d
  data : s'.data = update s.data a d
  lh : s'.lh = s.lh
  tx : s'.tx = s.tx
  history : s'.history = s.history
  coherent : Coherent s → Coherent s'

end State

namespace Coherent

theorem bread (h : Coherent s) (a : ℕ) : Coherent (s.bread a) := by
  rw [State.bread]
  cases hc : s.cache a with
  | some buf => exact h
  | none =>
    intro x buf hx hd
    obtain rfl | hne := eq_or_ne x a
    · simp only [update_self] at hx
      rw [← Option.some.inj hx]
    · simp only [update_of_ne hne] at hx
      exact h x buf hx hd

theorem bwrite (h : Coherent s) (a : ℕ) (d : Block) : Coherent (s.bwrite a d) := by
  intro x buf hx hd
  rw [State.bwrite] at hx ⊢
  obtain rfl | hne := eq_or_ne x a
  · simp only [update_self] at hx ⊢
    rw [← Option.some.inj hx]
  · simp only [update_of_ne hne] at hx ⊢
    exact h x buf hx hd

theorem logWrite (h : Coherent s) {b : UInt32} {d : Block} : Coherent (s.logWrite size b d) := by
  rw [State.logWrite]
  split_ifs with hfull
  · exact h
  · intro x buf hx hd
    obtain rfl | hne := eq_or_ne x b.toNat
    · simp only [update_self] at hx
      rw [← Option.some.inj hx] at hd
      cases hd
    · simp only [update_of_ne hne] at hx
      exact h x buf hx hd

theorem evict (h : Coherent s) {buf : Buf} (hbuf : s.cache a = some buf) (hd : buf.dirty = false) :
    Coherent { s with cache := update s.cache a none } ∧
      ({ s with cache := update s.cache a none } : State).data = s.data := by
  refine ⟨fun x c hx hc ↦ ?_, funext fun x ↦ ?_⟩
  · obtain rfl | hne := eq_or_ne x a
    · simp only [update_self] at hx
      cases hx
    · simp only [update_of_ne hne] at hx
      exact h x c hx hc
  · rw [State.data, State.data]
    obtain rfl | hne := eq_or_ne x a
    · simp only [update_self, hbuf, Option.elim_some, Option.elim_none, h x buf hbuf hd]
    · simp only [update_of_ne hne]

end Coherent

namespace State

variable {tail : ℕ} {b : UInt32}

theorem writes_bwrite : Writes s (s.bwrite a d) a d :=
  ⟨rfl, bwrite_data, rfl, rfl, rfl, fun h ↦ h.bwrite a d⟩

theorem Writes.of_bread {x : ℕ} (h : Writes (s.bread x) s' a d) : Writes s s' a d where
  disk := by rw [h.disk, bread_disk]
  data := by rw [h.data, bread_data]
  lh := by rw [h.lh, bread_lh]
  tx := by rw [h.tx, bread_tx]
  history := by rw [h.history, bread_history]
  coherent hs := h.coherent (hs.bread x)

theorem writes_writeHead (s : State) (start : ℕ) :
    Writes s (s.writeHead start) start (Log.writeHead s.lh (s.data start)) := by
  rw [writeHead, bread_lh, bread_data]
  exact writes_bwrite.of_bread

theorem writes_copyToLog (s : State) (start tail : ℕ) (b : UInt32) :
    Writes s (s.copyToLog start tail b) (start + tail + 1) (s.data b.toNat) := by
  rw [copyToLog, bread_data, bread_data]
  exact writes_bwrite.of_bread.of_bread

theorem writes_copyHome (s : State) (start tail : ℕ) (b : UInt32) :
    Writes s (s.copyHome start tail b) b.toNat (s.data (start + tail + 1)) := by
  rw [copyHome, bread_data, bread_data]
  exact writes_bwrite.of_bread.of_bread

end State

namespace Inv

theorem boot (h0 : headN (disk₀ start) = 0) : Inv start size disk₀ (boot disk₀) :=
  ⟨nofun, [], .nil, rfl, [], readHead_eq_nil h0, .nil, by simp, by simp, fun _ _ _ ↦ rfl,
    fun _ _ ↦ rfl⟩

theorem congr (h : Inv start size disk₀ s) (hcoh : Coherent s') (hdisk : s'.disk = s.disk)
    (hdata : s'.data = s.data) (hlh : s'.lh = s.lh) (hpc : s'.pc = s.pc) (htx : s'.tx = s.tx)
    (hhist : s'.history = s.history) : Inv start size disk₀ s' := by
  obtain ⟨kept, hp, hphase⟩ := h.phase
  refine ⟨hcoh, kept, by rwa [hhist], ?_⟩
  rwa [hdisk, hdata, hlh, hpc, htx]

theorem logWrite (h : Inv start size disk₀ s) (hpc : s.pc = .running) {b : UInt32} (d : Block)
    (hb : ¬InLog start size b.toNat) : Inv start size disk₀ (s.logWrite size b d) := by
  obtain ⟨kept, hp, hphase⟩ := h.phase
  refine ⟨h.coherent.logWrite, kept, ?_⟩
  rw [hpc] at hphase
  rw [State.logWrite]
  split_ifs with hfull
  · exact ⟨hp, hphase⟩
  · push Not at hfull
    refine ⟨hp, ?_⟩
    have hdata : ∀ lh tx, ({ s with
        cache := update s.cache b.toNat (some ⟨d, true⟩), lh := lh, tx := tx } : State).data =
        update s.data b.toNat d := fun lh tx ↦ by
      funext x
      rw [State.data]
      obtain rfl | hne := eq_or_ne x b.toNat
      · simp only [update_self, Option.elim_some]
      · simp only [update_of_ne hne]
        rfl
    rw [hdata]
    simp only [hpc]
    exact Open.logWrite hphase hb hfull.1 (by omega) d

/-- `commit()` returns in a state where its transaction has been installed. -/
theorem finish (hcoh : Coherent s) {kept : List Tx} (hp : Present s.history kept) (hlh : s.lh = [])
    (h : Open start size s.disk s.data [] [] (install (install disk₀ kept.flatten) s.tx) 0) :
    Inv start size disk₀ s.finish := by
  refine ⟨hcoh, kept ++ [s.tx], hp.snoc _ _, ?_⟩
  rw [List.flatten_append, List.flatten_singleton, install_append]
  change Open start size s.disk s.data s.lh [] _ 0
  rwa [hlh]

theorem commit (h : Inv start size disk₀ s) (hpc : s.pc = .running) :
    Inv start size disk₀ s.commit := by
  obtain ⟨kept, hp, hphase⟩ := h.phase
  rw [hpc] at hphase
  rw [State.commit]
  split_ifs with hlen
  · exact ⟨h.coherent, kept, hp, hphase⟩
  · have hlh : s.lh = [] := by simpa using hlen
    have htx : s.tx = [] := List.eq_nil_iff_forall_not_mem.mpr fun x hx ↦ by
      obtain ⟨b, hb, -⟩ := (Open.keys hphase x.1).mp ⟨x, hx, rfl⟩
      rw [hlh] at hb
      cases hb
    refine finish h.coherent hp hlh ?_
    have hopen : Open start size s.disk s.data s.lh s.tx _ 0 := hphase
    rw [hlh, htx] at hopen
    rwa [htx, install_nil]

theorem step (h : Inv start size disk₀ s) (hs : s.step start = some s') :
    Inv start size disk₀ s' := by
  obtain ⟨kept, hp, hphase⟩ := h.phase
  rw [State.step] at hs
  cases hpc : s.pc with
  | running | panicked =>
    rw [hpc] at hs
    cases hs
  | writeLog tail =>
    rw [hpc] at hs hphase
    cases hb : s.lh[tail]? with
    | some b =>
      simp only [hb, Option.some.injEq] at hs
      obtain rfl := hs
      have hw := s.writes_copyToLog start tail b
      refine ⟨hw.coherent h.coherent, kept, hw.history ▸ hp, ?_⟩
      change Open start size (s.copyToLog start tail b).disk (s.copyToLog start tail b).data
        (s.copyToLog start tail b).lh (s.copyToLog start tail b).tx _ _
      rw [hw.disk, hw.data, hw.lh, hw.tx]
      exact Open.copyToLog hphase hb
    | none =>
      simp only [hb, Option.some.injEq] at hs
      obtain rfl := hs
      -- the loop has seen all blocks
      have hle : s.lh.length ≤ tail := List.getElem?_eq_none_iff.mp hb
      have hopen : Open start size s.disk s.data s.lh s.tx _ tail := hphase
      exact ⟨h.coherent, kept, hp, { hopen with
        copied := fun i hi ↦ hopen.copied i (hi.trans_le hle) }⟩
  | writeHead =>
    rw [hpc] at hs hphase
    obtain rfl := Option.some.inj hs
    have hw := s.writes_writeHead start
    refine ⟨hw.coherent h.coherent, kept, hw.history ▸ hp, nofun, ?_⟩
    change Committed start size (s.writeHead start).disk (s.writeHead start).data
      (s.writeHead start).lh (install _ (s.writeHead start).tx) _
    rw [hw.disk, hw.data, hw.lh, hw.tx]
    exact Open.writeHead hphase _
  | installTrans r tail =>
    rw [hpc] at hs hphase
    obtain ⟨hr, hcom⟩ := hphase
    cases hb : s.lh[tail]? with
    | some b =>
      simp only [hb, Option.some.injEq] at hs
      obtain rfl := hs
      have hw := s.writes_copyHome start tail b
      refine ⟨hw.coherent h.coherent, kept, hw.history ▸ hp, fun h ↦ hw.tx ▸ hr h, ?_⟩
      change Committed start size (s.copyHome start tail b).disk (s.copyHome start tail b).data
        (s.copyHome start tail b).lh (install _ (s.copyHome start tail b).tx) _
      rw [hw.disk, hw.data, hw.lh, hw.tx]
      exact hcom.copyHome hb
    | none =>
      simp only [hb, Option.some.injEq] at hs
      obtain rfl := hs
      have hle : s.lh.length ≤ tail := List.getElem?_eq_none_iff.mp hb
      refine ⟨h.coherent, kept, hp, hr, rfl, s.lh, { hcom with
        installed := fun i hi ↦ hcom.installed i (hi.trans_le hle)
        clean := fun a _ ↦ hcom.clean a fun i c hi hc ↦ ?_ }⟩
      have hlt := (List.getElem?_eq_some_iff.mp hc).1
      omega
  | clear r =>
    rw [hpc] at hs hphase
    obtain ⟨hr, hlh, l, hcom⟩ := hphase
    have hw := s.writes_writeHead start
    have hopen : Open start size (s.writeHead start).disk (s.writeHead start).data [] []
        (install (install disk₀ kept.flatten) s.tx) 0 := by
      rw [hw.disk, hw.data, hlh]
      exact hcom.clear _
    obtain rfl := Option.some.inj hs
    cases r with
    | true =>
      refine ⟨hw.coherent h.coherent, kept, hw.history ▸ hp, ?_⟩
      change Open start size (s.writeHead start).disk (s.writeHead start).data
        (s.writeHead start).lh (s.writeHead start).tx _ 0
      rw [hr rfl, install_nil] at hopen
      rwa [hw.lh, hw.tx, hlh, hr rfl]
    | false =>
      refine finish (hw.coherent h.coherent) (hw.history ▸ hp) (hw.lh.trans hlh) ?_
      rwa [hw.tx]
  | readHead =>
    rw [hpc] at hs hphase
    obtain ⟨htx, l, hcom⟩ := hphase
    have hdata : s.data start = s.disk start := hcom.clean start fun _ c _ hc heq ↦
      hcom.fits.home c (List.mem_of_getElem? hc) (heq ▸ Or.inl rfl)
    -- what the read does to the cache does not matter here
    have hcoh := h.coherent.bread start
    have hbdisk : (s.bread start).disk = s.disk := State.bread_disk
    have hbdata : (s.bread start).data = s.data := State.bread_data
    have hbtx : (s.bread start).tx = s.tx := State.bread_tx
    have hbhist : (s.bread start).history = s.history := State.bread_history
    simp only at hs
    generalize s.bread start = x at hs hcoh hbdisk hbdata hbtx hbhist
    generalize hlh : Log.readHead (x.data start) = lh at hs
    obtain rfl := Option.some.inj hs
    refine ⟨hcoh, kept, ?_, fun _ ↦ hbtx.trans htx, ?_⟩
    · rwa [hbhist]
    · change Committed start size x.disk x.data lh (install _ x.tx) 0
      rwa [← hlh, hbdisk, hbdata, hbtx, htx, install_nil, hdata, hcom.header]

theorem crash (h : Inv start size disk₀ s) : Inv start size disk₀ s.crash := by
  obtain ⟨kept, hp, hphase⟩ := h.phase
  -- before the header is written the transaction is lost, after it the transaction is kept
  have hlost (hopen : ∃ j, Open start size s.disk s.data s.lh s.tx (install disk₀ kept.flatten) j)
      (hrec : s.pc.recovering = false) : Inv start size disk₀ s.crash := by
    obtain ⟨j, hopen⟩ := hopen
    refine ⟨nofun, kept, ?_, rfl, [], hopen.crash⟩
    rw [State.crash, hrec]
    exact hp.lost _
  have hkept {l : List UInt32} {j : ℕ} {r : Bool} (hr : r = true → s.tx = [])
      (hcom : Committed start size s.disk s.data l (install (install disk₀ kept.flatten) s.tx) j)
      (hrec : s.pc.recovering = r) : Inv start size disk₀ s.crash := by
    cases r with
    | true =>
      refine ⟨nofun, kept, ?_, rfl, l, ?_⟩
      · rw [State.crash, hrec]
        exact hp
      · rw [hr rfl, install_nil] at hcom
        exact hcom.crash
    | false =>
      refine ⟨nofun, kept ++ [s.tx], ?_, rfl, l, ?_⟩
      · rw [State.crash, hrec]
        exact hp.snoc _ _
      · rw [List.flatten_append, List.flatten_singleton, install_append]
        exact hcom.crash
  cases hpc : s.pc with
  | running | panicked | writeLog _ | writeHead =>
    rw [hpc] at hphase
    exact hlost ⟨_, hphase⟩ (by rw [hpc]; rfl)
  | installTrans r tail =>
    rw [hpc] at hphase
    exact hkept hphase.1 hphase.2 (by rw [hpc]; rfl)
  | clear r =>
    rw [hpc] at hphase
    obtain ⟨hr, -, l, hcom⟩ := hphase
    exact hkept hr hcom (by rw [hpc]; rfl)
  | readHead =>
    rw [hpc] at hphase
    obtain ⟨htx, l, hcom⟩ := hphase
    rw [← install_nil (m := install disk₀ kept.flatten), ← htx] at hcom
    exact hkept (fun _ ↦ htx) hcom (by rw [hpc, Pc.recovering])

theorem exec {a : Label} (h : Inv start size disk₀ s) (hs : Step start size s a s') :
    Inv start size disk₀ s' := by
  rw [Step, State.exec.eq_def] at hs
  cases a with
  | bread a =>
    rw [Option.ite_none_left_eq_some] at hs
    obtain ⟨-, hs⟩ := hs
    obtain rfl := Option.some.inj hs
    exact h.congr (h.coherent.bread a) State.bread_disk State.bread_data State.bread_lh
      State.bread_pc State.bread_tx State.bread_history
  | evict a =>
    simp only at hs
    split at hs
    · cases hs
    · rename_i hbuf _
      obtain rfl := Option.some.inj hs
      obtain ⟨hcoh, hdata⟩ := h.coherent.evict hbuf rfl
      exact h.congr hcoh rfl hdata rfl rfl rfl rfl
    · cases hs
  | logWrite b d =>
    rw [Option.ite_none_right_eq_some, Option.ite_none_left_eq_some] at hs
    obtain ⟨hpc, hb, hs⟩ := hs
    obtain rfl := Option.some.inj hs
    refine h.logWrite ?_ d hb
    cases hrun : s.pc <;> simp [hrun] at hpc ⊢
  | commit =>
    rw [Option.ite_none_right_eq_some] at hs
    obtain ⟨hpc, hs⟩ := hs
    obtain rfl := Option.some.inj hs
    refine h.commit ?_
    cases hrun : s.pc <;> simp [hrun] at hpc ⊢
  | step => exact h.step hs
  | crash =>
    obtain rfl := Option.some.inj hs
    exact h.crash

end Inv

/-! ## Runs -/

/-- The disk holds the state after a whole number of transactions, among them all whose `commit()`
returned. -/
def Atomic (start size : ℕ) (disk₀ : ℕ → Block) (s : State) : Prop :=
  ∃ kept, Present s.history kept ∧
    ∀ a, ¬InLog start size a → s.disk a = install disk₀ kept.flatten a

theorem Inv.atomic (h : Inv start size disk₀ s) (hpc : s.pc = .running) :
    Atomic start size disk₀ s := by
  obtain ⟨kept, hp, hphase⟩ := h.phase
  rw [hpc] at hphase
  exact ⟨kept, hp, Open.home hphase⟩

/-- `install_trans` comes to its end, and then the log is cleared. -/
theorem exists_running_of_install (start size : ℕ) {s : State} {tail : ℕ}
    (hpc : s.pc = .installTrans true tail) :
    ∃ n s', execute (State.exec start size) s (List.replicate n .step) = some s' ∧
      s'.pc = .running := by
  induction hm : s.lh.length - tail generalizing s tail with
  | zero =>
    have hb : s.lh[tail]? = none := List.getElem?_eq_none_iff.mpr (by omega)
    refine ⟨2, { ({ s with lh := [], pc := .clear true } : State).writeHead start with
      pc := .running }, ?_, rfl⟩
    simp only [List.replicate, execute, State.exec, State.step, hpc, hb, Option.bind_some]
    rfl
  | succ m ih =>
    have hlt : tail < s.lh.length := by omega
    have hb : s.lh[tail]? = some s.lh[tail] := List.getElem?_eq_getElem hlt
    set s₁ : State := { s.copyHome start tail s.lh[tail] with pc := .installTrans true (tail + 1) }
      with hs₁
    have hstep : s.exec start size .step = some s₁ := by
      simp only [State.exec, State.step, hpc, hb]
      rfl
    have hlh : s₁.lh = s.lh := (s.writes_copyHome start tail _).lh
    have hpc₁ : s₁.pc = .installTrans true (tail + 1) := rfl
    obtain ⟨n, s', hrun, hend⟩ := ih hpc₁ (by rw [hlh]; omega)
    refine ⟨n + 1, s', ?_, hend⟩
    rw [List.replicate_succ, execute, hstep]
    exact hrun

theorem exists_running_of_crash (start size : ℕ) (s : State) :
    ∃ n s', execute (State.exec start size) s (.crash :: List.replicate n .step) = some s' ∧
      s'.pc = .running := by
  set s₁ : State := { s.crash.bread start with
    lh := Log.readHead ((s.crash.bread start).data start), pc := .installTrans true 0 } with hs₁
  have hpc : s₁.pc = .installTrans true 0 := rfl
  obtain ⟨n, s', hrun, hend⟩ := exists_running_of_install start size hpc
  exact ⟨n + 1, s', hrun, hend⟩

/-- **Crash atomicity.** The second part says that recovery completes, wherever the crash comes. -/
theorem atomic_of_trace (h0 : headN (disk₀ start) = 0) {hist : List (State × Label)}
    (t : Trace (Step start size) (boot disk₀) hist s) :
    (s.pc = .running → Atomic start size disk₀ s) ∧
      ∃ n s', execute (State.exec start size) s (.crash :: List.replicate n .step) = some s' ∧
        s'.pc = .running := by
  have hinv : Inv start size disk₀ s := t.invariant (.boot h0) fun hi hs ↦ hi.exec hs
  exact ⟨hinv.atomic, exists_running_of_crash start size s⟩

end Steps

/-- Two blocks are logged, one of them twice; the machine crashes after one block has been installed
and again in the middle of the recovery. -/
def twoCrashes : List Label :=
  [List.replicate 3 .step,
    [.logWrite 40 fun _ ↦ 1, .logWrite 41 fun _ ↦ 2, .logWrite 40 fun _ ↦ 3, .commit],
    List.replicate 5 .step, [.crash], List.replicate 2 .step, [.crash],
    List.replicate 5 .step].flatten

theorem atomic_of_trace_twoCrashes :
    ∃ hist s, Trace (Step 2 30) (boot fun _ _ ↦ 0) hist s ∧ hist.map Prod.snd = twoCrashes ∧
      s.disk 40 = (fun _ ↦ 3) ∧ Atomic 2 30 (fun _ _ ↦ 0) s := by
  have hrun : (execute (State.exec 2 30) (boot fun _ _ ↦ 0) twoCrashes).map
      (fun s ↦ (decide (s.disk 40 = fun _ ↦ 3), s.pc matches .running)) = some (true, true) := by
    decide +kernel
  obtain ⟨hist, s, t, hlab, hend⟩ : ∃ hist s, Trace (Step 2 30) _ hist s ∧ _ :=
    exists_trace_of_execute_map (fun _ _ _ ↦ id) hrun
  obtain ⟨hdisk, hpc⟩ := Prod.mk.inj hend
  refine ⟨hist, s, t, hlab, of_decide_eq_true hdisk, (atomic_of_trace rfl t).1 ?_⟩
  cases hrun : s.pc <;> simp [hrun] at hpc ⊢

end SistemasOperacionais.Xv6.Log
