import SistemasOperacionais.Xv6.Vm.Tables
import Mathlib.Data.List.GetD

/-!
# Copying to user memory

`copyout` goes through the user's addresses page by page. `uva2ka` looks up each page, and it reads
the entry also if there is no page table to read it from. So the copy is exact only if there is a
page table for every page up to the first one that the user may not use (`Reached`); if not, a null
pointer is used.

Nothing keeps a directory from mapping a page twice, or from mapping one of its own page tables. A
byte is then written at all its addresses, so exactness also takes that the bytes to write have no
second address (`Unaliased`).
-/

namespace SistemasOperacionais.Xv6.Vm

open Foundations Prog

variable {E : Fault → Prop} {m m' : Machine} {d f t : Frame} {v w x va len : ℕ}
  {buf p : List UInt8} {r : Bool}

/-! ## User memory as bytes -/

def Page.byte (b : Page) (o : ℕ) : UInt8 := if h : o < 1024 * 4 then b ⟨o, h⟩ else 0

namespace Machine

variable (m : Machine)

/-- Where a page is mapped to that is present with `PTE_U`. -/
def userPage (d : Frame) (v : ℕ) : Option Frame :=
  (m.entry d v).bind fun e ↦ if user e then some (pteAddr e) else none

def userByte (d : Frame) (x : ℕ) : Option UInt8 :=
  (m.userPage d (x / pgsize)).map fun f ↦ (m.mem f).byte (x % pgsize)

/-- The user's address `x` is byte `o` of the page `f`. -/
def At (d : Frame) (x : ℕ) (f : Frame) (o : ℕ) : Prop :=
  m.userPage d (x / pgsize) = some f ∧ x % pgsize = o

/-- The bytes `l` are stored at the offset `off` of the page `f`. -/
def put (f : Frame) (off : ℕ) (l : List UInt8) : Machine := m.filled f ((m.mem f).put off l)

end Machine

def SameTables (m m' : Machine) (d : Frame) : Prop := ∀ f ∈ m.tables d, m'.mem f = m.mem f

section SameTables

theorem sameTables_put (off : ℕ) (l : List UInt8) (h : f ∉ m.tables d) :
    SameTables m (m.put f off l) d :=
  fun _ hg ↦ mem_filled_of_ne fun heq ↦ h (heq ▸ hg)

variable (h : SameTables m m' d)
include h

theorem SameTables.table : m'.table d = m.table d := table_congr (h d (self_mem_tables m d))

theorem SameTables.tables : m'.tables d = m.tables d := tables_congr (h d (self_mem_tables m d))

theorem SameTables.userPage : m'.userPage d = m.userPage d := by
  funext v
  rw [Machine.userPage, Machine.userPage, entry_congr h]

theorem SameTables.at {o : ℕ} (hat : m.At d x f o) : m'.At d x f o := by
  rwa [Machine.At, h.userPage]

end SameTables

/-! ## Pages in the way -/

/-- The page `v` has an address of the `len` bytes from `va` on. -/
def Touches (va len v : ℕ) : Prop := ∃ x, va ≤ x ∧ x < va + len ∧ x / pgsize = v

/-- There is a page table for each page that is touched, up to the first one that the user may not
use. -/
def Reached (m : Machine) (d : Frame) (va len : ℕ) : Prop :=
  ∀ v, Touches va len v → (∀ w < v, Touches va len w → m.userPage d w ≠ none) →
    m.table d (pdx v) ≠ none

/-- The address `x` is one of the `len` from `va` on, and the copy gets as far as its page. -/
def Written (m : Machine) (d : Frame) (va len x : ℕ) : Prop :=
  (va ≤ x ∧ x < va + len) ∧ ∀ v ≤ x / pgsize, Touches va len v → m.userPage d v ≠ none

/-- No byte that is written is in a page table or at another address of the user. In a copy that
fails, the other address may be one of those to write to. -/
def Unaliased (m : Machine) (d : Frame) (va len : ℕ) : Prop :=
  ∀ x f o, Written m d va len x → m.At d x f o → f ∉ m.tables d ∧
    ∀ y < 2 ^ 32, m.At d y f o → y = x ∨
      (va ≤ y ∧ y < va + len) ∧ ∃ v, Touches va len v ∧ m.userPage d v = none

/-- What `copyout` does to the memory; `r` says that it has returned 0. -/
structure CopiedOut (m m' : Machine) (d : Frame) (va : ℕ) (p : List UInt8) (r : Bool) : Prop where
  zero_iff : r = true ↔ ∀ v, Touches va p.length v → m.userPage d v ≠ none
  copied : r = true → ∀ i < p.length, m'.userByte d (va + i) = p[i]?
  others : ∀ x < 2 ^ 32, ¬(va ≤ x ∧ x < va + p.length) → m'.userByte d x = m.userByte d x
  only : ∀ f o, m'.mem f o ≠ m.mem f o → ∃ x, va ≤ x ∧ x < va + p.length ∧ m.At d x f o
  /-- The user's memory is made of the same pages as before. -/
  tables : SameTables m m' d

theorem spec_uva2ka {uva : UInt32} {Q : Option Frame → Machine → Prop}
    (hE : m.table d (pdx (uva.toNat / pgsize)) = none → E .nullPointer)
    (h : m.table d (pdx (uva.toNat / pgsize)) ≠ none → Q (m.userPage d (uva.toNat / pgsize)) m) :
    Spec E (uva2ka d uva) m Q := by
  refine spec_bind (spec_lookup ?_)
  cases ht : m.table d (pdx (uva.toNat / pgsize)) with
  | none => exact spec_stop (hE ht)
  | some t =>
    have hQ := h (by rw [ht]; exact Option.some_ne_none t)
    rw [Machine.userPage, entry_of_table ht] at hQ
    refine spec_bind (spec_get ?_)
    dsimp only
    split_ifs with hpte huser
    · rw [hpte, if_neg Bool.false_ne_true] at hQ
      exact spec_pure hQ
    · rw [if_pos (Bool.of_not_eq_false hpte), Option.bind_some, huser,
        if_neg Bool.false_ne_true] at hQ
      exact spec_pure hQ
    · rw [if_pos (Bool.of_not_eq_false hpte), Option.bind_some,
        if_pos (Bool.of_not_eq_false huser)] at hQ
      exact spec_pure hQ

/-! ## One page -/

section Chunk

variable {off n : ℕ} {o : Fin (1024 * 4)} (hlen : n ≤ buf.length)
include hlen

theorem getElem?_put (hge : off ≤ o) (hlt : o < off + n) :
    buf[o - off]? = some ((m.put f off (buf.take n)).mem f o) := by
  rw [Machine.put, mem_filled_self, Page.put, if_pos hge, List.getD_eq_getElem?_getD,
    List.getElem?_take, if_pos (by omega), List.getElem?_eq_getElem (by omega), Option.getD_some]

theorem mem_put_ne {g : Frame} (h : (m.put f off (buf.take n)).mem g o ≠ m.mem g o) :
    g = f ∧ off ≤ o ∧ o < off + n := by
  have hg : g = f := by
    by_contra hne
    exact h (by rw [Machine.put, mem_filled_of_ne hne])
  subst hg
  rw [Machine.put, mem_filled_self, Page.put] at h
  split_ifs at h with hle
  · refine ⟨rfl, hle, not_le.mp fun hge ↦ h ?_⟩
    rw [List.getD_eq_default _ _ (by rw [List.length_take]; omega)]
  · exact absurd rfl h

end Chunk

/-! ## The loop -/

section Loop

/-- One round of the loop, at the address `va` in the page `v`: it takes `n` of `len` bytes, and
goes on at `va'` with the rest. -/
structure Round (va va' len n v : ℕ) : Prop where
  page : v = va / pgsize
  count : n = min (pgsize - va % pgsize) len
  pos : 0 < len
  next : n < len → va' = va + n

namespace Round

variable {va' n o : ℕ} (h : Round va va' len n v)
include h

theorem le : n ≤ len := by
  rw [h.count]
  exact Nat.min_le_right ..

theorem start : v * pgsize + va % pgsize = va := by
  rw [h.page]
  exact Nat.div_add_mod' ..

theorem count_pos : 0 < n := by
  have hmod : va % pgsize < pgsize := Nat.mod_lt va (by decide)
  have hcount := h.count
  have hpos := h.pos
  omega

theorem fits : va % pgsize + n ≤ pgsize := by
  have hmod : va % pgsize < pgsize := Nat.mod_lt va (by decide)
  have hcount := h.count
  omega

theorem rest : (va' ≤ x ∧ x < va' + (len - n)) ↔ (va + n ≤ x ∧ x < va + len) := by
  have hle := h.le
  have hnext := h.next
  omega

theorem div_eq (hge : va ≤ x) (hlt : x < va + n) : x / pgsize = v := by
  have hstart := h.start
  have hfits := h.fits
  refine Nat.div_eq_of_lt_le ?_ ?_
  · omega
  · rw [Nat.succ_mul]
    omega

theorem touches_first : Touches va len v := ⟨va, le_rfl, Nat.lt_add_of_pos_right h.pos, h.page.symm⟩

theorem touches_iff : Touches va len w ↔ w = v ∨ Touches va' (len - n) w := by
  constructor
  · rintro ⟨x, hge, hlt, rfl⟩
    rcases Nat.lt_or_ge x (va + n) with hin | hout
    · exact .inl (h.div_eq hge hin)
    · have hrest := h.rest.mpr ⟨hout, hlt⟩
      exact .inr ⟨x, hrest.1, hrest.2, rfl⟩
  · rintro (rfl | ⟨x, hge, hlt, rfl⟩)
    · exact h.touches_first
    · have hrest := h.rest.mp ⟨hge, hlt⟩
      exact ⟨x, (Nat.le_add_right ..).trans hrest.1, hrest.2, rfl⟩

theorem forall_touches_iff (hf : m.userPage d v = some f) :
    (∀ w, Touches va len w → m.userPage d w ≠ none) ↔
      ∀ w, Touches va' (len - n) w → m.userPage d w ≠ none := by
  refine ⟨fun hall w hw ↦ hall w (h.touches_iff.mpr (.inr hw)), fun hall w hw ↦ ?_⟩
  rcases h.touches_iff.mp hw with rfl | hw'
  · rw [hf]
    exact Option.some_ne_none f
  · exact hall w hw'

theorem le_of_touches (hw : Touches va len w) : v ≤ w := by
  obtain ⟨x, hge, -, rfl⟩ := hw
  rw [h.page]
  exact Nat.div_le_div_right hge

theorem reached_of_none (ht : m.table d (pdx v) ≠ none) (hf : m.userPage d v = none) :
    Reached m d va len := by
  intro w hw hall
  rcases Nat.eq_or_lt_of_le (h.le_of_touches hw) with rfl | hlt
  · exact ht
  · exact absurd hf (hall v hlt h.touches_first)

theorem reached_iff (ht : m.table d (pdx v) ≠ none) (hf : m.userPage d v = some f)
    (hsame : SameTables m m' d) : Reached m' d va' (len - n) ↔ Reached m d va len := by
  rw [Reached, Reached, hsame.table, hsame.userPage]
  constructor
  · intro hr w hw hall
    rcases h.touches_iff.mp hw with rfl | hw'
    · exact ht
    · exact hr w hw' fun u hu hu' ↦ hall u hu (h.touches_iff.mpr (.inr hu'))
  · intro hr w hw hall
    refine hr w (h.touches_iff.mpr (.inr hw)) fun u hu hu' ↦ ?_
    rcases h.touches_iff.mp hu' with rfl | hu''
    · rw [hf]
      exact Option.some_ne_none f
    · exact hall u hu hu''

theorem written_iff (hf : m.userPage d v = some f) (hsame : SameTables m m' d) :
    Written m d va len x ↔ (va ≤ x ∧ x < va + n) ∨ Written m' d va' (len - n) x := by
  have hle := h.le
  have hsome : m.userPage d v ≠ none := by
    rw [hf]
    exact Option.some_ne_none f
  rw [Written, Written, h.rest, hsame.userPage]
  constructor
  · rintro ⟨hx, hall⟩
    rcases Nat.lt_or_ge x (va + n) with hin | hout
    · exact .inl ⟨hx.1, hin⟩
    · exact .inr ⟨⟨hout, hx.2⟩, fun w hw hw' ↦ hall w hw (h.touches_iff.mpr (.inr hw'))⟩
  · rintro (hx | ⟨hx, hall⟩)
    · refine ⟨⟨hx.1, by omega⟩, fun w hw hw' ↦ ?_⟩
      rw [h.div_eq hx.1 hx.2] at hw
      rwa [Nat.le_antisymm hw (h.le_of_touches hw')]
    · refine ⟨⟨by omega, hx.2⟩, fun w hw hw' ↦ ?_⟩
      rcases h.touches_iff.mp hw' with rfl | hw''
      · exact hsome
      · exact hall w hw hw''

theorem not_written (hf : m.userPage d v = none) : ¬Written m d va len x := fun hx ↦
  hx.2 v (h.le_of_touches ⟨x, hx.1.1, hx.1.2, rfl⟩) h.touches_first hf

theorem at_page (hf : m.userPage d v = some f) (hge : va % pgsize ≤ o) (hlt : o < va % pgsize + n) :
    (va ≤ v * pgsize + o ∧ v * pgsize + o < va + n) ∧ m.At d (v * pgsize + o) f o := by
  have hstart := h.start
  have hfits := h.fits
  have hx : va ≤ v * pgsize + o ∧ v * pgsize + o < va + n := by omega
  refine ⟨hx, by rw [h.div_eq hx.1 hx.2, hf], ?_⟩
  rw [Nat.mul_add_mod', Nat.mod_eq_of_lt (by omega)]

theorem of_at {g : Frame} (hf : m.userPage d v = some f) (hx : va ≤ x ∧ x < va + n)
    (hat : m.At d x g o) :
    g = f ∧ va % pgsize ≤ o ∧ o < va % pgsize + n ∧ x - va = o - va % pgsize := by
  have hstart := h.start
  have hdiv := h.div_eq hx.1 hx.2
  have hmod := Nat.div_add_mod' x pgsize
  obtain ⟨hg, rfl⟩ := hat
  rw [hdiv] at hg hmod
  exact ⟨Option.some.inj (hg.symm.trans hf), by omega, by omega, by omega⟩

end Round

/-- What the loop does to the memory, if it writes to no page table. -/
structure Stored (m m' : Machine) (d : Frame) (va : ℕ) (buf : List UInt8) (r : Bool) : Prop where
  zero_iff : r = true ↔ ∀ v, Touches va buf.length v → m.userPage d v ≠ none
  only : ∀ f o, m'.mem f o ≠ m.mem f o → ∃ x, Written m d va buf.length x ∧ m.At d x f o
  copied : ∀ x f (o : Fin (1024 * 4)), Written m d va buf.length x → m.At d x f o →
    (∀ y, Written m d va buf.length y → m.At d y f o → y = x) → buf[x - va]? = some (m'.mem f o)

/-- What the loop does with the byte `c` throughout. What has become `c` stays so, and page tables
that are the same in the end have never been others. -/
structure Flooded (m m' : Machine) (d : Frame) (va len : ℕ) (c : UInt8) : Prop where
  changed : ∀ f o, m'.mem f o ≠ m.mem f o → m'.mem f o = c
  reached : SameTables m m' d → Reached m d va len
  written : SameTables m m' d → ∀ x f (o : Fin (1024 * 4)), Written m d va len x →
    m.At d x f o → m'.mem f o = c

theorem nothing_to_write (h : buf = []) :
    Reached m d va buf.length ∧ ∀ x, ¬Written m d va buf.length x := by
  subst h
  refine ⟨fun v ⟨x, hge, hlt, _⟩ ↦ ?_, fun x hx ↦ ?_⟩
  · exact absurd hlt (not_lt.mpr hge)
  · exact absurd hx.1.2 (not_lt.mpr hx.1.1)

theorem Stored.idle (hno : ∀ x, ¬Written m d va buf.length x)
    (hr : r = true ↔ ∀ v, Touches va buf.length v → m.userPage d v ≠ none) :
    Stored m m d va buf r :=
  ⟨hr, fun _ _ hne ↦ absurd rfl hne, fun x _ _ hx ↦ absurd hx (hno x)⟩

theorem Flooded.idle {c : UInt8} (h : Reached m d va len ∧ ∀ x, ¬Written m d va len x) :
    Flooded m m d va len c :=
  ⟨fun _ _ hne ↦ absurd rfl hne, fun _ ↦ h.1, fun _ x _ _ hx ↦ absurd hx (h.2 x)⟩

namespace Round

variable {va' n : ℕ} (hr : Round va va' buf.length n v) (hf : m.userPage d v = some f)
include hr hf

theorem stored (ht : f ∉ m.tables d)
    (h : Stored (m.put f (va % pgsize) (buf.take n)) m' d va' (buf.drop n) r) :
    Stored m m' d va buf r := by
  have hsame := sameTables_put (va % pgsize) (buf.take n) ht
  have hwritten := fun {x : ℕ} ↦ hr.written_iff (x := x) hf hsame
  obtain ⟨hzero, honly, hcopied⟩ := h
  simp only [Machine.At, hsame.userPage, List.length_drop] at hzero honly hcopied
  refine ⟨?_, fun g o hne ↦ ?_, fun x g o hx hat huniq ↦ ?_⟩
  · rw [hzero, hr.forall_touches_iff hf]
  · by_cases hlater : m'.mem g o = (m.put f (va % pgsize) (buf.take n)).mem g o
    · rw [hlater] at hne
      obtain ⟨rfl, hge, hlt⟩ := mem_put_ne hr.le hne
      obtain ⟨hx, hat⟩ := hr.at_page hf hge hlt
      exact ⟨_, hwritten.mpr (.inl hx), hat⟩
    · obtain ⟨x, hx, hat⟩ := honly g o hlater
      exact ⟨x, hwritten.mpr (.inr hx), hat⟩
  · rcases hwritten.mp hx with hin | hrest
    · -- a later round that wrote to the same byte would do so at another address
      obtain ⟨rfl, hge, hlt, hidx⟩ := hr.of_at hf hin hat
      rw [hidx, getElem?_put hr.le hge hlt]
      by_contra hne
      obtain ⟨y, hy, hat'⟩ := honly g o fun heq ↦ hne (by rw [heq])
      have hout := hr.rest.mp hy.1
      have heq := huniq y (hwritten.mpr (.inr hy)) hat'
      omega
    · have hout := hr.rest.mp hrest.1
      have hnext := hr.next (by omega)
      have hbyte := hcopied x g o hrest hat fun y hy ↦ huniq y (hwritten.mpr (.inr hy))
      rw [List.getElem?_drop] at hbyte
      have hidx : n + (x - va') = x - va := by omega
      rwa [hidx] at hbyte

theorem flooded {c : UInt8} (hc : ∀ b ∈ buf, b = c) (ht : m.table d (pdx v) ≠ none)
    (h : Flooded (m.put f (va % pgsize) (buf.take n)) m' d va' (buf.drop n).length c) :
    Flooded m m' d va buf.length c := by
  have hput (o : Fin (1024 * 4)) (hge : va % pgsize ≤ o) (hlt : o < va % pgsize + n) :
      (m.put f (va % pgsize) (buf.take n)).mem f o = c ∧ m'.mem f o = c := by
    have hfirst := hc _ (List.mem_of_getElem? (getElem?_put (m := m) (f := f) hr.le hge hlt))
    refine ⟨hfirst, ?_⟩
    by_contra hne
    exact hne (h.changed f o fun heq ↦ hne (heq.trans hfirst))
  have hsame (hend : SameTables m m' d) :
      SameTables m (m.put f (va % pgsize) (buf.take n)) d := fun g hg ↦ by
    funext o
    by_contra hne
    obtain ⟨rfl, hge, hlt⟩ := mem_put_ne hr.le hne
    obtain ⟨hfirst, hlast⟩ := hput o hge hlt
    exact hne (by rw [hfirst, ← hlast, hend g hg])
  have hlater (hend : SameTables m m' d) :
      SameTables (m.put f (va % pgsize) (buf.take n)) m' d := fun g hg ↦ by
    rw [(hsame hend).tables] at hg
    exact (hend g hg).trans (hsame hend g hg).symm
  have hlen : (buf.drop n).length = buf.length - n := List.length_drop
  refine ⟨fun g o hne ↦ ?_, fun hend ↦ ?_, fun hend x g o hx hat ↦ ?_⟩
  · by_cases heq : m'.mem g o = (m.put f (va % pgsize) (buf.take n)).mem g o
    · rw [heq] at hne
      obtain ⟨rfl, hge, hlt⟩ := mem_put_ne hr.le hne
      exact (hput o hge hlt).2
    · exact h.changed g o heq
  · exact (hr.reached_iff ht hf (hsame hend)).mp (hlen ▸ h.reached (hlater hend))
  · rcases (hr.written_iff hf (hsame hend)).mp hx with hin | hrest
    · obtain ⟨rfl, hge, hlt, -⟩ := hr.of_at hf hin hat
      exact (hput o hge hlt).2
    · rw [← hlen] at hrest
      exact h.written (hlater hend) x g o hrest ((hsame hend).at hat)

end Round

theorem round_of_loop {va : UInt32} (hpos : 0 < len) (hva : va.toNat + len ≤ 2 ^ 32) :
    (va / 4096 * 4096).toNat / pgsize = va.toNat / pgsize ∧
      (va - va / 4096 * 4096).toNat = va.toNat % pgsize ∧
      Round va.toNat (va / 4096 * 4096 + 4096).toNat len
        (min (pgsize - va.toNat % pgsize) len) (va.toNat / pgsize) := by
  have hlt := va.toNat_lt
  have hva0 : (va / 4096 * 4096).toNat = va.toNat / 4096 * 4096 := by
    simp only [UInt32.toNat_mul, UInt32.toNat_div, UInt32.reduceToNat]
    omega
  have hle : va / 4096 * 4096 ≤ va := by
    rw [UInt32.le_iff_toNat_le, hva0]
    omega
  refine ⟨?_, ?_, rfl, rfl, hpos, fun hmore ↦ ?_⟩
  · rw [hva0]
    exact Nat.mul_div_cancel _ (by decide)
  · rw [UInt32.toNat_sub_of_le _ _ hle, hva0]
    simp only [pgsize]
    omega
  · simp only [pgsize] at hmore ⊢
    rw [UInt32.toNat_add, hva0]
    simp only [UInt32.reduceToNat]
    omega

theorem spec_round {fuel : ℕ} {va : UInt32} {Q : Bool → Machine → Prop}
    (hva : va.toNat + buf.length ≤ 2 ^ 32) (hfuel : buf.length ≤ fuel + 1)
    (hnil : buf = [] → Q true m)
    (h : ∀ (va' : UInt32) n v, Round va.toNat va'.toNat buf.length n v →
      (m.table d (pdx v) = none → E .nullPointer) ∧
      (m.table d (pdx v) ≠ none → m.userPage d v = none → Q false m) ∧
      ∀ f, m.table d (pdx v) ≠ none → m.userPage d v = some f →
        va'.toNat + (buf.drop n).length ≤ 2 ^ 32 → (buf.drop n).length ≤ fuel →
        Spec E (copyoutLoop d fuel va' (buf.drop n))
          (m.put f (va.toNat % pgsize) (buf.take n)) Q) :
    Spec E (copyoutLoop d (fuel + 1) va buf) m Q := by
  rw [copyoutLoop]
  split_ifs with hempty
  · exact spec_pure (hnil (List.isEmpty_iff.mp hempty))
  · have hpos : 0 < buf.length := List.length_pos_iff.mpr fun h ↦ hempty (List.isEmpty_iff.mpr h)
    obtain ⟨hpage, hoff, hround⟩ := round_of_loop hpos hva
    obtain ⟨hnull, hnone, hsome⟩ := h _ _ _ hround
    dsimp only
    rw [hoff]
    refine spec_bind (spec_uva2ka (fun ht ↦ hnull (hpage ▸ ht)) fun ht ↦ ?_)
    rw [hpage] at ht ⊢
    cases hf : m.userPage d (va.toNat / pgsize) with
    | none => exact spec_pure (hnone ht hf)
    | some f =>
      have hnext := hround.next
      have hva' := (va / 4096 * 4096 + 4096).toNat_lt
      have hcount := hround.count_pos
      refine spec_bind (spec_modify (hsome f ht hf ?_ ?_)) <;> rw [List.length_drop] <;> omega

/-- **The loop of `copyout`** copies, or it comes to a page without a page table. -/
theorem spec_copyoutLoop {fuel : ℕ} {va : UInt32}
    (hT : ∀ x f o, Written m d va.toNat buf.length x → m.At d x f o → f ∉ m.tables d)
    (hva : va.toNat + buf.length ≤ 2 ^ 32) (hfuel : buf.length ≤ fuel)
    (hE : ¬Reached m d va.toNat buf.length → E .nullPointer) :
    Spec E (copyoutLoop d fuel va buf) m fun r m' ↦
      Reached m d va.toNat buf.length ∧ Stored m m' d va.toNat buf r := by
  have hnil {m va} {buf : List UInt8} (h : buf = []) :
      Reached m d va buf.length ∧ Stored m m d va buf true := by
    obtain ⟨hreached, hno⟩ : Reached m d va buf.length ∧ _ := nothing_to_write h
    refine ⟨hreached, .idle hno ⟨fun _ v ⟨x, hge, hlt, _⟩ ↦ ?_, fun _ ↦ rfl⟩⟩
    rw [h] at hlt
    exact absurd hlt (not_lt.mpr hge)
  induction fuel generalizing m va buf with
  | zero => exact spec_pure (hnil (List.eq_nil_of_length_eq_zero (Nat.le_zero.mp hfuel)))
  | succ fuel ih =>
    refine spec_round hva hfuel hnil fun va' n v hr ↦ ⟨fun ht ↦ hE fun hreached ↦ ?_,
      fun ht hf ↦ ⟨hr.reached_of_none ht hf, .idle (fun _ ↦ hr.not_written hf) ?_⟩,
      fun f ht hf hva' hfuel' ↦ ?_⟩
    · exact hreached v hr.touches_first
        (fun w hw hw' ↦ absurd (hr.le_of_touches hw') (not_le.mpr hw)) ht
    · exact iff_of_false Bool.false_ne_true fun hall ↦ hall v hr.touches_first hf
    · have hfirst : f ∉ m.tables d := by
        obtain ⟨hx, hat⟩ := hr.at_page hf le_rfl (Nat.lt_add_of_pos_right hr.count_pos)
        exact hT _ f _ ((hr.written_iff hf fun _ _ ↦ rfl).mpr (.inl hx)) hat
      have hsame := sameTables_put (va.toNat % pgsize) (buf.take n) hfirst
      have hiff := hr.reached_iff ht hf hsame
      have hwritten := fun {x : ℕ} ↦ hr.written_iff (x := x) hf hsame
      rw [← List.length_drop] at hiff hwritten
      refine (ih (fun x g o hx hat ↦ ?_) hva' hfuel' fun h ↦ hE (mt hiff.mpr h)).imp ?_
      · rw [Machine.At, hsame.userPage] at hat
        rw [hsame.tables]
        exact hT x g o (hwritten.mpr (.inr hx)) hat
      · rintro r m' ⟨hreached, hstored⟩
        exact ⟨hiff.mp hreached, hr.stored hf hfirst hstored⟩

theorem spec_copyoutLoop_const {fuel : ℕ} {va : UInt32} {c : UInt8} (hc : ∀ b ∈ buf, b = c)
    (hva : va.toNat + buf.length ≤ 2 ^ 32) (hfuel : buf.length ≤ fuel) :
    Spec (fun _ ↦ True) (copyoutLoop d fuel va buf) m fun _ m' ↦
      Flooded m m' d va.toNat buf.length c := by
  induction fuel generalizing m va buf with
  | zero =>
    exact spec_pure (.idle (nothing_to_write
      (List.eq_nil_of_length_eq_zero (Nat.le_zero.mp hfuel))))
  | succ fuel ih =>
    refine spec_round hva hfuel (fun h ↦ .idle (nothing_to_write h)) fun va' n v hr ↦
      ⟨fun _ ↦ trivial, fun ht hf ↦ .idle ⟨hr.reached_of_none ht hf, fun _ ↦ hr.not_written hf⟩,
        fun f ht hf hva' hfuel' ↦ ?_⟩
    exact (ih (fun b hb ↦ hc b (List.mem_of_mem_drop hb)) hva' hfuel').imp fun _ _ h ↦
      hr.flooded hf hc ht h

end Loop

/-! ## Exactness -/

theorem Machine.At.userByte {o : Fin (1024 * 4)} (h : m.At d x f o) :
    m.userByte d x = some (m.mem f o) := by
  obtain ⟨hf, ho⟩ := h
  rw [Machine.userByte, hf, ho, Option.map_some, Page.byte, dif_pos o.isLt]

theorem Stored.copiedOut (h : Stored m m' d va p r) (hun : Unaliased m d va p.length)
    (hva : va + p.length ≤ 2 ^ 32) : CopiedOut m m' d va p r := by
  have htables : SameTables m m' d := fun f hf ↦ by
    funext o
    by_contra hne
    obtain ⟨x, hx, hat⟩ := h.only f o hne
    exact (hun x f o hx hat).1 hf
  refine ⟨h.zero_iff, fun hr i hi ↦ ?_, fun y hy hout ↦ ?_, fun f o hne ↦ ?_, htables⟩
  · have hall := h.zero_iff.mp hr
    have hx : Written m d va p.length (va + i) :=
      ⟨⟨Nat.le_add_right .., by omega⟩, fun v _ hv ↦ hall v hv⟩
    obtain ⟨f, hf⟩ := Option.ne_none_iff_exists'.mp (hx.2 _ le_rfl ⟨_, hx.1.1, hx.1.2, rfl⟩)
    have hat : m.At d (va + i) f (⟨(va + i) % pgsize, Nat.mod_lt _ (by decide)⟩ : Fin (1024 * 4)) :=
      ⟨hf, rfl⟩
    have hbyte := h.copied _ f _ hx hat fun y hy haty ↦ ?_
    · rw [(htables.at hat).userByte, ← hbyte, Nat.add_sub_cancel_left]
    · obtain heq | ⟨-, v, hv, hnone⟩ := (hun _ f _ hx hat).2 y (hy.1.2.trans_le hva) haty
      · exact heq
      · exact absurd hnone (hall v hv)
  · cases hf : m.userPage d (y / pgsize) with
    | none => rw [Machine.userByte, Machine.userByte, htables.userPage, hf]; rfl
    | some f =>
      have hat : m.At d y f (⟨y % pgsize, Nat.mod_lt _ (by decide)⟩ : Fin (1024 * 4)) := ⟨hf, rfl⟩
      rw [(htables.at hat).userByte, hat.userByte]
      by_contra hne
      obtain ⟨x, hx, hatx⟩ := h.only f _ fun heq ↦ hne (by rw [heq])
      obtain rfl | ⟨hin, -⟩ := (hun x f _ hx hatx).2 y hy hat
      · exact hout hx.1
      · exact hout hin
  · obtain ⟨x, hx, hat⟩ := h.only f o hne
    exact ⟨x, hx.1.1, hx.1.2, hat⟩

/-- `copyout` returns, and it has copied as it should. -/
def Exact (m : Machine) (d : Frame) (va : UInt32) (p : List UInt8) : Prop :=
  ∃ r, (copyout d va p m).val = .ok r ∧ CopiedOut m (copyout d va p m).state d va.toNat p r

theorem exact_iff_reached {va : UInt32} (hun : Unaliased m d va.toNat p.length)
    (hva : va.toNat + p.length ≤ 2 ^ 32) : Exact m d va p ↔ Reached m d va.toNat p.length := by
  have hspec : Spec (fun _ ↦ ¬Reached m d va.toNat p.length) (copyout d va p) m _ :=
    spec_copyoutLoop (fun x f o hx hat ↦ (hun x f o hx hat).1) hva le_rfl id
  rcases hspec with ⟨r, hr, hreached, hstored⟩ | ⟨e, he, hnot⟩
  · exact ⟨fun _ ↦ hreached, fun _ ↦ ⟨r, hr, hstored.copiedOut hun hva⟩⟩
  · refine ⟨fun hdone ↦ ?_, fun hreached ↦ absurd hreached hnot⟩
    obtain ⟨r, hr, -⟩ := hdone
    rw [he] at hr
    cases hr

section Aliasing

variable {va : UInt32} (h : ∀ p, p.length = len → Exact m d va p)
include h

theorem exists_flooded (hva : va.toNat + len ≤ 2 ^ 32) (c : UInt8) :
    ∃ r m', CopiedOut m m' d va.toNat (List.replicate len c) r ∧ Reached m d va.toNat len ∧
      ∀ x f (o : Fin (1024 * 4)), Written m d va.toNat len x → m.At d x f o → m'.mem f o = c := by
  obtain ⟨r, hr, hcopied⟩ := h _ (List.length_replicate (n := len) (a := c))
  have hlen : (List.replicate len c).length = len := List.length_replicate
  have hflood := (spec_copyoutLoop_const (c := c) (fun _ hb ↦ List.eq_of_mem_replicate hb)
    (by rwa [hlen]) le_rfl).of_ok hr
  exact ⟨r, _, hcopied, hlen ▸ hflood.reached hcopied.tables,
    fun x f o hx ↦ hflood.written hcopied.tables x f o (by rwa [hlen])⟩

/-- Two sources that differ where two addresses share a byte cannot both be copied. -/
theorem eq_of_at {y : ℕ} {o : Fin (1024 * 4)}
    (hall : ∀ v, Touches va.toNat len v → m.userPage d v ≠ none)
    (hx : va.toNat ≤ x ∧ x < va.toNat + len) (hy : va.toNat ≤ y ∧ y < va.toNat + len)
    (hat : m.At d x f o) (haty : m.At d y f o) : y = x := by
  by_contra hne
  have hlen : ((List.replicate len (0 : UInt8)).set (x - va.toNat) 1).length = len := by
    rw [List.length_set, List.length_replicate]
  obtain ⟨r, -, hc⟩ := h _ hlen
  have hcopied := hc.copied (hc.zero_iff.mpr (by rwa [hlen]))
  have hbytex := hcopied (x - va.toNat) (by omega)
  have hbytey := hcopied (y - va.toNat) (by omega)
  rw [Nat.add_sub_cancel' hx.1, (hc.tables.at hat).userByte, List.getElem?_set_self
    (by rw [List.length_replicate]; omega)] at hbytex
  rw [Nat.add_sub_cancel' hy.1, (hc.tables.at haty).userByte, hbytex,
    List.getElem?_set_ne (by omega), List.getElem?_replicate_of_lt (by omega)] at hbytey
  exact absurd hbytey (by decide)

theorem unaliased_of_exact (hva : va.toNat + len ≤ 2 ^ 32) :
    Reached m d va.toNat len ∧ Unaliased m d va.toNat len := by
  obtain ⟨-, -, -, hreached, -⟩ := exists_flooded h hva 0
  refine ⟨hreached, fun x f o hx hat ↦ ?_⟩
  have ho : o < 1024 * 4 := hat.2 ▸ Nat.mod_lt _ (by decide)
  lift o to Fin (1024 * 4) using ho
  -- a source that changes the byte
  obtain ⟨c, hc⟩ : ∃ c, c ≠ m.mem f o := by
    by_cases h0 : m.mem f o = 0
    · exact ⟨1, by rw [h0]; decide⟩
    · exact ⟨0, Ne.symm h0⟩
  obtain ⟨r, m', hcopied, -, hwritten⟩ := exists_flooded h hva c
  have hbyte : m'.mem f o ≠ m.mem f o := by rwa [hwritten x f o hx hat]
  refine ⟨fun hf ↦ hbyte (congrFun (hcopied.tables f hf) o), fun y hy haty ↦ ?_⟩
  have hin : va.toNat ≤ y ∧ y < va.toNat + len := by
    by_contra hout
    have hsame := hcopied.others y hy (by rwa [List.length_replicate])
    rw [(hcopied.tables.at haty).userByte, haty.userByte] at hsame
    exact hbyte (Option.some.inj hsame)
  refine or_iff_not_imp_right.mpr fun hnot ↦ eq_of_at h (fun v hv hnone ↦ ?_) hx.1 hin hat haty
  exact hnot ⟨hin, v, hv, hnone⟩

end Aliasing

theorem unaliased_onePage (hva : va + len ≤ 2 ^ 32) : Unaliased (onePage [] 0) 300 va len := by
  have hpage {y f} (hy : y < 2 ^ 32) (h : (onePage [] 0).userPage 300 (y / pgsize) = some f) :
      y / pgsize = 0 ∧ f = 302 := by
    refine page_onePage pool_small (by decide) (by simp only [pgsize]; omega) ?_
    rw [Machine.userPage, Option.bind_eq_some_iff] at h
    obtain ⟨e, he, huser⟩ := h
    rw [Machine.page, he, Option.map_some]
    exact (Option.ite_none_right_eq_some.mp huser).2
  intro x f o hx hat
  obtain ⟨hx0, rfl⟩ := hpage (hx.1.2.trans_le hva) hat.1
  refine ⟨fun ht ↦ ?_, fun y hy haty ↦ .inl ?_⟩
  · have hmap := mapped_onePage (v := 0) pool_small (by decide)
    exact List.disjoint_of_nodup_append (hmap.moves.pool (pool_blank pool_small)).right.nodup ht
      (List.mem_singleton.mpr rfl)
  · have hmod := haty.2.trans hat.2.symm
    rw [← Nat.div_add_mod' y pgsize, (hpage hy haty.1).1, hmod, ← hx0, Nat.div_add_mod']

end SistemasOperacionais.Xv6.Vm
