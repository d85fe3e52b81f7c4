import SistemasOperacionais.Xv6.Log.Transaction

/-!
# The write-ahead discipline

Home blocks reach the disk only from `install_trans`, when the header on the disk records the
transaction, and until then every logged block stays in the cache.

The log has room for one block less than a header can name, and two processes that test the number
of logged blocks at the same time may pass both. What keeps such a transaction off the disk is the
size of the cache: its blocks are pinned in `NBUF` buffers, so the first `bread` of `write_log`
finds no buffer and panics.
-/

namespace SistemasOperacionais.Xv6.Transaction

open Foundations Function Log

open Bio (nbuf)

variable {ι : Type*}

/-! ## The log area -/

namespace Area

variable {g : Area} {k : UInt32} {i j : ℕ}

theorem inLog_start (g : Area) : g.InLog g.start := ⟨le_rfl, by rw [logsize]; omega⟩

theorem place_toNat (h : i + 1 < logsize) : (g.place i).toNat = g.start.toNat + (i + 1) := by
  have hfits := g.fits
  have hsize : Bio.fssize.toNat = 1000 := rfl
  rw [logsize] at h hfits
  rw [place, UInt32.toNat_add, UInt32.toNat_ofNat']
  omega

theorem inLog_place (h : i + 1 < logsize) : g.InLog (g.place i) := by
  have heq := place_toNat (g := g) h
  exact ⟨by omega, by omega⟩

theorem place_inj (hi : i + 1 < logsize) (hj : j + 1 < logsize) (h : g.place i = g.place j) :
    i = j := by
  have hi' := place_toNat (g := g) hi
  have hj' := place_toNat (g := g) hj
  rw [h] at hi'
  omega

theorem place_ne_start (h : i + 1 < logsize) : g.place i ≠ g.start := fun heq ↦ by
  have h' := place_toNat (g := g) h
  rw [heq] at h'
  omega

end Area

/-! ## The invariant -/

section Invariant

variable (g : Area) (s : State ι) (p : ι)

/-- The process is in the cache reading block `k`, or has just got it. -/
def Reads (k : UInt32) : Prop :=
  (s.bio.pc p).request = some (g.dev, k) ∨
    s.bio.pc p = .out ∧ ∃ b, s.bio.ret p = some b ∧ s.bio.held p b = true ∧
      (s.bio.buf b).Is g.dev k ∧ s.bio.modified b = false

/-- The process is writing the buffer, or has just written it. -/
def Writes (b : Fin nbuf) : Prop :=
  (s.bio.pc p).writing = some b ∨ s.bio.pc p = .out ∧ (s.bio.buf b).dirty = false

/-- The process holds block `k` in buffer `b`. -/
def Holding (b : Fin nbuf) (k : UInt32) : Prop :=
  s.bio.held p b = true ∧ (s.bio.buf b).Is g.dev k

/-- The header on the disk records the transaction. -/
def Recorded : Prop := readHead (s.bio.disk g.dev g.start) = s.lh

/-- The first `n` logged blocks are in the log. -/
def Copied (n : ℕ) : Prop :=
  ∀ i < n, ∀ k, s.lh[i]? = some k → s.bio.last g.dev (g.place i) = s.new k

/-- `bwrite` has been called in this iteration. -/
def Copy.after : Copy → Bool
  | .written _ _ | .released _ => true
  | _ => false

/-- Before the first `bread` of `write_log` has returned. -/
def Copy.early : Copy → Bool
  | .loop | .log => true
  | _ => false

/-- The buffers of the process that copies a block. -/
def CopyAt (i : Bool) (tail : ℕ) : Copy → Prop
  | .loop => s.bio.pc p = .out
  | .log => tail < s.lh.length ∧ Reads g s p (g.place tail)
  | .home l => Holding g s p l (g.place tail) ∧ s.bio.modified l = false ∧
      ∃ k, s.lh[tail]? = some k ∧ Reads g s p k
  | .moved l d => s.bio.pc p = .out ∧ Holding g s p l (g.place tail) ∧
      ∃ k, s.lh[tail]? = some k ∧ Holding g s p d k ∧
        (s.bio.buf (if i then d else l)).data = s.new k
  | .written l d => Holding g s p l (g.place tail) ∧
      ∃ k, s.lh[tail]? = some k ∧ Holding g s p d k ∧ Writes s p (if i then d else l)
  | .released _ => s.bio.pc p = .out ∧ tail < s.lh.length

/-- The buffer of the process that writes the header. -/
def HeadAt : Head → Prop
  | .call => s.bio.pc p = .out
  | .read => Reads g s p g.start
  | .moved h => s.bio.pc p = .out ∧ Holding g s p h g.start ∧
      readHead (s.bio.buf h).data = s.lh
  | .written h => Holding g s p h g.start ∧ Writes s p h ∧
      readHead (s.bio.last g.dev g.start) = s.lh

/-- What holds at each place of `commit`. -/
def Stage : Commit → Prop
  | .copy i tail c =>
    (i = false ∧ tail = 0 ∧ c.early = true ∨ s.lh.length < logsize) ∧
    (i = true → Recorded g s) ∧
    Copied g s (if i then s.lh.length else if c.after then tail + 1 else tail) ∧
    CopyAt g s p i tail c
  | .head c h =>
    s.lh.length < logsize ∧ (c = true → s.lh = []) ∧ Copied g s s.lh.length ∧ HeadAt g s p h
  | .done => s.lh = [] ∧ s.bio.pc p = .out

/-- How many of the logged blocks are not pinned any more. -/
def Commit.unpinned : Commit → ℕ
  | .copy true tail c => if c.after then tail + 1 else tail
  | _ => 0

/-- The buffer that `commit` is writing. -/
def Commit.dst : Commit → Option (Fin nbuf)
  | .copy i _ (.written l d) => some (if i then d else l)
  | .head _ (.written h) => some h
  | _ => none

end Invariant

structure Ops (s : State ι) : Prop where
  count : ∃ S : Finset ι, (∀ p, p ∈ S ↔ s.op p ≠ .out) ∧ S.card = s.outstanding
  alone : s.commit.isSome → s.outstanding = 0

structure Entries (g : Area) (s : State ι) : Prop where
  nodup : s.lh.Nodup
  home : ∀ k ∈ s.lh, ¬g.InLog k
  new : ∀ k ∈ s.lh, s.bio.last g.dev k = s.new k
  pinned : ∀ i k, s.lh[i]? = some k → (∀ x ∈ s.commit, x.2.unpinned ≤ i) →
    ∃ b, (s.bio.buf b).Is g.dev k ∧ (s.bio.buf b).dirty = true

structure Inv (g : Area) (s : State ι) : Prop where
  bio : Bio.Inv s.bio
  ops : Ops s
  entries : Entries g s
  stage : ∀ x ∈ s.commit, Stage g s x.1 x.2
  /-- Only `commit` calls `bwrite`. -/
  quiet : ∀ q, (∀ x ∈ s.commit, x.1 ≠ q) → (s.bio.pc q).writing = none
  logging : ∀ p b, s.op p = .logging b → s.bio.Holds p b ∧ s.Home g b

section Facts

variable {g : Area} {s s' : State ι} {p q : ι} {b : Fin nbuf} {k : UInt32}

theorem Ops.op_eq (h : Ops s) (hc : s.commit.isSome) (p : ι) : s.op p = .out := by
  obtain ⟨S, hS, hcard⟩ := h.count
  rw [h.alone hc, Finset.card_eq_zero] at hcard
  by_contra hne
  have hmem := (hS p).mpr hne
  rw [hcard] at hmem
  exact absurd hmem (Finset.notMem_empty p)

theorem Reads.writing (h : Reads g s p k) : (s.bio.pc p).writing = none := by
  obtain h | ⟨h, -⟩ := h
  · cases hp : s.bio.pc p with
    | out | bget _ _ | asleep _ _ _ | bread _ _ _ => rfl
    | iderw x c | waiting x c | awake x c =>
      rw [hp] at h
      cases c with
      | bread _ _ => rfl
      | bwrite => cases h
  · rw [h]
    rfl

/-- The process in `commit` writes nothing but the destination of its stage. -/
theorem Stage.writing {c : Commit} (h : Stage g s p c) (hw : (s.bio.pc p).writing = some b) :
    c.dst = some b := by
  have hout : s.bio.pc p ≠ .out := fun heq ↦ by
    rw [heq] at hw
    cases hw
  have hreads : ∀ k, ¬Reads g s p k := fun k hr ↦ by
    rw [hr.writing] at hw
    cases hw
  have hwrites : ∀ x, Writes s p x → x = b := fun x hx ↦ by
    obtain hx | ⟨hx, -⟩ := hx
    · rw [hx] at hw
      exact Option.some.inj hw
    · exact absurd hx hout
  cases c with
  | copy i tail c =>
    obtain ⟨-, -, -, hat⟩ := h
    cases c with
    | loop => exact absurd hat hout
    | log => exact absurd hat.2 (hreads _)
    | home l =>
      obtain ⟨-, -, k, -, hr⟩ := hat
      exact absurd hr (hreads k)
    | moved l d => exact absurd hat.1 hout
    | written l d =>
      obtain ⟨-, k, -, -, hx⟩ := hat
      rw [Commit.dst, hwrites _ hx]
    | released x => exact absurd hat.1 hout
  | head c x =>
    obtain ⟨-, -, -, hat⟩ := h
    cases x with
    | call => exact absurd hat hout
    | read => exact absurd hat (hreads _)
    | moved x => exact absurd hat.1 hout
    | written x => rw [Commit.dst, hwrites _ hat.2.1]
  | done => exact absurd h.2 hout

theorem Inv.writer (h : Inv g s) (hw : (s.bio.pc q).writing = some b) :
    ∃ c, s.commit = some (q, c) ∧ c.dst = some b := by
  have hmem : ∃ x ∈ s.commit, x.1 = q := by
    by_contra hno
    push Not at hno
    rw [h.quiet q hno] at hw
    cases hw
  obtain ⟨⟨r, c⟩, hx, rfl⟩ := hmem
  exact ⟨c, hx, (h.stage _ hx).writing hw⟩

/-- A home block that `commit` writes is the one of its iteration of `install_trans`, and it is
recorded. -/
theorem Stage.install_of_dst {c : Commit} (h : Stage g s p c) (hb : c.dst = some b)
    (his : (s.bio.buf b).Is g.dev k) (hk : ¬g.InLog k) :
    ∃ tail l, c = .copy true tail (.written l b) ∧ s.lh[tail]? = some k ∧ Recorded g s := by
  cases c with
  | copy i tail c =>
    obtain ⟨hroom, hrec, -, hat⟩ := h
    cases c with
    | written l d =>
      obtain ⟨hl, k', hk', hd, -⟩ := hat
      have hlen : s.lh.length < logsize := hroom.resolve_left fun h ↦ by cases h.2.2
      have htail := (List.getElem?_eq_some_iff.mp hk').1
      obtain rfl := Option.some.inj hb
      cases i with
      | true =>
        have heq : k' = k := hd.2.2.symm.trans his.2
        exact ⟨tail, l, rfl, heq ▸ hk', hrec rfl⟩
      | false =>
        have heq : g.place tail = k := hl.2.2.symm.trans his.2
        exact absurd (heq ▸ Area.inLog_place (by omega)) hk
    | loop | log | home _ | moved _ _ | released _ => cases hb
  | head c x =>
    obtain ⟨-, -, -, hat⟩ := h
    cases x with
    | written x =>
      obtain rfl := Option.some.inj hb
      have heq : g.start = k := hat.1.2.2.symm.trans his.2
      exact absurd (heq ▸ g.inLog_start) hk
    | call | read | moved _ => cases hb
  | done => cases hb

end Facts

/-! ## Steps of others -/

/-- A step in which the process in `commit` has no part. -/
structure Frame (s s' : State ι) (p : ι) : Prop where
  aside : Bio.Aside s.bio s'.bio p
  keeps : ∀ b, s.bio.held p b = true → Bio.Keeps s.bio s'.bio b ∧ (s.bio.buf b).valid = true
  last : s'.bio.last = s.bio.last
  lh : s'.lh = s.lh
  new : s'.new = s.new

section Frame

variable {g : Area} {s s' : State ι} {p q : ι} {b : Fin nbuf} {k : UInt32}

theorem Holding.frame (h : Holding g s p b k) (f : Frame s s' p) : Holding g s' p b k := by
  refine ⟨?_, (f.keeps b h.1).1.named _ _ h.2⟩
  rw [f.aside.held]
  exact h.1

theorem Reads.frame (h : Reads g s p k) (f : Frame s s' p) : Reads g s' p k := by
  obtain h | ⟨hout, b, hret, hheld, his, hm⟩ := h
  · exact Or.inl (f.aside.request.trans h)
  · have hb : Holding g s' p b k := Holding.frame ⟨hheld, his⟩ f
    refine Or.inr ⟨f.aside.out.mpr hout, b, f.aside.ret.trans hret, hb.1, hb.2, ?_⟩
    rw [(f.keeps b hheld).1.modified, hm]

theorem Writes.frame (h : Writes s p b) (hb : s.bio.held p b = true) (f : Frame s s' p) :
    Writes s' p b := by
  obtain h | ⟨hout, hdirty⟩ := h
  · exact Or.inl (f.aside.writing.trans h)
  · refine Or.inr ⟨f.aside.out.mpr hout, ?_⟩
    obtain heq | ⟨heq, -⟩ := (f.keeps b hb).1.dirty
    · rw [heq, hdirty]
    · exact heq

theorem Copied.congr {n : ℕ} (h : Copied g s n) (hlast : s'.bio.last = s.bio.last)
    (hlh : s'.lh = s.lh) (hnew : s'.new = s.new) : Copied g s' n := by
  intro i hi k hk
  rw [hlast, hnew]
  exact h i hi k (hlh ▸ hk)

theorem Copied.frame {n : ℕ} (h : Copied g s n) (f : Frame s s' p) : Copied g s' n :=
  h.congr f.last f.lh f.new

theorem CopyAt.frame {i : Bool} {tail : ℕ} {c : Copy} (h : CopyAt g s p i tail c)
    (f : Frame s s' p) : CopyAt g s' p i tail c := by
  cases c with
  | loop => exact f.aside.out.mpr h
  | log =>
    rw [CopyAt, f.lh]
    exact ⟨h.1, h.2.frame f⟩
  | home l =>
    obtain ⟨hl, hm, k, hk, hr⟩ := h
    refine ⟨hl.frame f, ?_, k, by rwa [f.lh], hr.frame f⟩
    rw [(f.keeps l hl.1).1.modified, hm]
  | moved l d =>
    obtain ⟨hout, hl, k, hk, hd, hdata⟩ := h
    refine ⟨f.aside.out.mpr hout, hl.frame f, k, by rwa [f.lh], hd.frame f, ?_⟩
    have hheld : s.bio.held p (if i then d else l) = true := by
      cases i with
      | true => exact hd.1
      | false => exact hl.1
    obtain ⟨hkeeps, hv⟩ := f.keeps _ hheld
    rw [(hkeeps.valid hv).2, f.new, hdata]
  | written l d =>
    obtain ⟨hl, k, hk, hd, hw⟩ := h
    refine ⟨hl.frame f, k, by rwa [f.lh], hd.frame f, hw.frame ?_ f⟩
    cases i with
    | true => exact hd.1
    | false => exact hl.1
  | released x =>
    rw [CopyAt, f.lh]
    exact ⟨f.aside.out.mpr h.1, h.2⟩

theorem HeadAt.frame {x : Head} (h : HeadAt g s p x) (f : Frame s s' p) : HeadAt g s' p x := by
  cases x with
  | call => exact f.aside.out.mpr h
  | read => exact Reads.frame h f
  | moved x =>
    obtain ⟨hout, hx, hdata⟩ := h
    obtain ⟨hkeeps, hv⟩ := f.keeps x hx.1
    refine ⟨f.aside.out.mpr hout, hx.frame f, ?_⟩
    rw [(hkeeps.valid hv).2, f.lh, hdata]
  | written x =>
    obtain ⟨hx, hw, hlast⟩ := h
    refine ⟨hx.frame f, hw.frame hx.1 f, ?_⟩
    rw [f.last, f.lh, hlast]

theorem Stage.frame {c : Commit} (h : Stage g s p c) (f : Frame s s' p)
    (hrec : ∀ tail x, c = .copy true tail x → Recorded g s → Recorded g s') : Stage g s' p c := by
  cases c with
  | copy i tail c =>
    obtain ⟨hroom, hr, hcopied, hat⟩ := h
    refine ⟨by rwa [f.lh], fun hi ↦ ?_, ?_, hat.frame f⟩
    · subst hi
      exact hrec tail c rfl (hr rfl)
    · rw [f.lh]
      exact hcopied.frame f
  | head c x =>
    obtain ⟨hroom, hclear, hcopied, hat⟩ := h
    exact ⟨by rwa [f.lh], by rwa [f.lh], by rw [f.lh]; exact hcopied.frame f, hat.frame f⟩
  | done => exact ⟨by rw [f.lh, h.1], f.aside.out.mpr h.2⟩

variable [DecidableEq ι] {havedisk1 : Bool} {a : Bio.Label ι}

theorem holds_of_touches {s s' : Bio.State ι} (hs : Bio.Step havedisk1 s a s')
    (ht : a.Touches b) : ∃ q, a.actor = some q ∧ s.Holds q b := by
  cases hs.taken with
  | @modify q c _ hp | @logWrite q c hp | @bwrite q c hp =>
    obtain rfl : c = b := ht
    exact ⟨q, rfl, hp⟩
  | bread | brelse | run | ideintr => exact ht.elim

theorem keeps_of_held {s s' : Bio.State ι} (h : Bio.Inv s) (hs : Bio.Step havedisk1 s a s')
    (ha : a.actor = some p → ¬a.Touches b) (hb : s.held p b = true) :
    Bio.Keeps s s' b ∧ (s.buf b).valid = true := by
  refine ⟨?_, (h.flags.held p b hb).1⟩
  obtain ht | hfree | hkeeps := h.keeps hs b
  · obtain ⟨q, hq, hholds⟩ := holds_of_touches hs ht
    obtain rfl := h.owners.excl q p b (Or.inl hholds.2) (Or.inl hb)
    exact absurd ht (ha hq)
  · have hbusy := h.owners.busy p b (Or.inl hb)
    rw [hfree.1] at hbusy
    cases hbusy
  · exact hkeeps

/-- Labels that leave the contents of the blocks alone. -/
def Plain (a : Bio.Label ι) : Prop := ∀ p b, a ≠ .logWrite p b ∧ a ≠ .bwrite p b

theorem Plain.last {s s' : Bio.State ι} (ha : Plain a) (h : Bio.Inv s)
    (hs : Bio.Step havedisk1 s a s') : s'.last = s.last := by
  obtain heq | ⟨q, b, hq | hq, -⟩ := h.last_eq hs
  · exact heq
  · exact absurd hq (ha q b).1
  · exact absurd hq (ha q b).2

theorem Inv.frame (h : Inv g s) (hs : Bio.Step havedisk1 s.bio a s'.bio) (ha : a.actor ≠ some p)
    (hplain : Plain a) (hlh : s'.lh = s.lh) (hnew : s'.new = s.new) : Frame s s' p :=
  ⟨h.bio.aside hs ha, fun _ hb ↦ keeps_of_held h.bio hs (absurd · ha) hb, hplain.last h.bio hs,
    hlh, hnew⟩

/-- The header on the disk stays while `install_trans` runs. -/
theorem Inv.recorded (h : Inv g s) (hs : Bio.Step havedisk1 s.bio a s'.bio) {tail : ℕ} {x : Copy}
    (hc : s.commit = some (p, .copy true tail x)) (hlh : s'.lh = s.lh) (hr : Recorded g s) :
    Recorded g s' := by
  rw [Recorded, hlh, ← hr]
  obtain heq | ⟨b, q, his, hw, -⟩ := h.bio.disk_eq hs g.dev g.start
  · rw [heq]
  · obtain ⟨c, hc', hdst⟩ := h.writer hw
    obtain ⟨rfl, rfl⟩ := Prod.mk.inj (Option.some.inj (hc.symm.trans hc'))
    obtain ⟨-, -, -, hat⟩ := h.stage _ hc
    cases x with
    | written l d =>
      obtain ⟨-, k, hk, hd, -⟩ := hat
      obtain rfl := Option.some.inj hdst
      have heq : k = g.start := hd.2.2.symm.trans his.2
      exact absurd g.inLog_start (heq ▸ h.entries.home k (List.mem_of_getElem? hk))
    | loop | log | home _ | moved _ _ | released _ => cases hdst

theorem Inv.pinned (h : Inv g s) {bio : Bio.State ι} (hs : Bio.Step havedisk1 s.bio a bio) {i : ℕ}
    (hk : s.lh[i]? = some k) (hi : ∀ x ∈ s.commit, x.2.unpinned ≤ i) :
    ∃ b, (bio.buf b).Is g.dev k ∧ (bio.buf b).dirty = true := by
  obtain ⟨b, his, hdirty⟩ := h.entries.pinned i k hk hi
  have hhome := h.entries.home k (List.mem_of_getElem? hk)
  refine ⟨b, ?_⟩
  obtain ht | hfree | hkeeps := h.bio.keeps hs b
  · -- the holder may change the data, not the name, and clears no flag
    cases hs.taken with
    | @modify q c =>
      obtain rfl : c = b := ht
      simp only [Bio.State.modify, Bio.State.setBuf, update_self]
      exact ⟨his, hdirty⟩
    | @logWrite q c =>
      obtain rfl : c = b := ht
      simp only [Bio.State.setDirty, Bio.State.setBuf, update_self]
      exact ⟨his, trivial⟩
    | @bwrite q c =>
      obtain rfl : c = b := ht
      rw [Bio.State.bwrite]
      split_ifs
      · exact ⟨his, hdirty⟩
      · simp only [Bio.State.goto, Bio.State.setDirty, Bio.State.setBuf, update_self]
        exact ⟨his, trivial⟩
    | bread | brelse | run | ideintr => exact ht.elim
  · rw [hfree.2] at hdirty
    cases hdirty
  · refine ⟨hkeeps.named _ _ his, ?_⟩
    obtain heq | ⟨-, q, hw⟩ := hkeeps.dirty
    · rw [heq, hdirty]
    · -- the write that has ended is one of `install_trans`
      obtain ⟨c, hc, hdst⟩ := h.writer hw
      obtain ⟨tail, l, rfl, htail, -⟩ := (h.stage _ hc).install_of_dst hdst his hhome
      have hle : tail + 1 ≤ i := hi _ hc
      obtain rfl : tail = i := by
        have h1 := (List.getElem?_eq_some_iff.mp htail)
        have h2 := (List.getElem?_eq_some_iff.mp hk)
        obtain ⟨hlt1, heq1⟩ := h1
        obtain ⟨hlt2, heq2⟩ := h2
        exact (List.Nodup.getElem_inj_iff h.entries.nodup).mp (heq1.trans heq2.symm)
      omega

/-- A process in `log_write` stands still until it goes on itself. -/
theorem Inv.logging_step (h : Inv g s) {bio : Bio.State ι} (hs : Bio.Step havedisk1 s.bio a bio)
    (hop : s.op q = .logging b) (hq : a.actor ≠ some q) :
    bio.Holds q b ∧ (bio.buf b).dev = g.dev ∧ ¬g.InLog (bio.buf b).blockno := by
  obtain ⟨hholds, hhome⟩ := h.logging q b hop
  have haside := h.bio.aside hs hq
  obtain ⟨hkeeps, -⟩ := keeps_of_held h.bio hs (absurd · hq) hholds.2
  obtain ⟨hdev, hno⟩ := hkeeps.named _ _ ⟨rfl, rfl⟩
  refine ⟨⟨haside.out.mpr hholds.1, by rw [haside.held]; exact hholds.2⟩, ?_⟩
  rw [hdev, hno]
  exact hhome

/-- A step of a process that is not in `commit`, or of the disk. -/
theorem Inv.other (h : Inv g s) {bio : Bio.State ι} (hs : Bio.Step havedisk1 s.bio a bio)
    (hplain : Plain a) (hactor : ∀ x ∈ s.commit, a.actor ≠ some x.1)
    (hlog : ∀ q b, s.op q = .logging b → a.actor ≠ some q) : Inv g { s with bio := bio } := by
  refine ⟨h.bio.step hs, ⟨h.ops.count, h.ops.alone⟩,
    ⟨h.entries.nodup, h.entries.home, fun k hk ↦ ?_, fun i k hk hi ↦ ?_⟩, fun x hx ↦ ?_,
    fun q hq ↦ ?_, fun q b hop ↦ ?_⟩
  · change bio.last g.dev k = s.new k
    rw [hplain.last h.bio hs]
    exact h.entries.new k hk
  · exact h.pinned hs hk hi
  · refine (h.stage x hx).frame (h.frame hs (hactor x hx) hplain rfl rfl) fun tail y hy hr ↦ ?_
    have hc : s.commit = some (x.1, .copy true tail y) := by
      rw [← hy]
      exact hx
    exact h.recorded hs hc rfl hr
  · exact h.bio.writing_eq_none hs (fun b ↦ (hplain q b).2) (h.quiet q hq)
  · exact h.logging_step hs hop (hlog q b hop)

end Frame

/-! ## Steps of the process in `commit` -/

section Own

variable [DecidableEq ι] {g : Area} {havedisk1 : Bool} {s s' : State ι} {p : ι} {c c' : Commit}
  {a : Bio.Label ι} {bio : Bio.State ι} {b : Fin nbuf} {k : UInt32} {tail : ℕ}

/-- What remains to be shown about a step of `commit`. -/
theorem Inv.own (h : Inv g s) (hc : s.commit = some (p, c)) (hs : Bio.Step havedisk1 s.bio a bio)
    (ha : a.actor = some p) (hlast : ∀ k ∈ s.lh, bio.last g.dev k = s.new k)
    (hpin : c.unpinned ≤ c'.unpinned)
    (hstage : Stage g { s with bio := bio, commit := some (p, c') } p c') :
    Inv g { s with bio := bio, commit := some (p, c') } := by
  have hsome : s.commit.isSome := by rw [hc]; rfl
  refine ⟨h.bio.step hs, ⟨h.ops.count, fun _ ↦ h.ops.alone hsome⟩,
    ⟨h.entries.nodup, h.entries.home, hlast, fun i k hk hi ↦ ?_⟩, fun x hx ↦ ?_,
    fun q hq ↦ ?_, fun q b hop ↦ ?_⟩
  · refine h.pinned hs hk fun x hx ↦ ?_
    rw [hc] at hx
    obtain rfl := Option.some.inj hx
    exact hpin.trans (hi _ rfl)
  · obtain rfl := Option.some.inj hx
    exact hstage
  · have hne : p ≠ q := hq _ rfl
    have hactor : a.actor ≠ some q := by
      rw [ha]
      exact fun heq ↦ hne (Option.some.inj heq)
    refine (h.bio.aside hs hactor).writing.trans (h.quiet q fun x hx ↦ ?_)
    rw [hc] at hx
    obtain rfl := Option.some.inj hx
    exact hne
  · cases (h.ops.op_eq hsome q).symm.trans hop

theorem Holding.run (h : Holding g s p b k) (hi : Inv g s)
    (hs : Bio.Step havedisk1 s.bio (.run p) s'.bio) : Holding g s' p b k :=
  ⟨hs.run_held hi.bio h.1, (keeps_of_held hi.bio hs (fun _ ↦ id) h.1).1.named _ _ h.2⟩

theorem Reads.run (h : Reads g s p k) (hi : Inv g s)
    (hs : Bio.Step havedisk1 s.bio (.run p) s'.bio) : Reads g s' p k := by
  obtain h | ⟨hout, -⟩ := h
  · obtain ⟨-, hreq⟩ | ⟨b, hout, hret, hheld, his, hm⟩ := hi.bio.run_request hs h
    · exact Or.inl hreq
    · exact Or.inr ⟨hout, b, hret, by rw [hheld, update_self], his, hm⟩
  · exact absurd hout hs.run_ne_out

theorem Writes.run (h : Writes s p b) (hi : Inv g s)
    (hs : Bio.Step havedisk1 s.bio (.run p) s'.bio) : Writes s' p b := by
  obtain h | ⟨hout, -⟩ := h
  · exact (hi.bio.run_writing hs h).2
  · exact absurd hout hs.run_ne_out

theorem Stage.run (h : Stage g s p c) (hi : Inv g s) (hc : s.commit = some (p, c))
    (hs : Bio.Step havedisk1 s.bio (.run p) s'.bio) (hlh : s'.lh = s.lh) (hnew : s'.new = s.new) :
    Stage g s' p c := by
  have hout := hs.run_ne_out
  have hplain : Plain (.run p : Bio.Label ι) := fun _ _ ↦ ⟨nofun, nofun⟩
  have hlast := hplain.last hi.bio hs
  cases c with
  | copy i tail c =>
    obtain ⟨hroom, hr, hn, hat⟩ := h
    refine ⟨by rwa [hlh], fun htrue ↦ ?_, by rw [hlh]; exact hn.congr hlast hlh hnew, ?_⟩
    · subst htrue
      exact hi.recorded hs hc hlh (hr rfl)
    · cases c with
      | loop => exact absurd hat hout
      | log =>
        rw [CopyAt, hlh]
        exact ⟨hat.1, hat.2.run hi hs⟩
      | home l =>
        obtain ⟨hl, hm, k, hk, hr⟩ := hat
        refine ⟨hl.run hi hs, ?_, k, by rwa [hlh], hr.run hi hs⟩
        rw [(keeps_of_held hi.bio hs (fun _ ↦ id) hl.1).1.modified, hm]
      | moved l d => exact absurd hat.1 hout
      | written l d =>
        obtain ⟨hl, k, hk, hd, hw⟩ := hat
        exact ⟨hl.run hi hs, k, by rwa [hlh], hd.run hi hs, hw.run hi hs⟩
      | released x => exact absurd hat.1 hout
  | head c x =>
    obtain ⟨hroom, hclear, hn, hat⟩ := h
    refine ⟨by rwa [hlh], by rwa [hlh], by rw [hlh]; exact hn.congr hlast hlh hnew, ?_⟩
    cases x with
    | call => exact absurd hat hout
    | read => exact Reads.run hat hi hs
    | moved x => exact absurd hat.1 hout
    | written x =>
      obtain ⟨hx, hw, hdata⟩ := hat
      exact ⟨hx.run hi hs, hw.run hi hs, by rw [hlast, hlh, hdata]⟩
  | done => exact absurd h.2 hout

theorem Inv.run (h : Inv g s) (hs : Bio.Step havedisk1 s.bio (.run p) bio) :
    Inv g { s with bio := bio } := by
  have hplain : Plain (.run p : Bio.Label ι) := fun _ _ ↦ ⟨nofun, nofun⟩
  by_cases hp : ∃ c, s.commit = some (p, c)
  · obtain ⟨c, hc⟩ := hp
    have hinv := h.own hc hs rfl (fun k hk ↦ by rw [hplain.last h.bio hs, h.entries.new k hk])
      le_rfl ((h.stage _ hc).run h hc hs rfl rfl)
    rwa [← hc] at hinv
  · refine h.other hs hplain (fun x hx heq ↦ ?_) fun q b hop heq ↦ ?_
    · obtain rfl := Option.some.inj heq
      exact hp ⟨x.2, hx⟩
    · obtain rfl := Option.some.inj heq
      exact hs.run_ne_out (h.logging p b hop).1.1

end Own

/-! ### The calls of `commit` -/

section Calls

variable {g : Area} {havedisk1 : Bool} {s : State ι} {p : ι} {i clear : Bool} {tail : ℕ}
  {x y : Copy} {a : Bio.Label ι} {bio : Bio.State ι} {b l d h₀ : Fin nbuf} {k : UInt32}

theorem Reads.returned (h : Reads g s p k) (hp : s.bio.pc p = .out) (hb : s.bio.ret p = some b) :
    Holding g s p b k ∧ s.bio.modified b = false := by
  obtain hreq | ⟨-, c, hc, hheld, his, hm⟩ := h
  · rw [hp] at hreq
    cases hreq
  · obtain rfl := Option.some.inj (hb.symm.trans hc)
    exact ⟨⟨hheld, his⟩, hm⟩

theorem Holding.data (h : Holding g s p b k) (hi : Inv g s) (hm : s.bio.modified b = false) :
    (s.bio.buf b).data = s.bio.last g.dev k := by
  obtain ⟨hheld, hdev, hno⟩ := h
  obtain ⟨hv, hreal⟩ := hi.bio.flags.held p b hheld
  rw [hi.bio.data.contents b hv hreal hm, hdev, hno]

theorem Inv.buffers (h : Inv g s) (hpin : ∀ x ∈ s.commit, x.2.unpinned = 0) :
    ∃ f : Fin s.lh.length → Fin nbuf, Injective f ∧
      ∀ j, (s.bio.buf (f j)).Is g.dev (s.lh.get j) := by
  have hpinned (j : Fin s.lh.length) : ∃ b, (s.bio.buf b).Is g.dev (s.lh.get j) := by
    obtain ⟨b, his, -⟩ := h.entries.pinned j (s.lh.get j)
      (List.getElem?_eq_some_iff.mpr ⟨j.2, rfl⟩) fun x hx ↦ by rw [hpin x hx]; exact Nat.zero_le _
    exact ⟨b, his⟩
  choose f hf using hpinned
  refine ⟨f, fun j j' heq ↦ ?_, hf⟩
  have hno : s.lh.get j = s.lh.get j' := by rw [← (hf j).2, ← (hf j').2, heq]
  exact List.nodup_iff_injective_get.mp h.entries.nodup hno

theorem Inv.length_lt (h : Inv g s) (hpin : ∀ x ∈ s.commit, x.2.unpinned = 0)
    (hb : (s.bio.buf b).Is g.dev k) (hk : g.InLog k) : s.lh.length < logsize := by
  obtain ⟨f, hinj, hf⟩ := h.buffers hpin
  have hb' : b ∉ Set.range f := by
    rintro ⟨j, rfl⟩
    have hno : s.lh.get j = k := (hf j).2.symm.trans hb.2
    exact h.entries.home _ (List.get_mem _ j) (hno ▸ hk)
  have hcard := Fintype.card_lt_of_injective_of_notMem f hinj hb'
  rwa [Fintype.card_fin, Fintype.card_fin] at hcard

theorem Holding.modify {e : Block} {m : Option (ι × Commit)} (h : Holding g s p b k) :
    Holding g { s with bio := s.bio.modify d e, commit := m } p b k := by
  refine ⟨h.1, ?_⟩
  obtain rfl | hne := eq_or_ne b d
  · simp only [Bio.State.modify, Bio.State.setBuf, update_self]
    exact h.2
  · simp only [Bio.State.modify, Bio.State.setBuf, update_of_ne hne]
    exact h.2

theorem Holding.last (h : Holding g s p b k) (k' : UInt32) :
    (s.bio.setDirty b).last g.dev k' =
      if k' = k then (s.bio.buf b).data else s.bio.last g.dev k' := by
  obtain ⟨-, hdev, hno⟩ := h
  simp only [Bio.State.setDirty, hdev, hno, update_self, update_apply]

variable [DecidableEq ι]

theorem Inv.own_copy {tail' : ℕ} (h : Inv g s) (hc : s.commit = some (p, .copy i tail x))
    (hs : Bio.Step havedisk1 s.bio a bio) (ha : a.actor = some p) (hplain : Plain a)
    (hn : (if x.after then tail + 1 else tail) = if y.after then tail' + 1 else tail')
    (hroom : i = false ∧ tail' = 0 ∧ y.early = true ∨ s.lh.length < logsize)
    (hat : CopyAt g { s with bio := bio, commit := some (p, .copy i tail' y) } p i tail' y) :
    Inv g { s with bio := bio, commit := some (p, .copy i tail' y) } := by
  obtain ⟨-, hrec, hcopied, -⟩ := h.stage _ hc
  have hlast := hplain.last h.bio hs
  refine h.own hc hs ha (fun k hk ↦ by rw [hlast, h.entries.new k hk]) ?_
    ⟨hroom, fun hi ↦ ?_, ?_, hat⟩
  · cases i with
    | false => exact le_rfl
    | true => exact hn.le
  · subst hi
    exact h.recorded hs hc rfl (hrec rfl)
  · rw [← hn]
    exact hcopied.congr hlast rfl rfl

theorem Inv.own_head {v w : Head} (h : Inv g s) (hc : s.commit = some (p, .head clear v))
    (hs : Bio.Step havedisk1 s.bio a bio) (ha : a.actor = some p) (hplain : Plain a)
    (hat : HeadAt g { s with bio := bio, commit := some (p, .head clear w) } p w) :
    Inv g { s with bio := bio, commit := some (p, .head clear w) } := by
  obtain ⟨hroom, hclear, hcopied, -⟩ := h.stage _ hc
  have hlast := hplain.last h.bio hs
  exact h.own hc hs ha (fun k hk ↦ by rw [hlast, h.entries.new k hk]) le_rfl
    ⟨hroom, hclear, hcopied.congr hlast rfl rfl, hat⟩

/-- `bread` of the log block. -/
theorem Inv.copy_loop (h : Inv g s) (hc : s.commit = some (p, .copy i tail .loop))
    (hlt : tail < s.lh.length)
    (hs : Bio.Step havedisk1 s.bio (.bread p g.dev (g.place tail)) bio) :
    Inv g { s with bio := bio, commit := some (p, .copy i tail .log) } := by
  obtain ⟨hroom, -, -, -⟩ := h.stage _ hc
  refine h.own_copy hc hs rfl (fun _ _ ↦ ⟨nofun, nofun⟩) rfl hroom ⟨hlt, Or.inl ?_⟩
  simp only [hs.bread_eq, Bio.State.goto, update_self]
  rfl

/-- `bread` of the home block. A log block has been found a buffer, so the transaction fits. -/
theorem Inv.copy_log (h : Inv g s) (hc : s.commit = some (p, .copy i tail .log))
    (hp : s.bio.pc p = .out) (hl : s.bio.ret p = some l) (hk : s.lh[tail]? = some k)
    (hs : Bio.Step havedisk1 s.bio (.bread p g.dev k) bio) :
    Inv g { s with bio := bio, commit := some (p, .copy i tail (.home l)) } := by
  obtain ⟨hroom, -, -, -, hr⟩ := h.stage _ hc
  obtain ⟨hl, hm⟩ := hr.returned hp hl
  have hlt : s.lh.length < logsize := by
    obtain ⟨rfl, rfl, -⟩ | hlt := hroom
    · refine h.length_lt (fun x hx ↦ ?_) hl.2 (Area.inLog_place (by decide))
      rw [hc] at hx
      obtain rfl := Option.some.inj hx
      rfl
    · exact hlt
  obtain rfl := hs.bread_eq
  refine h.own_copy hc hs rfl (fun _ _ ↦ ⟨nofun, nofun⟩) rfl (Or.inr hlt)
    ⟨hl, hm, k, hk, Or.inl ?_⟩
  simp only [Bio.State.goto, update_self]
  rfl

/-- The `memmove`. -/
theorem Inv.copy_home (h : Inv g s) (hc : s.commit = some (p, .copy i tail (.home l)))
    (hp : s.bio.pc p = .out) (hd : s.bio.ret p = some d)
    (hs : Bio.Step havedisk1 s.bio (if i then .modify p d (s.bio.buf l).data
      else .modify p l (s.bio.buf d).data) bio) :
    Inv g { s with bio := bio, commit := some (p, .copy i tail (.moved l d)) } := by
  obtain ⟨hroom, -, hcopied, hl, hml, k, hk, hr⟩ := h.stage _ hc
  have hlt : s.lh.length < logsize := hroom.resolve_left fun h ↦ by cases h.2.2
  obtain ⟨hd, hmd⟩ := hr.returned hp hd
  cases i with
  | true =>
    obtain rfl := hs.modify_eq.2
    refine h.own_copy hc hs rfl (fun _ _ ↦ ⟨by rintro ⟨⟩, by rintro ⟨⟩⟩) rfl (Or.inr hlt)
      ⟨hp, hl.modify, k, hk, hd.modify, ?_⟩
    have htail := (List.getElem?_eq_some_iff.mp hk).1
    simp only [Bio.State.modify, Bio.State.setBuf, if_true, update_self]
    rw [hl.data h hml]
    exact hcopied tail htail k hk
  | false =>
    obtain rfl := hs.modify_eq.2
    refine h.own_copy hc hs rfl (fun _ _ ↦ ⟨by rintro ⟨⟩, by rintro ⟨⟩⟩) rfl (Or.inr hlt)
      ⟨hp, hl.modify, k, hk, hd.modify, ?_⟩
    simp only [Bio.State.modify, Bio.State.setBuf, Bool.false_eq_true, if_false, update_self]
    rw [hd.data h hmd]
    exact h.entries.new k (List.mem_of_getElem? hk)

theorem Holding.bwrite {m : Option (ι × Commit)} {z : Bio.Pc} (h : Holding g s p b k) :
    Holding g { s with bio := (s.bio.setDirty d).goto p z, commit := m } p b k := by
  refine ⟨h.1, ?_⟩
  obtain rfl | hne := eq_or_ne b d
  · simp only [Bio.State.goto, Bio.State.setDirty, Bio.State.setBuf, update_self]
    exact h.2
  · simp only [Bio.State.goto, Bio.State.setDirty, Bio.State.setBuf, update_of_ne hne]
    exact h.2

/-- `bwrite`. -/
theorem Inv.copy_moved (h : Inv g s) (hc : s.commit = some (p, .copy i tail (.moved l d)))
    (hs : Bio.Step havedisk1 s.bio (.bwrite p (if i then d else l)) bio) :
    Inv g { s with bio := bio, commit := some (p, .copy i tail (.written l d)) } := by
  obtain ⟨hroom, hrec, hcopied, -, hl, k, hk, hd, hdata⟩ := h.stage _ hc
  have hlt : s.lh.length < logsize := hroom.resolve_left fun h ↦ by cases h.2.2
  have htail := (List.getElem?_eq_some_iff.mp hk).1
  have hmem := List.mem_of_getElem? hk
  obtain rfl := hs.bwrite_eq h.bio
  cases i with
  | true =>
    have hlast (k' : UInt32) := hd.last k'
    refine h.own hc hs rfl (fun k' hk' ↦ ?_) (Nat.le_succ tail) ⟨Or.inr hlt, fun _ ↦ ?_,
      fun j hj k' hk' ↦ ?_, hl.bwrite, k, hk, hd.bwrite, Or.inl ?_⟩
    · refine (hlast k').trans ?_
      obtain rfl | hne := eq_or_ne k' k
      · rw [if_pos rfl]
        exact hdata
      · rw [if_neg hne]
        exact h.entries.new k' hk'
    · exact h.recorded hs hc rfl (hrec rfl)
    · have hj : j < s.lh.length := hj
      have hne : g.place j ≠ k := fun heq ↦
        h.entries.home k hmem (heq ▸ Area.inLog_place (by omega))
      refine (hlast _).trans ?_
      rw [if_neg hne]
      exact hcopied j hj k' hk'
    · simp only [Bio.State.goto, update_self]
      rfl
  | false =>
    have hlast (k' : UInt32) := hl.last k'
    refine h.own hc hs rfl (fun k' hk' ↦ ?_) le_rfl ⟨Or.inr hlt, by rintro ⟨⟩,
      fun j hj k' hk' ↦ ?_, hl.bwrite, k, hk, hd.bwrite, Or.inl ?_⟩
    · have hne : k' ≠ g.place tail := fun heq ↦
        h.entries.home k' hk' (heq ▸ Area.inLog_place (by omega))
      refine (hlast k').trans ?_
      rw [if_neg hne]
      exact h.entries.new k' hk'
    · have hj : j < tail + 1 := hj
      refine (hlast _).trans ?_
      obtain rfl | hne := eq_or_ne j tail
      · obtain rfl := Option.some.inj (hk.symm.trans hk')
        rw [if_pos rfl]
        exact hdata
      · rw [if_neg fun heq ↦ hne (Area.place_inj (by omega) (by omega) heq)]
        exact hcopied j (show j < tail by omega) k' hk'
    · simp only [Bio.State.goto, update_self]
      rfl

/-- The first `brelse`. -/
theorem Inv.copy_written (h : Inv g s) (hc : s.commit = some (p, .copy i tail (.written l d)))
    (hs : Bio.Step havedisk1 s.bio (.brelse p b) bio) :
    Inv g { s with bio := bio, commit := some (p, .copy i tail (.released h₀)) } := by
  obtain ⟨hroom, -, -, -, k, hk, -⟩ := h.stage _ hc
  have hlt : s.lh.length < logsize := hroom.resolve_left fun h ↦ by cases h.2.2
  exact h.own_copy hc hs rfl (fun _ _ ↦ ⟨nofun, nofun⟩) rfl (Or.inr hlt)
    ⟨hs.brelse_eq.1, (List.getElem?_eq_some_iff.mp hk).1⟩

/-- The second `brelse`. -/
theorem Inv.copy_released (h : Inv g s) (hc : s.commit = some (p, .copy i tail (.released h₀)))
    (hs : Bio.Step havedisk1 s.bio (.brelse p b) bio) :
    Inv g { s with bio := bio, commit := some (p, .copy i (tail + 1) .loop) } := by
  obtain ⟨hroom, -⟩ := h.stage _ hc
  have hlt : s.lh.length < logsize := hroom.resolve_left fun h ↦ by cases h.2.2
  exact h.own_copy hc hs rfl (fun _ _ ↦ ⟨nofun, nofun⟩) rfl (Or.inr hlt) hs.brelse_eq.1

theorem Inv.head_call (h : Inv g s) (hc : s.commit = some (p, .head clear .call))
    (hs : Bio.Step havedisk1 s.bio (.bread p g.dev g.start) bio) :
    Inv g { s with bio := bio, commit := some (p, .head clear .read) } := by
  refine h.own_head hc hs rfl (fun _ _ ↦ ⟨nofun, nofun⟩) (Or.inl ?_)
  simp only [hs.bread_eq, Bio.State.goto, update_self]
  rfl

theorem Inv.head_read (h : Inv g s) (hc : s.commit = some (p, .head clear .read))
    (hp : s.bio.pc p = .out) (hb : s.bio.ret p = some b)
    (hs : Bio.Step havedisk1 s.bio (.modify p b (writeHead s.lh (s.bio.buf b).data)) bio) :
    Inv g { s with bio := bio, commit := some (p, .head clear (.moved b)) } := by
  obtain ⟨hroom, -, -, hr⟩ := h.stage _ hc
  obtain ⟨hh, -⟩ := Reads.returned hr hp hb
  obtain rfl := hs.modify_eq.2
  refine h.own_head hc hs rfl (fun _ _ ↦ ⟨nofun, nofun⟩) ⟨hp, hh.modify, ?_⟩
  simp only [Bio.State.modify, Bio.State.setBuf, update_self]
  rw [logsize] at hroom
  exact readHead_writeHead (by rw [bsize]; omega)

theorem Inv.head_moved (h : Inv g s) (hc : s.commit = some (p, .head clear (.moved b)))
    (hs : Bio.Step havedisk1 s.bio (.bwrite p b) bio) :
    Inv g { s with bio := bio, commit := some (p, .head clear (.written b)) } := by
  obtain ⟨hroom, hclear, hcopied, -, hh, hdata⟩ := h.stage _ hc
  obtain rfl := hs.bwrite_eq h.bio
  have hlast (k' : UInt32) := hh.last k'
  refine h.own hc hs rfl (fun k' hk' ↦ ?_) le_rfl ⟨hroom, hclear, fun j hj k' hk' ↦ ?_,
    hh.bwrite, Or.inl ?_, ?_⟩
  · have hne : k' ≠ g.start := fun heq ↦ h.entries.home k' hk' (heq ▸ g.inLog_start)
    refine (hlast k').trans ?_
    rw [if_neg hne]
    exact h.entries.new k' hk'
  · have hj : j < s.lh.length := hj
    refine (hlast _).trans ?_
    rw [if_neg (Area.place_ne_start (by omega))]
    exact hcopied j hj k' hk'
  · simp only [Bio.State.goto, update_self]
    rfl
  · have heq := hlast g.start
    rw [if_pos rfl] at heq
    change readHead ((s.bio.setDirty b).last g.dev g.start) = s.lh
    rw [heq, hdata]

/-- The end of `write_head`. The header is on the disk, since its buffer is clean. -/
theorem Inv.head_written (h : Inv g s) (hc : s.commit = some (p, .head clear (.written b)))
    (hp : s.bio.pc p = .out) (hs : Bio.Step havedisk1 s.bio (.brelse p b) bio) :
    Inv g { s with
      bio := bio
      commit := some (p, if clear then .done else .copy true 0 .loop) } := by
  obtain ⟨hroom, hclear, hcopied, hh, hw, hdata⟩ := h.stage _ hc
  obtain ⟨hout, hlast, hdisk⟩ := hs.brelse_eq
  have hnew : ∀ k ∈ s.lh, bio.last g.dev k = s.new k := fun k hk ↦ by
    rw [hlast, h.entries.new k hk]
  cases clear with
  | true => exact h.own hc hs rfl hnew le_rfl ⟨hclear rfl, hout⟩
  | false =>
    refine h.own hc hs rfl hnew le_rfl
      ⟨Or.inr hroom, fun _ ↦ ?_, hcopied.congr hlast rfl rfl, hout⟩
    have hdirty : (s.bio.buf b).dirty = false := by
      obtain hw | ⟨-, hd⟩ := hw
      · rw [hp] at hw
        cases hw
      · exact hd
    change readHead (bio.disk g.dev g.start) = s.lh
    obtain heq | ⟨c, his, hd⟩ := h.bio.data.disk g.dev g.start g.real
    · rw [hdisk, heq, hdata]
    · obtain rfl := h.bio.data.unique b c g.dev g.start g.real hh.2 his
      rw [hdirty] at hd
      cases hd

end Calls

/-! ## The step -/

section Step

theorem Inv.initial (g : Area) (disk : UInt32 → UInt32 → Block) : Inv g (initial ι disk) where
  bio := .initial disk
  ops := ⟨⟨∅, fun _ ↦ ⟨nofun, fun h ↦ absurd rfl h⟩, rfl⟩, nofun⟩
  entries := ⟨List.nodup_nil, nofun, nofun, nofun⟩
  stage := nofun
  quiet _ _ := rfl
  logging := nofun

section Absorb

variable {lh : List UInt32} {i : ℕ} {k k' : UInt32}

theorem getElem?_absorb (h : (absorb lh k)[i]? = some k') :
    lh[i]? = some k' ∨ k' = k := by
  rw [absorb] at h
  split_ifs at h
  · exact Or.inl h
  · obtain hi | hi := lt_or_ge i lh.length
    · rw [List.getElem?_append_left hi] at h
      exact Or.inl h
    · rw [List.getElem?_append_right hi] at h
      exact Or.inr (List.mem_singleton.mp (List.mem_of_getElem? h))

end Absorb

variable {g : Area} {havedisk1 : Bool} {s s' : State ι} {p : ι} {b : Fin nbuf} {c : Commit}
  {a : Bio.Label ι}

theorem Inv.commit_eq_none (h : Inv g s) (hop : s.op p ≠ .out) : s.commit = none := by
  by_contra hne
  exact hop (h.ops.op_eq (Option.isSome_iff_ne_none.mpr hne) p)

theorem Inv.panic (h : Inv g s) : Inv g s.panic :=
  ⟨h.bio.panic, ⟨h.ops.count, h.ops.alone⟩, ⟨h.entries.nodup, h.entries.home, h.entries.new,
    h.entries.pinned⟩, h.stage, h.quiet, h.logging⟩

/-- The last `end_op` goes into `commit`. -/
theorem Inv.enter (h : Inv g s) (hcommit : s.commit = none) (hzero : s.outstanding = 0)
    (hp : s.bio.pc p = .out) : Inv g { s with
      commit := some (p, if 0 < s.lh.length then .copy false 0 .loop else .done) } := by
  refine ⟨h.bio, ⟨h.ops.count, fun _ ↦ hzero⟩, ⟨h.entries.nodup, h.entries.home, h.entries.new,
    fun i k hk _ ↦ ?_⟩, fun x hx ↦ ?_, fun q _ ↦ ?_, h.logging⟩
  · refine h.entries.pinned i k hk fun x hx ↦ ?_
    rw [hcommit] at hx
    cases hx
  · obtain rfl := Option.some.inj hx
    split_ifs with hpos
    · exact ⟨Or.inl ⟨rfl, rfl, rfl⟩, nofun, nofun, hp⟩
    · exact ⟨List.length_eq_zero_iff.mp (Nat.eq_zero_of_not_pos hpos), hp⟩
  · refine h.quiet q fun x hx ↦ ?_
    rw [hcommit] at hx
    cases hx

variable [DecidableEq ι]

theorem State.bioStep_eq (hs : s.bioStep havedisk1 a = some s') :
    ∃ bio, Bio.Step havedisk1 s.bio a bio ∧ s' = { s with bio := bio } := by
  obtain ⟨bio, hbio, heq⟩ := Option.map_eq_some_iff.mp hs
  exact ⟨bio, hbio, heq.symm⟩

/-- The ends of the loops, and of `commit`. -/
theorem Inv.next (h : Inv g s) (hc : s.commit = some (p, c)) {lh : List UInt32}
    {m : Option Commit} (hlh : lh = s.lh ∧ c.unpinned = 0 ∨ lh = []) (hp : s.bio.pc p = .out)
    (hstage : ∀ c' ∈ m, Stage g { s with lh := lh, commit := some (p, c') } p c') :
    Inv g { s with lh := lh, commit := m.map (p, ·) } := by
  have hsome : s.commit.isSome := by rw [hc]; rfl
  have hsub : ∀ k ∈ lh, k ∈ s.lh := by
    obtain ⟨rfl, -⟩ | rfl := hlh
    · exact fun _ ↦ id
    · nofun
  refine ⟨h.bio, ⟨h.ops.count, fun _ ↦ h.ops.alone hsome⟩,
    ⟨?_, fun k hk ↦ h.entries.home k (hsub k hk), fun k hk ↦ h.entries.new k (hsub k hk),
      fun i k hk hi ↦ ?_⟩, fun x hx ↦ ?_, fun q hq ↦ ?_, h.logging⟩
  · obtain ⟨rfl, -⟩ | rfl := hlh
    · exact h.entries.nodup
    · exact List.nodup_nil
  · obtain ⟨rfl, h0⟩ | rfl := hlh
    · refine h.entries.pinned i k hk fun x hx ↦ ?_
      rw [hc] at hx
      obtain rfl := Option.some.inj hx
      rw [h0]
      exact Nat.zero_le i
    · cases hk
  · obtain ⟨c', hc', rfl⟩ := Option.map_eq_some_iff.mp hx
    obtain rfl : m = some c' := hc'
    exact hstage c' rfl
  · by_cases hq : q = p
    · change (s.bio.pc q).writing = none
      rw [hq, hp]
      rfl
    · refine h.quiet q fun x hx ↦ ?_
      rw [hc] at hx
      obtain rfl := Option.some.inj hx
      exact fun heq ↦ hq heq.symm

theorem Inv.advance (h : Inv g s) (hc : s.commit = some (p, c)) (hp : s.bio.pc p = .out)
    (hs : s.advance g havedisk1 p c = some s') : Inv g s' := by
  have hstage := h.stage _ hc
  cases c with
  | copy i tail x =>
    cases x with
    | loop =>
      by_cases hlt : tail < s.lh.length
      · simp only [State.advance, State.call, if_pos hlt] at hs
        obtain ⟨bio, hbio, rfl⟩ := State.bioStep_eq hs
        exact h.copy_loop hc hlt hbio
      · obtain ⟨hroom, -, hcopied, -⟩ := hstage
        simp only [State.advance, State.call, if_neg hlt] at hs
        cases i with
        | false =>
          obtain rfl := Option.some.inj hs
          refine h.next hc (m := some (.head false .call)) (Or.inl ⟨rfl, rfl⟩) hp ?_
          rintro c' ⟨⟩
          refine ⟨?_, nofun, fun j hj k hk ↦ hcopied j (lt_of_lt_of_le hj (not_lt.mp hlt)) k hk, hp⟩
          obtain ⟨-, rfl, -⟩ | hroom := hroom
          · change s.lh.length < logsize
            rw [logsize]
            omega
          · exact hroom
        | true =>
          obtain rfl := Option.some.inj hs
          refine h.next hc (m := some (.head true .call)) (Or.inr rfl) hp ?_
          rintro c' ⟨⟩
          exact ⟨Nat.succ_pos _, fun _ ↦ rfl, nofun, hp⟩
    | log =>
      cases hl : s.bio.ret p with
      | none =>
        simp only [State.advance, State.call, hl] at hs
        cases hs
      | some l =>
        cases hk : s.lh[tail]? with
        | none =>
          simp only [State.advance, State.call, hl, hk] at hs
          cases hs
        | some k =>
          simp only [State.advance, State.call, hl, hk] at hs
          obtain ⟨bio, hbio, rfl⟩ := State.bioStep_eq hs
          exact h.copy_log hc hp hl hk hbio
    | home l =>
      cases hd : s.bio.ret p with
      | none =>
        simp only [State.advance, State.call, hd] at hs
        cases hs
      | some d =>
        simp only [State.advance, State.call, hd] at hs
        obtain ⟨bio, hbio, rfl⟩ := State.bioStep_eq hs
        exact h.copy_home hc hp hd hbio
    | moved l d =>
      obtain ⟨bio, hbio, rfl⟩ := State.bioStep_eq hs
      exact h.copy_moved hc hbio
    | written l d =>
      obtain ⟨bio, hbio, rfl⟩ := State.bioStep_eq hs
      exact h.copy_written hc hbio
    | released b =>
      obtain ⟨bio, hbio, rfl⟩ := State.bioStep_eq hs
      exact h.copy_released hc hbio
  | head clear x =>
    cases x with
    | call =>
      obtain ⟨bio, hbio, rfl⟩ := State.bioStep_eq hs
      exact h.head_call hc hbio
    | read =>
      cases hb : s.bio.ret p with
      | none =>
        simp only [State.advance, State.call, hb] at hs
        cases hs
      | some b =>
        simp only [State.advance, State.call, hb] at hs
        obtain ⟨bio, hbio, rfl⟩ := State.bioStep_eq hs
        exact h.head_read hc hp hb hbio
    | moved b =>
      obtain ⟨bio, hbio, rfl⟩ := State.bioStep_eq hs
      exact h.head_moved hc hbio
    | written b =>
      obtain ⟨bio, hbio, rfl⟩ := State.bioStep_eq hs
      exact h.head_written hc hp hbio
  | done =>
    obtain rfl := Option.some.inj hs
    exact h.next hc (m := none) (Or.inl ⟨rfl, rfl⟩) hp nofun

theorem Inv.record {bio : Bio.State ι} (h : Inv g s) (hop : s.op p = .logging b)
    (hs : Bio.Step havedisk1 s.bio (.logWrite p b) bio) :
    Inv g { s.record p b with bio := bio } := by
  obtain ⟨hholds, hdev, hhome⟩ := h.logging p b hop
  have hcommit := h.commit_eq_none (p := p) (by rw [hop]; rintro ⟨⟩)
  have hheld : Holding g s p b (s.bio.buf b).blockno := ⟨hholds.2, hdev, rfl⟩
  have hbio := hs.logWrite_eq
  obtain ⟨S, hS, hcard⟩ := h.ops.count
  refine ⟨h.bio.step hs, ⟨⟨S, fun q ↦ ?_, hcard⟩, h.ops.alone⟩,
    ⟨nodup_absorb h.entries.nodup, fun k hk ↦ ?_, fun k hk ↦ ?_, fun i k hk hi ↦ ?_⟩,
    fun x hx ↦ ?_, fun q hq ↦ ?_, fun q c hq ↦ ?_⟩
  · rw [hS]
    obtain rfl | hne := eq_or_ne q p
    · simp only [State.record, update_self, hop]
      exact iff_of_true (by rintro ⟨⟩) (by rintro ⟨⟩)
    · simp only [State.record, update_of_ne hne]
  · obtain hk | rfl := mem_absorb.mp hk
    · exact h.entries.home k hk
    · exact hhome
  · change bio.last g.dev k = update s.new (s.bio.buf b).blockno (s.bio.buf b).data k
    rw [hbio, hheld.last k, update_apply]
    split_ifs with heq
    · rfl
    · exact h.entries.new k ((mem_absorb.mp hk).resolve_right heq)
  · obtain hk | rfl := getElem?_absorb hk
    · exact h.pinned hs hk hi
    · refine ⟨b, ?_⟩
      simp only [hbio, Bio.State.setDirty, Bio.State.setBuf, update_self]
      exact ⟨⟨hdev, rfl⟩, trivial⟩
  · cases hcommit.symm.trans hx
  · exact h.bio.writing_eq_none hs (by rintro _ ⟨⟩) (h.quiet q hq)
  · obtain rfl | hne := eq_or_ne q p
    · simp only [State.record, update_self] at hq
      cases hq
    · simp only [State.record, update_of_ne hne] at hq
      exact h.logging_step hs hq
        fun heq ↦ hne (Option.some.inj heq).symm

/-- Steps under `log.lock`, with the cache as it is. -/
theorem Inv.setOp (h : Inv g s) {o : Op} {n : ℕ} (hcommit : s.commit = none)
    (hcount : ∃ S : Finset ι, (∀ q, q ∈ S ↔ update s.op p o q ≠ .out) ∧ S.card = n)
    (hlog : ∀ b, o = .logging b → s.bio.Holds p b ∧ s.Home g b) :
    Inv g { s with outstanding := n, op := update s.op p o } := by
  refine ⟨h.bio, ⟨hcount, fun hsome ↦ ?_⟩, ⟨h.entries.nodup, h.entries.home, h.entries.new,
    h.entries.pinned⟩, fun x hx ↦ ?_, h.quiet, fun q b hq ↦ ?_⟩
  · simp only [hcommit] at hsome
    cases hsome
  · cases hcommit.symm.trans hx
  · obtain rfl | hne := eq_or_ne q p
    · simp only [update_self] at hq
      exact hlog b hq
    · simp only [update_of_ne hne] at hq
      exact h.logging q b hq

theorem Inv.beginOp (h : Inv g s) (hop : s.op p = .out) (hs : s.beginOp p = some s') :
    Inv g s' := by
  rw [State.beginOp, Option.ite_none_left_eq_some, Option.ite_none_left_eq_some] at hs
  obtain ⟨hcommit, -, hs⟩ := hs
  rw [Bool.not_eq_true, Option.isSome_eq_false_iff, Option.isNone_iff_eq_none] at hcommit
  obtain rfl := Option.some.inj hs
  obtain ⟨S, hS, hcard⟩ := h.ops.count
  have hp : p ∉ S := fun hp ↦ (hS p).mp hp hop
  refine h.setOp hcommit ⟨insert p S, fun q ↦ ?_, ?_⟩ nofun
  · rw [Finset.mem_insert, hS]
    obtain rfl | hne := eq_or_ne q p
    · simp
    · simp [hne]
  · rw [Finset.card_insert_of_notMem hp, hcard]

theorem Inv.endOp (h : Inv g s) (hp : s.bio.pc p = .out) (hop : s.op p = .inside) :
    Inv g (s.endOp p) := by
  have hcommit := h.commit_eq_none (p := p) (by rw [hop]; nofun)
  obtain ⟨S, hS, hcard⟩ := h.ops.count
  have hmem : p ∈ S := (hS p).mpr (by rw [hop]; nofun)
  have hinv : Inv g { s with outstanding := s.outstanding - 1, op := update s.op p .out } := by
    refine h.setOp hcommit ⟨S.erase p, fun q ↦ ?_, ?_⟩ nofun
    · rw [Finset.mem_erase, hS]
      obtain rfl | hne := eq_or_ne q p
      · simp
      · simp [hne]
    · rw [Finset.card_erase_of_mem hmem, hcard]
  simp only [State.endOp, hcommit, Option.isSome_none, Bool.false_eq_true, if_false]
  by_cases hzero : s.outstanding - 1 = 0
  · rw [if_pos hzero]
    exact hinv.enter hcommit hzero hp
  · rw [if_neg hzero]
    rw [hcommit] at hinv
    exact hinv

theorem Inv.logWrite (h : Inv g s) (hholds : s.bio.Holds p b) (hop : s.op p = .inside)
    (hhome : s.Home g b) : Inv g (s.logWrite p b) := by
  have hcommit := h.commit_eq_none (p := p) (by rw [hop]; nofun)
  rw [State.logWrite]
  split_ifs
  · exact h.panic
  · exact h.panic
  · obtain ⟨S, hS, hcard⟩ := h.ops.count
    refine h.setOp hcommit ⟨S, fun q ↦ ?_, hcard⟩ ?_
    · rw [hS]
      obtain rfl | hne := eq_or_ne q p
      · simp [hop]
      · simp [hne]
    · rintro c ⟨⟩
      exact ⟨hholds, hhome⟩

theorem Inv.ownCode (h : Inv g s) {bio : Bio.State ι} (hs : Bio.Step havedisk1 s.bio a bio)
    (hplain : Plain a) (ha : a.actor = some p) (hown : s.Own p)
    (hop : s.op p = .out ∨ s.op p = .inside) : Inv g { s with bio := bio } := by
  refine h.other hs hplain (fun x hx heq ↦ ?_) fun q b hq heq ↦ ?_
  · refine hown.2 ?_
    rw [show s.commit = some x from hx]
    exact heq.symm.trans ha
  · obtain rfl := Option.some.inj (ha.symm.trans heq)
    rw [hq] at hop
    rcases hop with hop | hop
    · cases hop
    · cases hop

theorem Inv.go (h : Inv g s) (hp : s.bio.pc p = .out) (hs : s.go g havedisk1 p = some s') :
    Inv g s' := by
  rw [State.go.eq_def] at hs
  split at hs
  · rename_i b hop
    obtain ⟨bio, hbio, rfl⟩ := State.bioStep_eq hs
    exact h.record hop hbio
  · rename_i q c hc _
    rw [Option.ite_none_right_eq_some] at hs
    obtain ⟨rfl, hs⟩ := hs
    exact h.advance hc hp hs
  · cases hs

theorem Inv.step (h : Inv g s) {a : Label ι} (hs : Step g havedisk1 s a s') : Inv g s' := by
  rw [Step, State.exec.eq_def, Option.ite_none_left_eq_some] at hs
  obtain ⟨-, hs⟩ := hs
  cases a with
  | beginOp p =>
    rw [Option.ite_none_right_eq_some] at hs
    exact h.beginOp hs.1.2 hs.2
  | endOp p =>
    rw [Option.ite_none_right_eq_some] at hs
    obtain rfl := Option.some.inj hs.2
    exact h.endOp hs.1.1.1 hs.1.2
  | bread p dev blockno =>
    rw [Option.ite_none_right_eq_some] at hs
    obtain ⟨bio, hbio, rfl⟩ := State.bioStep_eq hs.2
    exact h.ownCode hbio (fun _ _ ↦ ⟨nofun, nofun⟩) rfl hs.1.1 hs.1.2
  | modify p b d =>
    rw [Option.ite_none_right_eq_some] at hs
    obtain ⟨bio, hbio, rfl⟩ := State.bioStep_eq hs.2
    exact h.ownCode hbio (fun _ _ ↦ ⟨nofun, nofun⟩) rfl hs.1.1 (Or.inr hs.1.2.1)
  | logWrite p b =>
    rw [Option.ite_none_right_eq_some] at hs
    obtain ⟨⟨hown, hop, hhome, hheld⟩, hs⟩ := hs
    obtain rfl := Option.some.inj hs
    exact h.logWrite ⟨hown.1, hheld⟩ hop hhome
  | brelse p b =>
    rw [Option.ite_none_right_eq_some] at hs
    obtain ⟨bio, hbio, rfl⟩ := State.bioStep_eq hs.2
    exact h.ownCode hbio (fun _ _ ↦ ⟨nofun, nofun⟩) rfl hs.1.1 hs.1.2
  | run p =>
    obtain ⟨bio, hbio, rfl⟩ := State.bioStep_eq hs
    exact h.run hbio
  | go p =>
    rw [Option.ite_none_right_eq_some] at hs
    exact h.go hs.1 hs.2
  | ideintr =>
    obtain ⟨bio, hbio, rfl⟩ := State.bioStep_eq hs
    exact h.other hbio (fun _ _ ↦ ⟨nofun, nofun⟩) (fun _ _ ↦ nofun) fun _ _ _ ↦ nofun

end Step

/-! ## The discipline -/

/-- How many of the logged blocks `install_trans` has written. -/
def State.installed (s : State ι) : ℕ :=
  match s.commit with
  | some (p, .copy true tail (.written _ _)) => if s.bio.pc p = .out then tail + 1 else tail
  | some (_, .copy true tail (.released _)) => tail + 1
  | some (_, .copy true tail _) => tail
  | _ => 0

/-- The process in `commit` is in `install_trans`, and the header on the disk records the
transaction, to which block `k` belongs. -/
def Installing (g : Area) (s : State ι) (k : UInt32) : Prop :=
  (∃ p tail c, s.commit = some (p, .copy true tail c)) ∧ Recorded g s ∧ k ∈ s.lh

structure Ahead [DecidableEq ι] (g : Area) (havedisk1 : Bool) (s : State ι) : Prop where
  /-- No write of a home block is requested earlier, -/
  requested : ∀ b ∈ s.bio.idequeue, ∀ k, (s.bio.buf b).Is g.dev k → (s.bio.buf b).dirty = true →
    ¬g.InLog k → Installing g s k
  /-- and none reaches the disk. -/
  written : ∀ a s', Step g havedisk1 s a s' → ∀ k, ¬g.InLog k →
    s'.bio.disk g.dev k ≠ s.bio.disk g.dev k → Installing g s k
  /-- A logged block that is not installed yet is in the cache, with the contents that it had in its
  last `log_write` unless its holder is changing them again. -/
  cached : ∀ i k, s.lh[i]? = some k → s.installed ≤ i → ∃ b, (s.bio.buf b).Is g.dev k ∧
    (s.bio.buf b).valid = true ∧ (s.bio.modified b = false → (s.bio.buf b).data = s.new k)

section Ahead

variable {g : Area} {havedisk1 : Bool} {s s' : State ι} {p q : ι} {b : Fin nbuf} {k : UInt32}

theorem Inv.installing (h : Inv g s) (hw : (s.bio.pc q).writing = some b)
    (his : (s.bio.buf b).Is g.dev k) (hk : ¬g.InLog k) : Installing g s k := by
  obtain ⟨c, hc, hdst⟩ := h.writer hw
  obtain ⟨tail, l, rfl, htail, hrec⟩ := (h.stage _ hc).install_of_dst hdst his hk
  exact ⟨⟨q, tail, _, hc⟩, hrec, List.mem_of_getElem? htail⟩

theorem Inv.data (h : Inv g s) (hk : k ∈ s.lh) (his : (s.bio.buf b).Is g.dev k)
    (hv : (s.bio.buf b).valid = true) (hm : s.bio.modified b = false) :
    (s.bio.buf b).data = s.new k := by
  rw [← h.entries.new k hk, h.bio.data.contents b hv (his.1 ▸ g.real) hm, his.1, his.2]

theorem Inv.cached (h : Inv g s) {i : ℕ} (hk : s.lh[i]? = some k) (hi : s.installed ≤ i) :
    ∃ b, (s.bio.buf b).Is g.dev k ∧ (s.bio.buf b).valid = true := by
  by_cases hpin : ∀ x ∈ s.commit, x.2.unpinned ≤ i
  · obtain ⟨b, his, hdirty⟩ := h.entries.pinned i k hk hpin
    exact ⟨b, his, (h.bio.flags.pinned b hdirty).1⟩
  · -- the block that is being written, in the hands of the process
    push Not at hpin
    obtain ⟨⟨p, c⟩, hc, hlt⟩ := hpin
    have hc : s.commit = some (p, c) := hc
    rw [State.installed, hc] at hi
    have hstage := h.stage _ hc
    cases c with
    | copy install tail x =>
      cases install with
      | false => exact absurd hlt (Nat.not_lt_zero i)
      | true =>
        cases x with
        | written l d =>
          obtain ⟨-, -, -, -, k', hk', hd, -⟩ := hstage
          have hlt : i < tail + 1 := hlt
          have hle : tail ≤ i := by
            simp only at hi
            split_ifs at hi
            · omega
            · exact hi
          obtain rfl : tail = i := by omega
          obtain rfl := Option.some.inj (hk.symm.trans hk')
          exact ⟨d, hd.2, (h.bio.flags.held p d hd.1).1⟩
        | loop | log | home _ | moved _ _ | released _ => exact absurd hlt (not_lt.mpr hi)
    | head _ _ | done => exact absurd hlt (Nat.not_lt_zero i)

/-- Every logged block is in a buffer of its own, so `log_write` never writes past the end of
`log.lh.block`. -/
theorem Inv.length_le (h : Inv g s) : s.lh.length ≤ logsize := by
  by_cases hpin : ∀ x ∈ s.commit, x.2.unpinned = 0
  · obtain ⟨f, hinj, -⟩ := h.buffers hpin
    have hcard := Fintype.card_le_of_injective f hinj
    rwa [Fintype.card_fin, Fintype.card_fin] at hcard
  · push Not at hpin
    obtain ⟨⟨p, c⟩, hc, hne⟩ := hpin
    have hstage := h.stage _ hc
    cases c with
    | copy i tail x =>
      obtain ⟨⟨rfl, -⟩ | hlt, -⟩ := hstage
      · exact absurd rfl hne
      · exact hlt.le
    | head _ _ | done => exact absurd rfl hne

variable [DecidableEq ι]

theorem Step.disk_eq {a : Label ι} (hs : Step g havedisk1 s a s') :
    s'.bio.disk = s.bio.disk ∨ ∃ a', Bio.Step havedisk1 s.bio a' s'.bio := by
  have hbio {t : State ι} {a' : Bio.Label ι} (hs : t.bioStep havedisk1 a' = some s')
      (ht : t.bio = s.bio) : ∃ a', Bio.Step havedisk1 s.bio a' s'.bio := by
    obtain ⟨bio, hbio, rfl⟩ := State.bioStep_eq hs
    exact ⟨a', ht ▸ hbio⟩
  rw [Step, State.exec.eq_def, Option.ite_none_left_eq_some] at hs
  obtain ⟨-, hs⟩ := hs
  cases a with
  | beginOp p =>
    rw [Option.ite_none_right_eq_some, State.beginOp, Option.ite_none_left_eq_some,
      Option.ite_none_left_eq_some] at hs
    rw [← Option.some.inj hs.2.2.2]
    exact Or.inl rfl
  | endOp p =>
    rw [Option.ite_none_right_eq_some] at hs
    rw [← Option.some.inj hs.2, State.endOp]
    split_ifs <;> exact Or.inl rfl
  | logWrite p b =>
    rw [Option.ite_none_right_eq_some] at hs
    rw [← Option.some.inj hs.2, State.logWrite]
    split_ifs <;> exact Or.inl rfl
  | bread _ _ _ | modify _ _ _ | brelse _ _ =>
    rw [Option.ite_none_right_eq_some] at hs
    exact Or.inr (hbio hs.2 rfl)
  | run _ | ideintr => exact Or.inr (hbio hs rfl)
  | go p =>
    rw [Option.ite_none_right_eq_some, State.go.eq_def] at hs
    obtain ⟨-, hs⟩ := hs
    split at hs
    · exact Or.inr (hbio hs rfl)
    · rw [Option.ite_none_right_eq_some, State.advance.eq_def] at hs
      obtain ⟨-, hs⟩ := hs
      split at hs
      · exact Or.inr (hbio hs rfl)
      · rw [← Option.some.inj hs]
        exact Or.inl rfl
      · rw [← Option.some.inj hs]
        exact Or.inl rfl
      · rw [← Option.some.inj hs]
        exact Or.inl rfl
      · cases hs
    · cases hs

theorem Inv.ahead (h : Inv g s) : Ahead g havedisk1 s where
  requested b hb k his hdirty hk := by
    obtain ⟨q, c, hq⟩ := h.bio.flags.queue b hb
    exact h.installing (h.bio.writing_of_dirty (Or.inr hq) hdirty) his hk
  written a s' hs k hk hne := by
    obtain heq | ⟨a', hs⟩ := Step.disk_eq hs
    · rw [heq] at hne
      exact absurd rfl hne
    · obtain heq | ⟨b, q, his, hw, -⟩ := h.bio.disk_eq hs g.dev k
      · exact absurd heq hne
      · exact h.installing hw his hk
  cached i k hk hi := by
    obtain ⟨b, his, hv⟩ := h.cached hk hi
    exact ⟨b, his, hv, h.data (List.mem_of_getElem? hk) his hv⟩

/-- **The write-ahead discipline.** -/
theorem ahead_of_trace {disk : UInt32 → UInt32 → Block} {hist : List (State ι × Label ι)}
    (t : Trace (Step g havedisk1) (initial ι disk) hist s) : Ahead g havedisk1 s :=
  (t.invariant (Inv.initial g disk) fun hi hs ↦ hi.step hs).ahead

end Ahead

/-- The log of the second disk. -/
def secondDisk : Area := ⟨1, 2, by decide, by decide⟩

def firstByte : Fin bsize := ⟨0, by decide⟩

/-- A process changes block 40 of the second disk and commits, up to the write of the block to its
home. -/
def oneBlock : List (Label Unit) :=
  let fetch := [.run (), .run (), .run (), .ideintr, .run ()]
  let cached := [.run (), .run ()]
  let write := [.run (), .ideintr, .run ()]
  [[.beginOp (), .bread () 1 40], fetch, [.modify () Bio.firstBuf fun _ ↦ 7],
    [.logWrite () Bio.firstBuf, .go (), .brelse () Bio.firstBuf, .endOp ()],
    [.go ()], fetch, [.go ()], cached, [.go (), .go ()], write, [.go (), .go (), .go ()],
    [.go ()], fetch, [.go (), .go ()], write, [.go ()],
    [.go ()], cached, [.go ()], cached, [.go (), .go ()]].flatten

theorem ahead_of_trace_oneBlock : ∃ hist s s',
    Trace (Step secondDisk true) (initial Unit fun _ _ _ ↦ 0) hist s ∧
      hist.map Prod.snd = oneBlock ∧ Step secondDisk true s (.run ()) s' ∧
      s'.bio.disk 1 40 ≠ s.bio.disk 1 40 ∧ Installing secondDisk s 40 := by
  have hrun : (execute (State.exec secondDisk true) (initial Unit fun _ _ _ ↦ 0) oneBlock).map
      (fun s ↦ (s.bio.disk 1 40 firstByte, (s.exec secondDisk true (.run ())).map
        fun s' ↦ s'.bio.disk 1 40 firstByte)) = some (0, some 7) := by
    decide +kernel
  obtain ⟨hist, s, t, hlab, hend⟩ : ∃ hist s, Trace (Step secondDisk true) _ hist s ∧ _ :=
    exists_trace_of_execute_map (fun _ _ _ ↦ id) hrun
  obtain ⟨hbefore, hafter⟩ := Prod.mk.inj hend
  obtain ⟨s', hs, hafter⟩ := Option.map_eq_some_iff.mp hafter
  have hne : s'.bio.disk 1 40 ≠ s.bio.disk 1 40 := fun heq ↦ by
    rw [heq, hbefore] at hafter
    cases hafter
  exact ⟨hist, s, s', t, hlab, hs, hne,
    (ahead_of_trace t).written (.run ()) s' hs 40 (by decide) hne⟩

/-- **The log in memory.** `log_write` tests `log.lh.n` without the lock, so several processes may
pass together; there are no more buffers to pin than places in `log.lh.block`. -/
theorem log_of_trace [DecidableEq ι] {g : Area} {havedisk1 : Bool} {s : State ι}
    {disk : UInt32 → UInt32 → Block} {hist : List (State ι × Label ι)}
    (t : Trace (Step g havedisk1) (initial ι disk) hist s) :
    s.lh.length ≤ logsize ∧ s.lh.Nodup ∧
      (∃ S : Finset ι, (∀ p, p ∈ S ↔ s.op p ≠ .out) ∧ S.card = s.outstanding) ∧
      (s.commit.isSome → ∀ p, s.op p = .out) := by
  have h : Inv g s := t.invariant (Inv.initial g disk) fun hi hs ↦ hi.step hs
  exact ⟨h.length_le, h.entries.nodup, h.ops.count, h.ops.op_eq⟩

theorem log_of_trace_oneBlock : ∃ s, execute (State.exec secondDisk true)
    (initial Unit fun _ _ _ ↦ 0) oneBlock = some s ∧ s.lh = [40] ∧ s.op () = .out := by
  have hrun : (execute (State.exec secondDisk true) (initial Unit fun _ _ _ ↦ 0) oneBlock).map
      (fun s ↦ (s.lh, s.commit.isSome)) = some ([40], true) := by decide +kernel
  obtain ⟨s, hs, hend⟩ := Option.map_eq_some_iff.mp hrun
  obtain ⟨hlh, hc⟩ := Prod.mk.inj hend
  exact ⟨s, hs, hlh, (log_of_trace (trace_of_execute (fun _ _ _ ↦ id) hs).1).2.2.2 hc ()⟩

end SistemasOperacionais.Xv6.Transaction
