import SistemasOperacionais.Xv6.Bio.Model

/-!
# Coherence of the buffer cache

In every reachable state the list of buffers is one circle through all of them, a block of a real
device is in at most one buffer, and a busy buffer belongs to one process. From this follows what
the cache is for: a process that reads a block gets what was written to it last.

The invariant comes in parts, by the fields of the state that they speak of: the links, the owners
of the buffers, their flags and the disk queue, and the data.
-/

namespace SistemasOperacionais.Xv6.Bio

open Foundations Function

/-! ## The list -/

/-- The list of all buffers, in the order of `next`. -/
def Lists (next prev : Ptr → Ptr) : Prop :=
  ∃ l : List (Fin nbuf), Circle none next prev (l.map some) ∧ ∀ b, b ∈ l

namespace Links

theorem pushFront_circle {k : Links} {l : List (Fin nbuf)} {b : Fin nbuf}
    (h : Circle none k.next k.prev (l.map some)) (hb : b ∉ l) :
    Circle none (k.pushFront b).next (k.pushFront b).prev ((b :: l).map some) := by
  have hmem : some b ∉ none :: l.map some := by simpa using hb
  have hpush := h.pushFront hmem
  rw [pushFront]
  simp only [update_of_ne (Option.some_ne_none b).symm]
  exact hpush

theorem unlink_circle {k : Links} {x y : List (Fin nbuf)} {b : Fin nbuf}
    (h : Circle none k.next k.prev ((x ++ b :: y).map some)) :
    Circle none (k.unlink b).next (k.unlink b).prev ((x ++ y).map some) := by
  rw [List.map_append, List.map_cons] at h
  have hne := h.next_ne
  rw [unlink, List.map_append]
  simp only [update_of_ne hne.symm]
  exact h.unlink

end Links

theorem foldl_pushFront_circle {k : Links} {l : List (Fin nbuf)} (bs : List (Fin nbuf))
    (h : Circle none k.next k.prev (l.map some)) (hnd : (bs.reverse ++ l).Nodup) :
    Circle none (bs.foldl Links.pushFront k).next (bs.foldl Links.pushFront k).prev
      ((bs.reverse ++ l).map some) := by
  induction bs generalizing k l with
  | nil => exact h
  | cons b bs ih =>
    have heq : (b :: bs).reverse ++ l = bs.reverse ++ b :: l := by simp
    rw [heq] at hnd ⊢
    have hb : b ∉ l := (List.nodup_cons.mp (List.nodup_append.mp hnd).2.1).1
    exact ih (Links.pushFront_circle h hb) hnd

theorem lists_binit : Lists binit.next binit.prev := by
  have h0 : Circle none (⟨fun _ ↦ none, fun _ ↦ none⟩ : Links).next
      (⟨fun _ ↦ none, fun _ ↦ none⟩ : Links).prev (([] : List (Fin nbuf)).map some) := .nil rfl rfl
  have h := foldl_pushFront_circle (List.finRange nbuf) h0
    (by rw [List.append_nil, List.nodup_reverse]; exact List.nodup_finRange nbuf)
  rw [List.append_nil] at h
  exact ⟨_, h, fun b ↦ List.mem_reverse.mpr (List.mem_finRange b)⟩

/-- A walk along a list finds the first buffer that passes the test. -/
theorem walk_eq_find {link : Ptr → Ptr} {test : Fin nbuf → Bool} {l : List (Fin nbuf)} {n : ℕ}
    {q : Ptr} (h : Seg link q (l.map some) none) (hn : l.length ≤ n) :
    walk link test n q = some (l.find? test) := by
  induction l generalizing q n with
  | nil =>
    obtain rfl : q = none := h
    rw [walk, List.find?_nil]
  | cons b l ih =>
    obtain ⟨rfl, h⟩ := h
    obtain ⟨n, rfl⟩ : ∃ m, n = m + 1 := ⟨n - 1, by rw [List.length_cons] at hn; omega⟩
    rw [walk, List.find?_cons]
    cases test b with
    | true => rfl
    | false => exact ih h (by rw [List.length_cons] at hn; omega)

namespace Lists

variable {next prev : Ptr → Ptr} {test : Fin nbuf → Bool} {b : Fin nbuf}

theorem symm (h : Lists next prev) : Lists prev next := by
  obtain ⟨l, hc, hall⟩ := h
  refine ⟨l.reverse, ?_, fun b ↦ List.mem_reverse.mpr (hall b)⟩
  rw [List.map_reverse]
  exact hc.reverse

theorem walk (h : Lists next prev) (test : Fin nbuf → Bool) : ∃ l : List (Fin nbuf), (∀ b, b ∈ l) ∧
    Bio.walk next test nbuf (next none) = some (l.find? test) := by
  obtain ⟨l, hc, hall⟩ := h
  have hnd : l.Nodup := (List.nodup_cons.mp hc.nodup).2.of_map
  have hlen : l.length ≤ nbuf := by simpa using hnd.length_le_card
  exact ⟨l, hall, walk_eq_find hc.seg hlen⟩

theorem walk_ne_none (h : Lists next prev) : Bio.walk next test nbuf (next none) ≠ none := by
  obtain ⟨l, -, hw⟩ := h.walk test
  rw [hw]
  nofun

theorem of_walk_some (h : Lists next prev)
    (hw : Bio.walk next test nbuf (next none) = some (some b)) : test b = true := by
  obtain ⟨l, -, hw'⟩ := h.walk test
  rw [hw] at hw'
  exact List.find?_some (Option.some.inj hw').symm

theorem of_walk_none (h : Lists next prev)
    (hw : Bio.walk next test nbuf (next none) = some none) (b : Fin nbuf) : test b = false := by
  obtain ⟨l, hall, hw'⟩ := h.walk test
  rw [hw] at hw'
  simpa using List.find?_eq_none.mp (Option.some.inj hw').symm b (hall b)

theorem moveFront (h : Lists next prev) (b : Fin nbuf) :
    Lists ((Links.unlink ⟨next, prev⟩ b).pushFront b).next
      ((Links.unlink ⟨next, prev⟩ b).pushFront b).prev := by
  obtain ⟨l, hc, hall⟩ := h
  obtain ⟨x, y, rfl⟩ := List.append_of_mem (hall b)
  have hnd : (x ++ b :: y).Nodup := (List.nodup_cons.mp hc.nodup).2.of_map
  have hb : b ∉ x ++ y := (List.nodup_middle.mp hnd).notMem
  refine ⟨b :: (x ++ y), Links.pushFront_circle (Links.unlink_circle hc) hb, fun c ↦ ?_⟩
  have hc := hall c
  simp only [List.mem_append, List.mem_cons] at hc ⊢
  tauto

end Lists

/-! ## The owners -/

/-- The buffer that a process is fetching. -/
def Pc.fetching : Pc → Option (Fin nbuf)
  | .bread _ _ b | .iderw b (.bread _ _) | .waiting b (.bread _ _) | .awake b (.bread _ _) => some b
  | _ => none

/-- The buffer that a process is writing to the disk. -/
def Pc.writing : Pc → Option (Fin nbuf)
  | .iderw b .bwrite | .waiting b .bwrite | .awake b .bwrite => some b
  | _ => none

variable {ι : Type*}

/-- The process has the buffer: `bread` has returned it, or is about to. -/
def State.Has (s : State ι) (p : ι) (b : Fin nbuf) : Prop :=
  s.held p b = true ∨ (s.pc p).fetching = some b

/-- Who has which buffer. -/
structure Owners (s : State ι) : Prop where
  busy : ∀ p b, s.Has p b → (s.buf b).busy = true
  owner : ∀ b, (s.buf b).busy = true → ∃ p, s.Has p b
  excl : ∀ p q b, s.Has p b → s.Has q b → p = q
  apart : ∀ p b, s.held p b = true → (s.pc p).fetching ≠ some b
  writes : ∀ p b, (s.pc p).writing = some b → s.held p b = true
  modified : ∀ b, s.modified b = true → ∃ p, s.held p b = true ∧ (s.pc p).writing ≠ some b

section Owners

variable {s s' : State ι} {p : ι} {b : Fin nbuf}

namespace Owners

theorem congr (h : Owners s) (hfetch : ∀ p, (s'.pc p).fetching = (s.pc p).fetching)
    (hwrite : ∀ p, (s'.pc p).writing = (s.pc p).writing)
    (hbusy : ∀ b, (s'.buf b).busy = (s.buf b).busy) (hheld : s'.held = s.held)
    (hmod : ∀ b, s'.modified b = true → s.modified b = true ∨
      ∃ p, s.held p b = true ∧ (s.pc p).writing ≠ some b) : Owners s' := by
  have hhas : ∀ p b, s'.Has p b ↔ s.Has p b := fun p b ↦ by
    rw [State.Has, State.Has, hheld, hfetch]
  refine ⟨fun p b hp ↦ ?_, fun b hb ↦ ?_, fun p q b hp hq ↦ ?_, fun p b hp ↦ ?_, fun p b hp ↦ ?_,
    fun b hb ↦ ?_⟩
  · rw [hbusy]
    exact h.busy p b ((hhas p b).mp hp)
  · rw [hbusy] at hb
    obtain ⟨p, hp⟩ := h.owner b hb
    exact ⟨p, (hhas p b).mpr hp⟩
  · exact h.excl p q b ((hhas p b).mp hp) ((hhas q b).mp hq)
  · rw [hfetch]
    rw [hheld] at hp
    exact h.apart p b hp
  · rw [hheld]
    exact h.writes p b (hwrite p ▸ hp)
  · simp only [hheld, hwrite]
    exact (hmod b hb).elim (h.modified b) id

theorem not_has (h : Owners s) (hb : (s.buf b).busy = false) (p : ι) : ¬s.Has p b := fun hp ↦ by
  rw [h.busy p b hp] at hb
  cases hb

theorem has_of_writing (h : Owners s) (hp : (s.pc p).writing = some b) : s.Has p b :=
  Or.inl (h.writes p b hp)

theorem modified_eq_false (h : Owners s)
    (hp : (s.pc p).fetching = some b ∨ (s.pc p).writing = some b) : s.modified b = false := by
  rw [← Bool.not_eq_true]
  intro hmod
  obtain ⟨q, hq, hw⟩ := h.modified b hmod
  rcases hp with hp | hp
  · obtain rfl := h.excl p q b (Or.inr hp) (Or.inl hq)
    exact h.apart p b hq hp
  · obtain rfl := h.excl p q b (h.has_of_writing hp) (Or.inl hq)
    exact hw hp

/-- One process changes what it does with one buffer, which nobody else has. -/
theorem move (h : Owners s)
    (hrest : ∀ q c, q ≠ p ∨ c ≠ b → s'.held q c = s.held q c ∧
      ((s'.pc q).fetching = some c ↔ (s.pc q).fetching = some c) ∧
      ((s'.pc q).writing = some c ↔ (s.pc q).writing = some c))
    (hbuf : ∀ c, c ≠ b → (s'.buf c).busy = (s.buf c).busy ∧ s'.modified c = s.modified c)
    (halone : ∀ q, q ≠ p → ¬s.Has q b) (hbusy : (s'.buf b).busy = true ↔ s'.Has p b)
    (hapart : s'.held p b = true → (s'.pc p).fetching ≠ some b)
    (hwrites : (s'.pc p).writing = some b → s'.held p b = true)
    (hmod : s'.modified b = true → s'.held p b = true ∧ (s'.pc p).writing ≠ some b) :
    Owners s' := by
  have hhas : ∀ q c, q ≠ p ∨ c ≠ b → (s'.Has q c ↔ s.Has q c) := fun q c hne ↦ by
    rw [State.Has, State.Has, (hrest q c hne).1, (hrest q c hne).2.1]
  have hone : ∀ q, s'.Has q b → q = p := fun q hq ↦ by
    by_contra hne
    exact halone q hne ((hhas q b (Or.inl hne)).mp hq)
  refine ⟨fun q c hq ↦ ?_, fun c hc ↦ ?_, fun q r c hq hr ↦ ?_, fun q c hq ↦ ?_, fun q c hq ↦ ?_,
    fun c hc ↦ ?_⟩
  · obtain rfl | hne := eq_or_ne c b
    · obtain rfl := hone q hq
      exact hbusy.mpr hq
    · rw [(hbuf c hne).1]
      exact h.busy q c ((hhas q c (Or.inr hne)).mp hq)
  · obtain rfl | hne := eq_or_ne c b
    · exact ⟨p, hbusy.mp hc⟩
    · rw [(hbuf c hne).1] at hc
      obtain ⟨q, hq⟩ := h.owner c hc
      exact ⟨q, (hhas q c (Or.inr hne)).mpr hq⟩
  · obtain rfl | hne := eq_or_ne c b
    · rw [hone q hq, hone r hr]
    · exact h.excl q r c ((hhas q c (Or.inr hne)).mp hq) ((hhas r c (Or.inr hne)).mp hr)
  · by_cases hne : q ≠ p ∨ c ≠ b
    · rw [(hrest q c hne).1] at hq
      rw [ne_eq, (hrest q c hne).2.1]
      exact h.apart q c hq
    · push Not at hne
      obtain ⟨rfl, rfl⟩ := hne
      exact hapart hq
  · by_cases hne : q ≠ p ∨ c ≠ b
    · rw [(hrest q c hne).2.2] at hq
      rw [(hrest q c hne).1]
      exact h.writes q c hq
    · push Not at hne
      obtain ⟨rfl, rfl⟩ := hne
      exact hwrites hq
  · obtain rfl | hne := eq_or_ne c b
    · exact ⟨p, hmod hc⟩
    · rw [(hbuf c hne).2] at hc
      obtain ⟨q, hq, hw⟩ := h.modified c hc
      refine ⟨q, ?_, ?_⟩
      · rwa [(hrest q c (Or.inr hne)).1]
      · rwa [ne_eq, (hrest q c (Or.inr hne)).2.2]

theorem alone (h : Owners s) (hp : s.Has p b) (q : ι) (hne : q ≠ p) : ¬s.Has q b :=
  fun hq ↦ hne (h.excl q p b hq hp)

variable [DecidableEq ι]

/-- `bget` takes a buffer that is not busy. -/
theorem take {x : Buf} {dev blockno : UInt32} (h : Owners s) (hb : (s.buf b).busy = false)
    (hf : (s.pc p).fetching = none) (hw : (s.pc p).writing = none) (hx : x.busy = true) :
    Owners ((s.setBuf b x).goto p (.bread dev blockno b)) := by
  have hp : ((s.setBuf b x).goto p (.bread dev blockno b)).pc p = .bread dev blockno b :=
    update_self ..
  have hpc : ∀ q, q ≠ p → ((s.setBuf b x).goto p (.bread dev blockno b)).pc q = s.pc q :=
    fun q hq ↦ update_of_ne hq ..
  refine h.move (p := p) (b := b) (fun q c hne ↦ ⟨rfl, ?_⟩) (fun c hne ↦ ⟨?_, rfl⟩)
    (fun q _ ↦ h.not_has hb q) ?_
    (fun hheld ↦ ?_) ?_ fun hmod ↦ ?_
  · obtain rfl | hq := eq_or_ne q p
    · have hbc : b ≠ c := fun heq ↦ hne.elim (fun h ↦ h rfl) fun h ↦ h heq.symm
      rw [hp, hf, hw]
      simp [Pc.fetching, Pc.writing, hbc]
    · rw [hpc q hq]
      exact ⟨Iff.rfl, Iff.rfl⟩
  · simp only [State.goto, State.setBuf, update_of_ne hne]
  · refine ⟨fun _ ↦ Or.inr (by rw [hp]; rfl), fun _ ↦ ?_⟩
    simp only [State.goto, State.setBuf, update_self, hx]
  · exact absurd (Or.inl hheld) (h.not_has hb p)
  · rw [hp]
    nofun
  · obtain ⟨q, hq, -⟩ := h.modified b hmod
    exact absurd (Or.inl hq) (h.not_has hb q)

theorem breadReturn (h : Owners s) (hf : (s.pc p).fetching = some b)
    (hw : (s.pc p).writing = none) : Owners (s.breadReturn p b) := by
  have hp : (s.breadReturn p b).pc p = .out := update_self ..
  have hpc : ∀ q, q ≠ p → (s.breadReturn p b).pc q = s.pc q := fun q hq ↦ update_of_ne hq ..
  have hheld : (s.breadReturn p b).held p b = true := by simp [State.breadReturn]
  refine h.move (fun q c hne ↦ ?_) (fun c _ ↦ ⟨rfl, rfl⟩) (h.alone (Or.inr hf)) ?_ ?_ ?_ ?_
  · obtain rfl | hq := eq_or_ne q p
    · have hbc : c ≠ b := fun heq ↦ hne.elim (fun h ↦ h rfl) fun h ↦ h heq
      rw [hp, hf, hw]
      simp [Pc.fetching, Pc.writing, State.breadReturn, hbc, hbc.symm]
    · rw [hpc q hq]
      simp [State.breadReturn, hq]
  · exact ⟨fun _ ↦ Or.inl hheld, fun _ ↦ h.busy p b (Or.inr hf)⟩
  · rw [hp]
    nofun
  · rw [hp]
    nofun
  · rw [hp]
    exact fun _ ↦ ⟨hheld, nofun⟩

theorem write (h : Owners s) {c : Pc} (hheld : s.held p b = true)
    (hf : (s.pc p).fetching = none) (hf' : c.fetching = none)
    (hw : ∀ x, (s.pc p).writing = some x → x = b) (hw' : ∀ x, c.writing = some x → x = b)
    (hpc : s'.pc = update s.pc p c) (hs : s'.held = s.held)
    (hbusy : ∀ c, (s'.buf c).busy = (s.buf c).busy)
    (hmod : s'.modified = update s.modified b false) : Owners s' := by
  have hhas : s.Has p b := Or.inl hheld
  have hp : s'.pc p = c := by rw [hpc, update_self]
  refine h.move (fun q x hne ↦ ⟨by rw [hs], ?_⟩) (fun x hne ↦ ⟨hbusy x, ?_⟩) (h.alone hhas) ?_ ?_
    ?_ ?_
  · obtain rfl | hq := eq_or_ne q p
    · have hbx : x ≠ b := fun heq ↦ hne.elim (fun h ↦ h rfl) fun h ↦ h heq
      rw [hp, hf, hf']
      exact ⟨Iff.rfl, fun h ↦ absurd (hw' x h) hbx, fun h ↦ absurd (hw x h) hbx⟩
    · rw [hpc, update_of_ne hq]
      exact ⟨Iff.rfl, Iff.rfl⟩
  · rw [hmod, update_of_ne hne]
  · rw [hbusy, State.Has, hs]
    exact ⟨fun _ ↦ Or.inl hheld, fun _ ↦ h.busy p b hhas⟩
  · rw [hp, hf']
    nofun
  · rw [hs]
    exact fun _ ↦ hheld
  · rw [hmod, update_self]
    nofun

theorem release (h : Owners s) (hheld : s.held p b = true) (hout : s.pc p = .out)
    (hmod : s.modified b = false) (hf : ∀ q, (s'.pc q).fetching = (s.pc q).fetching)
    (hw : ∀ q, (s'.pc q).writing = (s.pc q).writing)
    (hs : s'.held = update s.held p (update (s.held p) b false))
    (hb : (s'.buf b).busy = false) (hbusy : ∀ c, c ≠ b → (s'.buf c).busy = (s.buf c).busy)
    (hm : s'.modified = s.modified) : Owners s' := by
  have hnot : s'.held p b = false := by rw [hs, update_self, update_self]
  have hfp : (s'.pc p).fetching = none := by
    rw [hf, hout]
    rfl
  refine h.move (fun q c hne ↦ ⟨?_, by rw [hf], by rw [hw]⟩) (fun c hne ↦ ⟨hbusy c hne, by rw [hm]⟩)
    (h.alone (Or.inl hheld)) ?_ ?_ ?_ ?_
  · rw [hs]
    obtain rfl | hq := eq_or_ne q p
    · rw [update_self, update_of_ne (hne.resolve_left fun h ↦ h rfl)]
    · rw [update_of_ne hq]
  · simp [State.Has, hb, hnot, hfp]
  · rw [hnot]
    nofun
  · rw [hw, hout]
    nofun
  · rw [hm, hmod]
    nofun

end Owners

end Owners

/-! ## Flags and the disk queue -/

/-- The buffer that the process uses inside `bio.c`. -/
def Pc.uses : Pc → Option (Fin nbuf)
  | .bread _ _ b | .iderw b _ | .waiting b _ | .awake b _ => some b
  | _ => none

/-- The buffer is the one of the block that was asked for. -/
def Buf.Named (x : Buf) (dev blockno : UInt32) : Prop :=
  x.dev = dev ∧ x.blockno = blockno ∧ dev < 2

/-- What the place of a process says about the buffer it uses. -/
def At (buf : Fin nbuf → Buf) (queue : List (Fin nbuf)) : Pc → Prop
  | .out => True
  | .bget dev _ | .asleep _ dev _ => dev < 2
  | .bread dev blockno b => (buf b).Named dev blockno ∧ b ∉ queue
  | .iderw b (.bread dev blockno) =>
    (buf b).Named dev blockno ∧ b ∉ queue ∧ (buf b).valid = false
  | .iderw b .bwrite => b ∉ queue ∧ (buf b).dirty = true
  | .waiting b (.bread dev blockno) =>
    (buf b).Named dev blockno ∧ b ∈ queue ∧ (buf b).valid = false
  | .waiting b .bwrite => b ∈ queue ∧ (buf b).dirty = true
  | .awake b (.bread dev blockno) =>
    (buf b).Named dev blockno ∧ b ∉ queue ∧ (buf b).valid = true ∧ (buf b).dirty = false
  | .awake b .bwrite => b ∉ queue ∧ (buf b).valid = true ∧ (buf b).dirty = false

structure Flags (s : State ι) : Prop where
  place : ∀ p, At s.buf s.idequeue (s.pc p)
  queue : ∀ b ∈ s.idequeue, ∃ p c, s.pc p = .waiting b c
  nodup : s.idequeue.Nodup
  held : ∀ p b, s.held p b = true → (s.buf b).valid = true ∧ (s.buf b).dev < 2
  pinned : ∀ b, (s.buf b).dirty = true → (s.buf b).valid = true ∧ (s.buf b).dev < 2

section Flags

variable {s s' : State ι} {p : ι} {b : Fin nbuf} {buf buf' : Fin nbuf → Buf}
  {queue queue' : List (Fin nbuf)} {c : Pc}

/-- Two buffers that look the same, data apart. -/
def Buf.Like (x y : Buf) : Prop :=
  x.valid = y.valid ∧ x.dirty = y.dirty ∧ x.dev = y.dev ∧ x.blockno = y.blockno

theorem Buf.like_self (x : Buf) : x.Like x := ⟨rfl, rfl, rfl, rfl⟩

theorem At.congr (h : At buf queue c)
    (hbuf : ∀ b, c.uses = some b → (buf' b).Like (buf b) ∧ (b ∈ queue' ↔ b ∈ queue)) :
    At buf' queue' c := by
  cases c with
  | out => trivial
  | bget dev blockno | asleep b dev blockno => exact h
  | bread dev blockno b =>
    obtain ⟨⟨hv, hd, hdev, hno⟩, hq⟩ := hbuf b rfl
    rw [At, Buf.Named, hdev, hno, hq]
    exact h
  | iderw b k | waiting b k | awake b k =>
    obtain ⟨⟨hv, hd, hdev, hno⟩, hq⟩ := hbuf b rfl
    cases k with
    | bread dev blockno =>
      simp only [At, Buf.Named, hdev, hno, hq, hv, hd]
      exact h
    | bwrite =>
      simp only [At, hq, hv, hd]
      exact h

/-- What a wake-up does to the other processes. -/
def Pc.Woken (c c' : Pc) : Prop :=
  c' = c ∨ ∃ b dev blockno, c = .asleep b dev blockno ∧ c' = .bget dev blockno

theorem Pc.wake_woken (hc : ∀ k, c ≠ .waiting b k) : c.Woken (c.wake b) := by
  cases c with
  | asleep x dev blockno =>
    rw [Pc.wake]
    split_ifs
    · exact Or.inr ⟨x, dev, blockno, rfl, rfl⟩
    · exact Or.inl rfl
  | waiting x k =>
    have hne : x ≠ b := fun heq ↦ hc k (by rw [heq])
    rw [Pc.wake, if_neg hne]
    exact Or.inl rfl
  | out | bget _ _ | bread _ _ _ | iderw _ _ | awake _ _ => exact Or.inl rfl

theorem Pc.wake_hands (c : Pc) (b : Fin nbuf) :
    (c.wake b).fetching = c.fetching ∧ (c.wake b).writing = c.writing := by
  cases c with
  | asleep x dev blockno =>
    rw [Pc.wake]
    split_ifs <;> exact ⟨rfl, rfl⟩
  | waiting x k =>
    rw [Pc.wake]
    split_ifs
    · cases k <;> exact ⟨rfl, rfl⟩
    · exact ⟨rfl, rfl⟩
  | out | bget _ _ | bread _ _ _ | iderw _ _ | awake _ _ => exact ⟨rfl, rfl⟩

theorem At.woken {c' : Pc} (h : At buf queue c) (hw : c.Woken c') : At buf queue c' := by
  obtain rfl | ⟨b, dev, blockno, rfl, rfl⟩ := hw
  · exact h
  · exact h

theorem Pc.Woken.waiting {c' : Pc} {k : Caller} (hw : c.Woken c') (hc : c = .waiting b k) :
    c' = .waiting b k := by
  obtain rfl | ⟨b, dev, blockno, rfl, rfl⟩ := hw
  · exact hc
  · cases hc

theorem Pc.fetching_or_writing (h : c.uses = some b) :
    c.fetching = some b ∨ c.writing = some b := by
  cases c with
  | out | bget _ _ | asleep _ _ _ => cases h
  | bread dev blockno x => exact Or.inl h
  | iderw x k | waiting x k | awake x k =>
    cases k with
    | bread _ _ => exact Or.inl h
    | bwrite => exact Or.inr h

theorem Owners.has_of_uses (h : Owners s) (hu : (s.pc p).uses = some b) : s.Has p b :=
  (Pc.fetching_or_writing hu).elim Or.inr h.has_of_writing

namespace Flags

/-- One process changes what it does with one buffer, which nobody else has. -/
theorem move (ho : Owners s) (h : Flags s) (halone : ∀ q, q ≠ p → ¬s.Has q b)
    (hpc : ∀ q, q ≠ p → (s.pc q).Woken (s'.pc q))
    (hlike : ∀ c, c ≠ b → (s'.buf c).Like (s.buf c))
    (hqueue : ∀ c, c ≠ b → (c ∈ s'.idequeue ↔ c ∈ s.idequeue)) (hnodup : s'.idequeue.Nodup)
    (hrun : ∀ c k, s.pc p = .waiting c k → c = b)
    (hplace : At s'.buf s'.idequeue (s'.pc p))
    (hb : b ∈ s'.idequeue → ∃ k, s'.pc p = .waiting b k)
    (hheld : ∀ q c, s'.held q c = true → s.held q c = true ∨ q = p ∧ c = b)
    (hheldb : s'.held p b = true → (s'.buf b).valid = true ∧ (s'.buf b).dev < 2)
    (hpinned : (s'.buf b).dirty = true → (s'.buf b).valid = true ∧ (s'.buf b).dev < 2) :
    Flags s' := by
  refine ⟨fun q ↦ ?_, fun c hc ↦ ?_, hnodup, fun q c hq ↦ ?_, fun c hc ↦ ?_⟩
  · obtain rfl | hne := eq_or_ne q p
    · exact hplace
    · refine At.woken ((h.place q).congr fun c hc ↦ ?_) (hpc q hne)
      have hcb : c ≠ b := fun heq ↦ halone q hne (heq ▸ ho.has_of_uses hc)
      exact ⟨hlike c hcb, hqueue c hcb⟩
  · obtain rfl | hne := eq_or_ne c b
    · obtain ⟨k, hk⟩ := hb hc
      exact ⟨p, k, hk⟩
    · obtain ⟨q, k, hq⟩ := h.queue c ((hqueue c hne).mp hc)
      have hqp : q ≠ p := fun heq ↦ hne (hrun c k (heq ▸ hq))
      exact ⟨q, k, (hpc q hqp).waiting hq⟩
  · by_cases hqc : q = p ∧ c = b
    · obtain ⟨rfl, rfl⟩ := hqc
      exact hheldb hq
    · have hold := (hheld q c hq).resolve_right hqc
      have hcb : c ≠ b := fun heq ↦ by
        have hqp : q ≠ p := fun hqp ↦ hqc ⟨hqp, heq⟩
        exact halone q hqp (Or.inl (heq ▸ hold))
      obtain ⟨hv, -, hd, -⟩ := hlike c hcb
      rw [hv, hd]
      exact h.held q c hold
  · obtain rfl | hne := eq_or_ne c b
    · exact hpinned hc
    · obtain ⟨hv, hdirty, hd, -⟩ := hlike c hne
      rw [hv, hd]
      exact h.pinned c (hdirty ▸ hc)

theorem notMem_queue (ho : Owners s) (h : Flags s) (hhas : s.Has p b)
    (hp : ∀ k, s.pc p ≠ .waiting b k) : b ∉ s.idequeue := fun hb ↦ by
  obtain ⟨q, k, hq⟩ := h.queue b hb
  have hqhas : s.Has q b := ho.has_of_uses (by rw [hq]; rfl)
  obtain rfl := ho.excl q p b hqhas hhas
  exact hp k hq

theorem notMem_queue_of_not_busy (ho : Owners s) (h : Flags s) (hb : (s.buf b).busy = false) :
    b ∉ s.idequeue := fun hmem ↦ by
  obtain ⟨q, k, hq⟩ := h.queue b hmem
  exact ho.not_has hb q (ho.has_of_uses (by rw [hq]; rfl))

theorem goto [DecidableEq ι] (h : Flags s) (hrun : ∀ b k, s.pc p ≠ .waiting b k)
    (hplace : At s.buf s.idequeue c) : Flags (s.goto p c) := by
  refine ⟨fun q ↦ ?_, fun b hb ↦ ?_, h.nodup, h.held, h.pinned⟩
  · obtain rfl | hne := eq_or_ne q p
    · simp only [State.goto, update_self]
      exact hplace
    · simp only [State.goto, update_of_ne hne]
      exact h.place q
  · obtain ⟨q, k, hq⟩ := h.queue b hb
    have hqp : q ≠ p := fun heq ↦ hrun b k (heq ▸ hq)
    exact ⟨q, k, by simp only [State.goto, update_of_ne hqp, hq]⟩

end Flags

end Flags

/-! ## Data -/

/-- The buffer holds block `blockno` of device `dev`. -/
def Buf.Is (x : Buf) (dev blockno : UInt32) : Prop := x.dev = dev ∧ x.blockno = blockno

structure Data (s : State ι) : Prop where
  unique : ∀ b c dev blockno, dev < 2 → (s.buf b).Is dev blockno → (s.buf c).Is dev blockno → b = c
  contents : ∀ b, (s.buf b).valid = true → (s.buf b).dev < 2 → s.modified b = false →
    (s.buf b).data = s.last (s.buf b).dev (s.buf b).blockno
  disk : ∀ dev blockno, dev < 2 → s.disk dev blockno = s.last dev blockno ∨
    ∃ b, (s.buf b).Is dev blockno ∧ (s.buf b).dirty = true

/-- The request at the head of the queue has been given to the disk. -/
def Started (s : State ι) : Prop :=
  ∀ b q, s.idequeue = b :: q → (s.buf b).dirty = true →
    s.disk (s.buf b).dev (s.buf b).blockno = (s.buf b).data

section Data

variable {s s' : State ι} {b : Fin nbuf} {d : Block}

theorem and_one_eq {dev : UInt32} (h : dev < 2) : dev &&& 1 = dev := by
  have h01 : dev = 0 ∨ dev = 1 := by
    rw [UInt32.lt_iff_toNat_lt] at h
    rw [← UInt32.toNat_inj, ← UInt32.toNat_inj]
    change dev.toNat < 2 at h
    change dev.toNat = 0 ∨ dev.toNat = 1
    omega
  rcases h01 with rfl | rfl <;> rfl

namespace Data

/-- Steps that leave the buffers as they are, apart from who uses them. -/
theorem congr (h : Data s)
    (hbuf : ∀ b, (s'.buf b).Like (s.buf b) ∧ (s'.buf b).data = (s.buf b).data)
    (hmod : s'.modified = s.modified) (hlast : s'.last = s.last) (hdisk : s'.disk = s.disk) :
    Data s' := by
  have his : ∀ b dev blockno, (s'.buf b).Is dev blockno ↔ (s.buf b).Is dev blockno :=
    fun b dev blockno ↦ by
      obtain ⟨⟨-, -, hd, hn⟩, -⟩ := hbuf b
      rw [Buf.Is, Buf.Is, hd, hn]
  refine ⟨fun b c dev blockno hdev hb hc ↦ ?_, fun b hv hd hm ↦ ?_, fun dev blockno hdev ↦ ?_⟩
  · exact h.unique b c dev blockno hdev ((his ..).mp hb) ((his ..).mp hc)
  · obtain ⟨⟨hv', -, hd', hn'⟩, hdata⟩ := hbuf b
    rw [hdata, hlast, hd', hn']
    exact h.contents b (hv' ▸ hv) (hd' ▸ hd) (hmod ▸ hm)
  · rw [hdisk, hlast]
    refine (h.disk dev blockno hdev).imp_right ?_
    rintro ⟨b, hb, hdirty⟩
    exact ⟨b, (his ..).mpr hb, (hbuf b).1.2.1.trans hdirty⟩

theorem disk_eq (h : Data s) {dev blockno : UInt32} (hdev : dev < 2)
    (hb : (s.buf b).Is dev blockno) (hclean : (s.buf b).dirty = false) :
    s.disk dev blockno = s.last dev blockno := by
  refine (h.disk dev blockno hdev).resolve_right ?_
  rintro ⟨c, hc, hdirty⟩
  obtain rfl := h.unique b c dev blockno hdev hb hc
  rw [hclean] at hdirty
  cases hdirty

/-- `bget` gives a clean buffer to a block that is not cached. -/
theorem recycle (h : Data s) {dev blockno : UInt32} (hclean : (s.buf b).dirty = false)
    (hfree : ∀ c, ¬(s.buf c).Is dev blockno) :
    Data (s.setBuf b ⟨true, false, false, dev, blockno, d⟩) := by
  have hbuf : ∀ c, c ≠ b →
      (s.setBuf b ⟨true, false, false, dev, blockno, d⟩).buf c = s.buf c := fun c hc ↦
    update_of_ne hc ..
  have hb : (s.setBuf b ⟨true, false, false, dev, blockno, d⟩).buf b =
      ⟨true, false, false, dev, blockno, d⟩ := update_self ..
  refine ⟨fun c e dev' blockno' hdev hc he ↦ ?_, fun c hv hdev hm ↦ ?_,
    fun dev' blockno' hdev ↦ ?_⟩
  · obtain rfl | hcb := eq_or_ne c b
    · obtain rfl | heb := eq_or_ne e c
      · rfl
      · rw [hb] at hc
        rw [hbuf e heb] at he
        obtain ⟨rfl, rfl⟩ := hc
        exact absurd he (hfree e)
    · obtain rfl | heb := eq_or_ne e b
      · rw [hb] at he
        rw [hbuf c hcb] at hc
        obtain ⟨rfl, rfl⟩ := he
        exact absurd hc (hfree c)
      · rw [hbuf c hcb] at hc
        rw [hbuf e heb] at he
        exact h.unique c e dev' blockno' hdev hc he
  · obtain rfl | hcb := eq_or_ne c b
    · rw [hb] at hv
      cases hv
    · rw [hbuf c hcb] at hv hdev ⊢
      exact h.contents c hv hdev hm
  · refine (h.disk dev' blockno' hdev).imp_right ?_
    rintro ⟨c, hc, hdirty⟩
    have hcb : c ≠ b := fun heq ↦ by
      rw [heq, hclean] at hdirty
      cases hdirty
    exact ⟨c, by rwa [hbuf c hcb], by rwa [hbuf c hcb]⟩

/-- A buffer is written and stays the one of its block. What remains to be shown is about this
block. -/
theorem write (h : Data s) (hbuf : ∀ c, c ≠ b → s'.buf c = s.buf c)
    (hid : (s'.buf b).Is (s.buf b).dev (s.buf b).blockno)
    (hmod : ∀ c, c ≠ b → s'.modified c = s.modified c)
    (hlast : ∀ dev blockno, ¬(s.buf b).Is dev blockno → s'.last dev blockno = s.last dev blockno)
    (hdisk : s'.disk = s.disk)
    (hown : (s.buf b).dev < 2 →
      ((s'.buf b).valid = true → s'.modified b = false →
        (s'.buf b).data = s'.last (s.buf b).dev (s.buf b).blockno) ∧
      (s.disk (s.buf b).dev (s.buf b).blockno = s'.last (s.buf b).dev (s.buf b).blockno ∨
        (s'.buf b).dirty = true)) : Data s' := by
  obtain ⟨hd, hn⟩ := hid
  have his : ∀ c dev blockno, (s'.buf c).Is dev blockno ↔ (s.buf c).Is dev blockno :=
    fun c dev blockno ↦ by
      obtain rfl | hcb := eq_or_ne c b
      · rw [Buf.Is, Buf.Is, hd, hn]
      · rw [hbuf c hcb]
  refine ⟨fun c e dev blockno hdev hc he ↦ ?_, fun c hv hdev hm ↦ ?_, fun dev blockno hdev ↦ ?_⟩
  · exact h.unique c e dev blockno hdev ((his ..).mp hc) ((his ..).mp he)
  · obtain rfl | hcb := eq_or_ne c b
    · rw [hd] at hdev
      rw [hd, hn]
      exact (hown hdev).1 hv hm
    · rw [hbuf c hcb] at hv hdev ⊢
      rw [hlast _ _ fun hb ↦ hcb (h.unique c b _ _ hdev ⟨rfl, rfl⟩ hb)]
      exact h.contents c hv hdev (hmod c hcb ▸ hm)
  · rw [hdisk]
    by_cases hb : (s.buf b).Is dev blockno
    · obtain ⟨rfl, rfl⟩ := hb
      exact (hown hdev).2.imp_right fun hdirty ↦ ⟨b, ⟨hd, hn⟩, hdirty⟩
    · rw [hlast _ _ hb]
      refine (h.disk dev blockno hdev).imp_right ?_
      rintro ⟨c, hc, hdirty⟩
      have hcb : c ≠ b := fun heq ↦ hb (heq ▸ hc)
      exact ⟨c, (his ..).mpr hc, by rwa [hbuf c hcb]⟩

theorem modify (h : Data s) : Data (s.modify b d) := by
  have hb : (s.modify b d).buf b = { s.buf b with data := d } := update_self ..
  refine h.write (fun c hc ↦ update_of_ne hc ..) (hb ▸ ⟨rfl, rfl⟩) (fun c hc ↦ update_of_ne hc ..)
    (fun _ _ _ ↦ rfl) rfl fun hdev ↦ ⟨fun _ hm ↦ ?_, ?_⟩
  · simp only [State.modify, update_self] at hm
    cases hm
  · refine (h.disk _ _ hdev).imp_right ?_
    rintro ⟨c, hc, hdirty⟩
    rw [hb, ← hdirty, h.unique c b _ _ hdev hc ⟨rfl, rfl⟩]

theorem setDirty_last_of_ne {dev blockno : UInt32} (hne : ¬(s.buf b).Is dev blockno) :
    (s.setDirty b).last dev blockno = s.last dev blockno := by
  simp only [State.setDirty]
  obtain rfl | hdev := eq_or_ne dev (s.buf b).dev
  · have hno : blockno ≠ (s.buf b).blockno := fun heq ↦ hne ⟨rfl, heq.symm⟩
    rw [update_self, update_of_ne hno]
  · rw [update_of_ne hdev]

theorem setDirty (h : Data s) : Data (s.setDirty b) := by
  have hb : (s.setDirty b).buf b = { s.buf b with dirty := true } := update_self ..
  refine h.write (fun c hc ↦ update_of_ne hc ..) (hb ▸ ⟨rfl, rfl⟩) (fun c hc ↦ update_of_ne hc ..)
    (fun _ _ ↦ setDirty_last_of_ne) rfl fun _ ↦ ⟨fun _ _ ↦ ?_, Or.inr (by rw [hb])⟩
  simp only [State.setDirty, State.setBuf, update_self]

theorem idestart (h : Data s) (hs : s.idestart b = some s')
    (hb : (s.buf b).dirty = true → (s.buf b).valid = true ∧ (s.buf b).dev < 2)
    (hm : s.modified b = false) :
    Data s' ∧ ((s.buf b).dirty = true → s'.disk (s.buf b).dev (s.buf b).blockno =
      (s.buf b).data) ∧ ∃ disk, s' = { s with disk := disk } := by
  rw [State.idestart, Option.ite_none_left_eq_some] at hs
  obtain ⟨-, hs⟩ := hs
  obtain rfl := Option.some.inj hs
  cases hdirty : (s.buf b).dirty with
  | false => exact ⟨h, nofun, s.disk, rfl⟩
  | true =>
    obtain ⟨hv, hdev⟩ := hb hdirty
    have hdata := h.contents b hv hdev hm
    rw [if_pos rfl, and_one_eq hdev]
    refine ⟨⟨h.unique, h.contents, fun dev blockno hdev ↦ ?_⟩, fun _ ↦ ?_, _, rfl⟩
    · by_cases heq : (s.buf b).Is dev blockno
      · obtain ⟨rfl, rfl⟩ := heq
        left
        simp only [update_self, hdata]
      · have hdisk : update s.disk (s.buf b).dev (update (s.disk (s.buf b).dev) (s.buf b).blockno
            (s.buf b).data) dev blockno = s.disk dev blockno := by
          obtain rfl | hne := eq_or_ne dev (s.buf b).dev
          · rw [update_self, update_of_ne fun hno ↦ heq ⟨rfl, hno.symm⟩]
          · rw [update_of_ne hne]
        simp only [hdisk]
        exact h.disk dev blockno hdev
    · simp only [update_self]

theorem complete (h : Data s) {x : Buf} (hdev : (s.buf b).dev < 2) (hm : s.modified b = false)
    (hvalid : (s.buf b).dirty = true → (s.buf b).valid = true)
    (hstart : (s.buf b).dirty = true → s.disk (s.buf b).dev (s.buf b).blockno = (s.buf b).data)
    (hx : x.dev = (s.buf b).dev ∧ x.blockno = (s.buf b).blockno ∧ x.dirty = false)
    (hdata : x.data = if (s.buf b).dirty then (s.buf b).data
      else s.disk (s.buf b).dev (s.buf b).blockno) : Data (s.setBuf b x) := by
  -- in both cases the data are those of the disk, and what was written last
  have hlast : x.data = s.last (s.buf b).dev (s.buf b).blockno ∧
      s.disk (s.buf b).dev (s.buf b).blockno = s.last (s.buf b).dev (s.buf b).blockno := by
    cases hdirty : (s.buf b).dirty with
    | true =>
      rw [hdirty, if_pos rfl] at hdata
      rw [hdata, hstart hdirty]
      exact ⟨h.contents b (hvalid hdirty) hdev hm, h.contents b (hvalid hdirty) hdev hm⟩
    | false =>
      have hdisk := h.disk_eq hdev ⟨rfl, rfl⟩ hdirty
      rw [hdirty] at hdata
      exact ⟨hdata.trans hdisk, hdisk⟩
  have hb : (s.setBuf b x).buf b = x := update_self ..
  refine h.write (fun c hc ↦ update_of_ne hc ..) (by rw [hb]; exact ⟨hx.1, hx.2.1⟩)
    (fun _ _ ↦ rfl) (fun _ _ _ ↦ rfl) rfl fun _ ↦ ⟨fun _ _ ↦ ?_, Or.inl hlast.2⟩
  rw [hb]
  exact hlast.1

end Data

end Data

/-! ## Every step -/

theorem State.idewait_of_not_done [DecidableEq ι] {s s' : State ι} {p : ι} {b : Fin nbuf}
    {k : Caller} (h : (s.buf b).valid = true → (s.buf b).dirty ≠ false) (hbuf : s'.buf = s.buf) :
    s'.idewait p b k = s'.goto p (.waiting b k) := by
  rw [State.idewait.eq_def, hbuf, if_neg fun hv ↦ h hv.1 hv.2]

structure Inv (s : State ι) : Prop where
  lists : Lists s.next s.prev
  owners : Owners s
  flags : Flags s
  data : Data s
  started : Started s

section Steps

variable {s s' : State ι} {p : ι} {b : Fin nbuf} {dev blockno : UInt32} {k : Caller}

/-- The steps, each with what its test has found. -/
inductive Taken [DecidableEq ι] (havedisk1 : Bool) (s : State ι) : Label ι → State ι → Prop
  | bread {p : ι} {dev blockno : UInt32} (hp : s.pc p = .out) (hdev : dev < 2) :
      Taken havedisk1 s (.bread p dev blockno) (s.goto p (.bget dev blockno))
  | modify {p : ι} {b : Fin nbuf} {d : Block} (hp : s.Holds p b) :
      Taken havedisk1 s (.modify p b d) (s.modify b d)
  | logWrite {p : ι} {b : Fin nbuf} (hp : s.Holds p b) :
      Taken havedisk1 s (.logWrite p b) (s.setDirty b)
  | bwrite {p : ι} {b : Fin nbuf} (hp : s.Holds p b) :
      Taken havedisk1 s (.bwrite p b) (s.bwrite p b)
  | brelse {p : ι} {b : Fin nbuf} (hp : s.Holds p b) (hm : s.modified b = false) :
      Taken havedisk1 s (.brelse p b) (s.brelse p b)
  | run {p : ι} {s' : State ι} (hr : s.run havedisk1 p = some s') : Taken havedisk1 s (.run p) s'
  | ideintr : Taken havedisk1 s .ideintr s.ideintr

theorem Step.taken [DecidableEq ι] {havedisk1 : Bool} {a : Label ι} (hs : Step havedisk1 s a s') :
    Taken havedisk1 s a s' := by
  rw [Step, State.exec.eq_def, Option.ite_none_left_eq_some] at hs
  obtain ⟨-, hs⟩ := hs
  cases a with
  | bread p dev blockno =>
    obtain ⟨ht, hs⟩ := Option.ite_none_right_eq_some.mp hs
    exact Option.some.inj hs ▸ .bread ht.1 ht.2
  | modify p b d =>
    obtain ⟨ht, hs⟩ := Option.ite_none_right_eq_some.mp hs
    exact Option.some.inj hs ▸ .modify ht
  | logWrite p b =>
    obtain ⟨ht, hs⟩ := Option.ite_none_right_eq_some.mp hs
    exact Option.some.inj hs ▸ .logWrite ht
  | bwrite p b =>
    obtain ⟨ht, hs⟩ := Option.ite_none_right_eq_some.mp hs
    exact Option.some.inj hs ▸ .bwrite ht
  | brelse p b =>
    obtain ⟨ht, hs⟩ := Option.ite_none_right_eq_some.mp hs
    exact Option.some.inj hs ▸ .brelse ht.1 ht.2
  | run p => exact .run hs
  | ideintr => exact Option.some.inj hs ▸ .ideintr

theorem Step.run_eq [DecidableEq ι] {havedisk1 : Bool} (hs : Step havedisk1 s (.run p) s') :
    s.run havedisk1 p = some s' := by
  cases hs.taken with
  | run hr => exact hr

namespace Inv

theorem initial (disk : UInt32 → UInt32 → Block) : Inv (initial ι disk) where
  lists := lists_binit
  owners := ⟨fun p b h ↦ h.elim nofun nofun, nofun, fun p q b h ↦ h.elim nofun nofun, nofun, nofun,
    nofun⟩
  flags := ⟨fun _ ↦ trivial, nofun, List.nodup_nil, nofun, nofun⟩
  data := by
    refine ⟨fun b c dev blockno hdev hb ↦ ?_, nofun, fun _ _ _ ↦ Or.inl rfl⟩
    have hreal : ¬(-1 : UInt32) < 2 := by decide
    rw [← hb.1] at hdev
    exact absurd hdev hreal
  started := nofun

theorem panic (h : Inv s) : Inv s.panic :=
  ⟨h.lists, ⟨h.owners.busy, h.owners.owner, h.owners.excl, h.owners.apart, h.owners.writes,
    h.owners.modified⟩, ⟨h.flags.place, h.flags.queue, h.flags.nodup, h.flags.held, h.flags.pinned⟩,
    ⟨h.data.unique, h.data.contents, h.data.disk⟩, h.started⟩

theorem notMem_queue (h : Inv s) (hp : s.Holds p b) : b ∉ s.idequeue :=
  h.flags.notMem_queue h.owners (Or.inl hp.2) fun k ↦ by
    rw [hp.1]
    nofun

theorem head_ne (h : Inv s) (hp : s.Holds p b) {c : Fin nbuf} {q : List (Fin nbuf)}
    (hq : s.idequeue = c :: q) : c ≠ b := fun heq ↦ h.notMem_queue hp (by
  rw [hq, heq]
  exact List.mem_cons_self)

theorem modify (h : Inv s) (hp : s.Holds p b) (d : Block) : Inv (s.modify b d) := by
  have hbuf : ∀ c, c ≠ b → (s.modify b d).buf c = s.buf c := fun c hc ↦ update_of_ne hc ..
  have hlike : ∀ c, ((s.modify b d).buf c).Like (s.buf c) := fun c ↦ by
    obtain rfl | hcb := eq_or_ne c b
    · simp only [State.modify, State.setBuf, update_self]
      exact ⟨rfl, rfl, rfl, rfl⟩
    · rw [hbuf c hcb]
      exact Buf.like_self _
  refine ⟨h.lists, h.owners.congr (fun _ ↦ rfl) (fun _ ↦ rfl) (fun c ↦ ?_) rfl fun c hc ↦ ?_,
    ⟨fun q ↦ ?_, h.flags.queue, h.flags.nodup, fun q c hq ↦ ?_, fun c hc ↦ ?_⟩, h.data.modify,
    fun c q hq hc ↦ ?_⟩
  · obtain rfl | hcb := eq_or_ne c b
    · simp only [State.modify, State.setBuf, update_self]
    · rw [hbuf c hcb]
  · obtain rfl | hcb := eq_or_ne c b
    · exact Or.inr ⟨p, hp.2, by rw [hp.1]; nofun⟩
    · simp only [State.modify, update_of_ne hcb] at hc
      exact Or.inl hc
  · exact (h.flags.place q).congr fun c _ ↦ ⟨hlike c, Iff.rfl⟩
  · obtain ⟨hv, -, hd, -⟩ := hlike c
    rw [hv, hd]
    exact h.flags.held q c hq
  · obtain ⟨hv, hdirty, hd, -⟩ := hlike c
    rw [hv, hd]
    exact h.flags.pinned c (hdirty ▸ hc)
  · rw [hbuf c (h.head_ne hp hq)] at hc ⊢
    exact h.started c q hq hc

theorem setDirty (h : Inv s) (hp : s.Holds p b) : Inv (s.setDirty b) := by
  have hbuf : ∀ c, c ≠ b → (s.setDirty b).buf c = s.buf c := fun c hc ↦ update_of_ne hc ..
  have hb : (s.setDirty b).buf b = { s.buf b with dirty := true } := update_self ..
  have hheld := h.flags.held p b hp.2
  refine ⟨h.lists, h.owners.congr (fun _ ↦ rfl) (fun _ ↦ rfl) (fun c ↦ ?_) rfl fun c hc ↦ ?_,
    h.flags.move (p := p) (b := b) h.owners (h.owners.alone (Or.inl hp.2)) (fun _ _ ↦ Or.inl rfl)
      (fun c hcb ↦ ?_) (fun _ _ ↦ Iff.rfl) h.flags.nodup (fun c k hk ↦ ?_) ?_
      (fun hmem ↦ absurd hmem (h.notMem_queue hp)) (fun _ _ ↦ Or.inl) (fun _ ↦ ?_) (fun _ ↦ ?_),
    h.data.setDirty, fun c q hq hc ↦ ?_⟩
  · obtain rfl | hcb := eq_or_ne c b
    · rw [hb]
    · rw [hbuf c hcb]
  · obtain rfl | hcb := eq_or_ne c b
    · simp only [State.setDirty, update_self] at hc
      cases hc
    · simp only [State.setDirty, update_of_ne hcb] at hc
      exact Or.inl hc
  · rw [hbuf c hcb]
    exact Buf.like_self _
  · rw [hp.1] at hk
    cases hk
  · change At _ _ (s.pc p)
    rw [hp.1]
    trivial
  · rw [hb]
    exact hheld
  · rw [hb]
    exact hheld
  · rw [hbuf c (h.head_ne hp hq)] at hc ⊢
    exact h.started c q hq hc

theorem finish (h : Inv s) {q : List (Fin nbuf)} (hq : s.idequeue = b :: q) :
    Owners (s.finish b q) ∧ Flags (s.finish b q) ∧ Data (s.finish b q) := by
  obtain ⟨p, k, hp⟩ := h.flags.queue b (by rw [hq]; exact List.mem_cons_self)
  have huse : (s.pc p).uses = some b := by
    rw [hp]
    rfl
  have hhas := h.owners.has_of_uses huse
  have hm := h.owners.modified_eq_false (Pc.fetching_or_writing huse)
  have hnd := h.flags.nodup
  rw [hq] at hnd
  obtain ⟨hnot, hnd⟩ := List.nodup_cons.mp hnd
  have hplace := h.flags.place p
  rw [hp] at hplace
  have hdev : (s.buf b).dev < 2 := by
    cases k with
    | bread dev blockno => exact hplace.1.1 ▸ hplace.1.2.2
    | bwrite => exact (h.flags.pinned b hplace.2).2
  set x : Buf := ⟨(s.buf b).busy, true, false, (s.buf b).dev, (s.buf b).blockno,
    if (s.buf b).dirty then (s.buf b).data
    else s.disk ((s.buf b).dev &&& 1) (s.buf b).blockno⟩ with hx
  have hb : (s.finish b q).buf b = x := update_self ..
  have hbuf : ∀ c, c ≠ b → (s.finish b q).buf c = s.buf c := fun c hc ↦ update_of_ne hc ..
  have hpc : (s.finish b q).pc p = .awake b k := by
    change (s.pc p).wake b = _
    rw [hp, Pc.wake, if_pos rfl]
  refine ⟨h.owners.congr (fun q ↦ (Pc.wake_hands _ b).1) (fun q ↦ (Pc.wake_hands _ b).2)
    (fun c ↦ ?_) rfl fun _ hm ↦ Or.inl hm, ?_, ?_⟩
  · obtain rfl | hcb := eq_or_ne c b
    · rw [hb]
    · rw [hbuf c hcb]
  · refine h.flags.move (p := p) (b := b) h.owners (h.owners.alone hhas) (fun r hr ↦ ?_)
      (fun c hc ↦ ?_) (fun c hc ↦ ?_) hnd (fun c k' hk ↦ ?_) ?_ (fun hmem ↦ absurd hmem hnot)
      (fun _ _ ↦ Or.inl) (fun _ ↦ ?_) (fun hd ↦ ?_)
    · refine Pc.wake_woken fun k' hk ↦ hr ?_
      exact h.owners.excl r p b (h.owners.has_of_uses (by rw [hk]; rfl)) hhas
    · rw [hbuf c hc]
      exact Buf.like_self _
    · rw [hq, List.mem_cons]
      exact ⟨Or.inr, fun hmem ↦ hmem.resolve_left hc⟩
    · rw [hp] at hk
      cases hk
      rfl
    · rw [hpc]
      cases k with
      | bread dev blockno => exact ⟨by rw [hb]; exact hplace.1, hnot, by rw [hb], by rw [hb]⟩
      | bwrite => exact ⟨hnot, by rw [hb], by rw [hb]⟩
    · rw [hb]
      exact ⟨rfl, hdev⟩
    · rw [hb] at hd
      cases hd
  · have hdata := h.data.complete (x := x) hdev hm (fun hd ↦ (h.flags.pinned b hd).1)
      (h.started b q hq) ⟨rfl, rfl, rfl⟩ (by rw [hx, and_one_eq hdev])
    exact ⟨hdata.unique, hdata.contents, hdata.disk⟩

theorem ideintr (h : Inv s) : Inv s.ideintr := by
  rw [State.ideintr]
  split
  · exact h
  · rename_i b hq
    obtain ⟨howners, hflags, hdata⟩ := h.finish hq
    exact ⟨h.lists, howners, hflags, hdata, nofun⟩
  · rename_i b c q hq
    obtain ⟨howners, hflags, hdata⟩ := h.finish hq
    cases hstart : (s.finish b (c :: q)).idestart c with
    | none => exact h.panic
    | some s₂ =>
      -- the process that waits for the next request
      obtain ⟨r, k, hr⟩ := hflags.queue c List.mem_cons_self
      have huse : ((s.finish b (c :: q)).pc r).uses = some c := by
        rw [hr]
        rfl
      have hm := howners.modified_eq_false (Pc.fetching_or_writing huse)
      obtain ⟨hdata₂, hdisk, disk, rfl⟩ := hdata.idestart hstart (hflags.pinned c) hm
      refine ⟨h.lists, ⟨howners.busy, howners.owner, howners.excl, howners.apart, howners.writes,
        howners.modified⟩, ⟨hflags.place, hflags.queue, hflags.nodup, hflags.held,
        hflags.pinned⟩, hdata₂, fun x l hx hd ↦ ?_⟩
      obtain ⟨rfl, -⟩ := List.cons_eq_cons.mp hx
      exact hdisk hd

variable [DecidableEq ι]

theorem goto (h : Inv s) {c : Pc} (hrun : ∀ b k, s.pc p ≠ .waiting b k)
    (hf : c.fetching = (s.pc p).fetching) (hw : c.writing = (s.pc p).writing)
    (hplace : At s.buf s.idequeue c) : Inv (s.goto p c) := by
  refine ⟨h.lists, h.owners.congr (fun q ↦ ?_) (fun q ↦ ?_) (fun _ ↦ rfl) rfl fun _ hm ↦ Or.inl hm,
    h.flags.goto hrun hplace, ⟨h.data.unique, h.data.contents, h.data.disk⟩, h.started⟩
  · obtain rfl | hne := eq_or_ne q p
    · simp only [State.goto, update_self, hf]
    · simp only [State.goto, update_of_ne hne]
  · obtain rfl | hne := eq_or_ne q p
    · simp only [State.goto, update_self, hw]
    · simp only [State.goto, update_of_ne hne]

theorem bwrite (h : Inv s) (hp : s.Holds p b) : Inv (s.bwrite p b) := by
  rw [State.bwrite]
  split_ifs with hbusy
  · exact h.panic
  · have h' := h.setDirty hp
    have hp' : (s.setDirty b).Holds p b := hp
    have hb : (s.setDirty b).buf b = { s.buf b with dirty := true } := update_self ..
    have hplace : At (s.setDirty b).buf (s.setDirty b).idequeue (.iderw b .bwrite) :=
      ⟨h'.notMem_queue hp', by rw [hb]⟩
    refine ⟨h'.lists, h'.owners.write (p := p) (b := b) (c := .iderw b .bwrite) hp.2 ?_ rfl ?_
      (fun x hx ↦ (Option.some.inj hx).symm) rfl rfl (fun _ ↦ rfl) ?_,
      h'.flags.goto (fun c k ↦ ?_) hplace,
      ⟨h'.data.unique, h'.data.contents, h'.data.disk⟩, h'.started⟩
    · rw [hp'.1]
      rfl
    · rw [hp'.1]
      nofun
    · simp only [State.setDirty, State.goto, update_idem]
    · rw [hp'.1]
      nofun

theorem brelse (h : Inv s) (hp : s.Holds p b) (hm : s.modified b = false) :
    Inv (s.brelse p b) := by
  rw [State.brelse]
  split_ifs with hbusy
  · exact h.panic
  · set s' : State ι := { (s.setBuf b { s.buf b with busy := false }).wakeup b with
      next := ((Links.unlink ⟨s.next, s.prev⟩ b).pushFront b).next
      prev := ((Links.unlink ⟨s.next, s.prev⟩ b).pushFront b).prev
      held := update s.held p (update (s.held p) b false) } with hs'
    have hbuf : ∀ c, c ≠ b → s'.buf c = s.buf c := fun c hc ↦ update_of_ne hc ..
    have hb : s'.buf b = { s.buf b with busy := false } := update_self ..
    have hlike : ∀ c, (s'.buf c).Like (s.buf c) ∧ (s'.buf c).data = (s.buf c).data := fun c ↦ by
      obtain rfl | hcb := eq_or_ne c b
      · rw [hb]
        exact ⟨⟨rfl, rfl, rfl, rfl⟩, rfl⟩
      · rw [hbuf c hcb]
        exact ⟨Buf.like_self _, rfl⟩
    -- nobody waits for the disk on a buffer of somebody else
    have hwoken : ∀ q, (s.pc q).Woken (s'.pc q) := fun q ↦ by
      refine Pc.wake_woken fun k hpc ↦ ?_
      obtain rfl := h.owners.excl q p b (h.owners.has_of_uses (by rw [hpc]; rfl)) (Or.inl hp.2)
      rw [hp.1] at hpc
      cases hpc
    have hf : ∀ q, (s'.pc q).fetching = (s.pc q).fetching := fun q ↦ (Pc.wake_hands _ b).1
    have hw : ∀ q, (s'.pc q).writing = (s.pc q).writing := fun q ↦ (Pc.wake_hands _ b).2
    refine ⟨h.lists.moveFront b, h.owners.release hp.2 hp.1 hm hf hw rfl (by rw [hb])
      (fun c hc ↦ by rw [hbuf c hc]) rfl, ?_, h.data.congr hlike rfl rfl rfl, fun c q hq hc ↦ ?_⟩
    · refine h.flags.move (p := p) (b := b) h.owners (h.owners.alone (Or.inl hp.2))
        (fun q _ ↦ hwoken q) (fun c _ ↦ (hlike c).1) (fun _ _ ↦ Iff.rfl) h.flags.nodup
        (fun c k hk ↦ ?_) ?_ (fun hmem ↦ absurd hmem (h.notMem_queue hp)) (fun q c hq ↦ ?_)
        (fun hheld ↦ ?_) (fun hdirty ↦ ?_)
      · rw [hp.1] at hk
        cases hk
      · have hpc := hwoken p
        rw [hp.1] at hpc
        obtain heq | ⟨c, dev, blockno, h1, -⟩ := hpc
        · rw [heq]
          trivial
        · cases h1
      · left
        change update s.held p (update (s.held p) b false) q c = true at hq
        obtain rfl | hqp := eq_or_ne q p
        · rw [update_self] at hq
          obtain rfl | hcb := eq_or_ne c b
          · rw [update_self] at hq
            cases hq
          · rwa [update_of_ne hcb] at hq
        · rwa [update_of_ne hqp] at hq
      · change update s.held p (update (s.held p) b false) p b = true at hheld
        rw [update_self, update_self] at hheld
        cases hheld
      · rw [hb] at hdirty ⊢
        exact h.flags.pinned b hdirty
    · obtain ⟨⟨-, hdirty, hd, hn⟩, hdata⟩ := hlike c
      rw [hdata, hd, hn]
      exact h.started c q hq (hdirty ▸ hc)

/-- `bget` takes the buffer `b`, which nobody has. -/
theorem take (h : Inv s) (hp : s.pc p = .bget dev blockno) (hb : (s.buf b).busy = false) {x : Buf}
    (hx : x.busy = true ∧ x.Named dev blockno)
    (hpinned : x.dirty = true → x.valid = true ∧ x.dev < 2) (hdata : Data (s.setBuf b x)) :
    Inv ((s.setBuf b x).goto p (.bread dev blockno b)) := by
  have hnot := h.flags.notMem_queue_of_not_busy h.owners hb
  have hbuf : ∀ c, c ≠ b → (s.setBuf b x).buf c = s.buf c := fun c hc ↦ update_of_ne hc ..
  have hself : (s.setBuf b x).buf b = x := update_self ..
  refine ⟨h.lists, h.owners.take hb (by rw [hp]; rfl) (by rw [hp]; rfl) hx.1, ?_,
    ⟨hdata.unique, hdata.contents, hdata.disk⟩, fun c q hq hc ↦ ?_⟩
  · refine h.flags.move (p := p) (b := b) h.owners (fun q _ ↦ h.owners.not_has hb q)
      (fun q hq ↦ Or.inl (update_of_ne hq ..)) (fun c hc ↦ ?_) (fun _ _ ↦ Iff.rfl) h.flags.nodup
      (fun c k hk ↦ ?_) ?_ (fun hmem ↦ absurd hmem hnot) (fun _ _ ↦ Or.inl) (fun hheld ↦ ?_) ?_
    · change ((s.setBuf b x).buf c).Like (s.buf c)
      rw [hbuf c hc]
      exact Buf.like_self _
    · rw [hp] at hk
      cases hk
    · have hpc : ((s.setBuf b x).goto p (.bread dev blockno b)).pc p = .bread dev blockno b :=
        update_self ..
      rw [hpc]
      refine ⟨?_, hnot⟩
      change ((s.setBuf b x).buf b).Named dev blockno
      rw [hself]
      exact hx.2
    · exact absurd (Or.inl hheld) (h.owners.not_has hb p)
    · change ((s.setBuf b x).buf b).dirty = true → ((s.setBuf b x).buf b).valid = true ∧
        ((s.setBuf b x).buf b).dev < 2
      rw [hself]
      exact hpinned
  · change s.idequeue = c :: q at hq
    have hcb : c ≠ b := fun heq ↦ hnot (by rw [hq, heq]; exact List.mem_cons_self)
    change ((s.setBuf b x).buf c).dirty = true at hc
    change s.disk ((s.setBuf b x).buf c).dev ((s.setBuf b x).buf c).blockno =
      ((s.setBuf b x).buf c).data
    rw [hbuf c hcb] at hc ⊢
    exact h.started c q hq hc

theorem bget (h : Inv s) (hp : s.pc p = .bget dev blockno)
    (hs : s.bget p dev blockno = some s') : Inv s' := by
  have hdev : dev < 2 := by
    have hplace := h.flags.place p
    rwa [hp] at hplace
  rw [State.bget] at hs
  cases hw : walk s.next (fun b ↦ (s.buf b).dev = dev ∧ (s.buf b).blockno = blockno) nbuf
      (s.next none) with
  | none => exact absurd hw h.lists.walk_ne_none
  | some r =>
    rw [hw] at hs
    cases r with
    | some b =>
      have hb := of_decide_eq_true (h.lists.of_walk_some hw)
      obtain rfl := Option.some.inj hs
      split_ifs with hbusy
      · exact h.goto (by rw [hp]; nofun) (by rw [hp]; rfl) (by rw [hp]; rfl) hdev
      · refine h.take hp (Bool.eq_false_of_not_eq_true hbusy) ⟨rfl, hb.1, hb.2, hdev⟩
          (h.flags.pinned b) (h.data.congr (fun c ↦ ?_) rfl rfl rfl)
        obtain rfl | hcb := eq_or_ne c b
        · simp only [State.setBuf, update_self]
          exact ⟨⟨rfl, rfl, rfl, rfl⟩, trivial⟩
        · simp only [State.setBuf, update_of_ne hcb]
          exact ⟨Buf.like_self _, trivial⟩
    | none =>
      have hfree : ∀ c, ¬(s.buf c).Is dev blockno := fun c ↦
        decide_eq_false_iff_not.mp (h.lists.of_walk_none hw c)
      cases hw' : walk s.prev (fun b ↦ (s.buf b).busy = false ∧ (s.buf b).dirty = false) nbuf
          (s.prev none) with
      | none => exact absurd hw' h.lists.symm.walk_ne_none
      | some r =>
        simp only [hw'] at hs
        cases r with
        | none =>
          obtain rfl := Option.some.inj hs
          exact h.panic
        | some b =>
          have hb := of_decide_eq_true (h.lists.symm.of_walk_some hw')
          obtain rfl := Option.some.inj hs
          exact h.take hp hb.1 ⟨rfl, rfl, rfl, hdev⟩ nofun (h.data.recycle hb.2 hfree)

theorem breadReturn (h : Inv s) (hrun : ∀ c k, s.pc p ≠ .waiting c k)
    (hf : (s.pc p).fetching = some b) (hw : (s.pc p).writing = none)
    (hv : (s.buf b).valid = true) (hdev : (s.buf b).dev < 2) : Inv (s.breadReturn p b) := by
  have hhas : s.Has p b := Or.inr hf
  have hnot := h.flags.notMem_queue h.owners hhas fun k ↦ hrun b k
  refine ⟨h.lists, h.owners.breadReturn hf hw, ?_,
    ⟨h.data.unique, h.data.contents, h.data.disk⟩, h.started⟩
  refine h.flags.move (p := p) (b := b) h.owners (h.owners.alone hhas)
    (fun q hq ↦ Or.inl (update_of_ne hq ..)) (fun c _ ↦ Buf.like_self _) (fun _ _ ↦ Iff.rfl)
    h.flags.nodup (fun c k hk ↦ absurd hk (hrun c k)) ?_ (fun hmem ↦ absurd hmem hnot)
    (fun q c hq ↦ ?_) (fun _ ↦ ⟨hv, hdev⟩) (h.flags.pinned b)
  · have hpc : (s.breadReturn p b).pc p = .out := update_self ..
    rw [hpc]
    trivial
  · change update s.held p (update (s.held p) b true) q c = true at hq
    obtain rfl | hqp := eq_or_ne q p
    · rw [update_self] at hq
      obtain rfl | hcb := eq_or_ne c b
      · exact Or.inr ⟨rfl, rfl⟩
      · rw [update_of_ne hcb] at hq
        exact Or.inl hq
    · rw [update_of_ne hqp] at hq
      exact Or.inl hq

theorem bread (h : Inv s) (hp : s.pc p = .bread dev blockno b) :
    Inv (s.bread p dev blockno b) := by
  have hplace := h.flags.place p
  rw [hp] at hplace
  obtain ⟨hnamed, hnot⟩ := hplace
  rw [State.bread]
  split_ifs with hv
  · exact h.breadReturn (by rw [hp]; nofun) (by rw [hp]; rfl) (by rw [hp]; rfl) hv
      (hnamed.1 ▸ hnamed.2.2)
  · exact h.goto (by rw [hp]; nofun) (by rw [hp]; rfl) (by rw [hp]; rfl)
      ⟨hnamed, hnot, Bool.eq_false_of_not_eq_true hv⟩

theorem awake (h : Inv s) (hp : s.pc p = .awake b k) : Inv (s.idewait p b k) := by
  have hplace := h.flags.place p
  rw [hp] at hplace
  rw [State.idewait.eq_def]
  cases k with
  | bread dev blockno =>
    obtain ⟨hnamed, -, hv, hd⟩ := hplace
    rw [if_pos ⟨hv, hd⟩]
    exact h.breadReturn (by rw [hp]; nofun) (by rw [hp]; rfl) (by rw [hp]; rfl) hv
      (hnamed.1 ▸ hnamed.2.2)
  | bwrite =>
    obtain ⟨-, hv, hd⟩ := hplace
    rw [if_pos ⟨hv, hd⟩]
    have hwriting : (s.pc p).writing = some b := by
      rw [hp]
      rfl
    have hm := h.owners.modified_eq_false (Or.inr hwriting)
    refine ⟨h.lists, h.owners.write (p := p) (b := b) (c := .out) (h.owners.writes p b hwriting)
      (by rw [hp]; rfl) rfl (fun x hx ↦ ?_) nofun rfl rfl (fun _ ↦ rfl) ?_,
      h.flags.goto (by rw [hp]; nofun) trivial, ⟨h.data.unique, h.data.contents, h.data.disk⟩,
      h.started⟩
    · rw [hwriting] at hx
      exact (Option.some.inj hx).symm
    · rw [← hm, update_eq_self]
      rfl

/-- `iderw` puts the buffer into the queue and waits. -/
theorem enqueue (h : Inv s) (hp : s.pc p = .iderw b k) {disk : UInt32 → UInt32 → Block}
    (hdata : Data { s with disk := disk })
    (hstart : Started { s with idequeue := s.idequeue ++ [b], disk := disk }) :
    Inv (({ s with idequeue := s.idequeue ++ [b], disk := disk } : State ι).goto p
      (.waiting b k)) := by
  have hhas : s.Has p b := h.owners.has_of_uses (by rw [hp]; rfl)
  have hnot := h.flags.notMem_queue h.owners hhas fun k ↦ by
    rw [hp]
    nofun
  have hmem : b ∈ s.idequeue ++ [b] := List.mem_append_right _ (List.mem_singleton_self b)
  have hplace := h.flags.place p
  rw [hp] at hplace
  set s' := ({ s with idequeue := s.idequeue ++ [b], disk := disk } : State ι).goto p
    (.waiting b k) with hs'
  have hpc : s'.pc p = .waiting b k := update_self ..
  have hpcs : ∀ q, q ≠ p → s'.pc q = s.pc q := fun q hq ↦ update_of_ne hq ..
  refine ⟨h.lists, h.owners.congr (fun q ↦ ?_) (fun q ↦ ?_) (fun _ ↦ rfl) rfl fun _ hm ↦ Or.inl hm,
    ?_, ⟨hdata.unique, hdata.contents, hdata.disk⟩, hstart⟩
  · obtain rfl | hq := eq_or_ne q p
    · rw [hpc, hp]
      cases k <;> rfl
    · rw [hpcs q hq]
  · obtain rfl | hq := eq_or_ne q p
    · rw [hpc, hp]
      cases k <;> rfl
    · rw [hpcs q hq]
  · refine h.flags.move (p := p) (b := b) h.owners (h.owners.alone hhas)
      (fun q hq ↦ Or.inl (hpcs q hq)) (fun c _ ↦ Buf.like_self _) (fun c hc ↦ ?_) ?_
      (fun c k hk ↦ ?_) ?_ (fun _ ↦ ⟨k, hpc⟩) (fun _ _ ↦ Or.inl) (h.flags.held p b)
      (h.flags.pinned b)
    · change c ∈ s.idequeue ++ [b] ↔ _
      simp [hc]
    · refine h.flags.nodup.append (List.nodup_singleton b) ?_
      simpa using hnot
    · rw [hp] at hk
      cases hk
    · rw [hpc]
      cases k with
      | bread dev blockno => exact ⟨hplace.1, hmem, hplace.2.2⟩
      | bwrite => exact ⟨hmem, hplace.2⟩

theorem iderw {havedisk1 : Bool} (h : Inv s) (hp : s.pc p = .iderw b k) :
    Inv (s.iderw havedisk1 p b k) ∧ (s.iderw havedisk1 p b k).held = s.held := by
  have huse : (s.pc p).uses = some b := by
    rw [hp]
    rfl
  have hm := h.owners.modified_eq_false (Pc.fetching_or_writing huse)
  rw [State.iderw]
  split_ifs with hpanic hempty
  · exact ⟨h.panic, rfl⟩
  · push Not at hpanic
    cases hstart : (s.enqueue b).idestart b with
    | none => exact ⟨h.panic, rfl⟩
    | some s₂ =>
      have hdata₁ : Data (s.enqueue b) := ⟨h.data.unique, h.data.contents, h.data.disk⟩
      obtain ⟨hdata, hdisk, disk, rfl⟩ := hdata₁.idestart hstart (h.flags.pinned b) hm
      rw [Option.elim_some, State.idewait_of_not_done hpanic.2.1 (by rfl)]
      refine ⟨h.enqueue hp ⟨hdata.unique, hdata.contents, hdata.disk⟩ fun c q hq hc ↦ ?_, rfl⟩
      rw [hempty] at hq
      obtain ⟨rfl, -⟩ := List.cons_eq_cons.mp hq
      exact hdisk hc
  · push Not at hpanic
    rw [State.idewait_of_not_done hpanic.2.1 (by rfl)]
    refine ⟨h.enqueue hp h.data fun c q hq hc ↦ ?_, rfl⟩
    obtain ⟨x, q', hx⟩ := List.exists_cons_of_ne_nil hempty
    have hcx : x = c := by
      change s.idequeue ++ [b] = c :: q at hq
      rw [hx, List.cons_append] at hq
      exact (List.cons_eq_cons.mp hq).1
    subst hcx
    exact h.started x q' hx hc

theorem run {havedisk1 : Bool} (h : Inv s) (hs : s.run havedisk1 p = some s') : Inv s' := by
  rw [State.run] at hs
  cases hp : s.pc p with
  | out | asleep _ _ _ | waiting _ _ =>
    rw [hp] at hs
    cases hs
  | bget dev blockno =>
    rw [hp] at hs
    exact h.bget hp hs
  | bread dev blockno b =>
    rw [hp] at hs
    obtain rfl := Option.some.inj hs
    exact h.bread hp
  | iderw b k =>
    rw [hp] at hs
    obtain rfl := Option.some.inj hs
    exact (h.iderw hp).1
  | awake b k =>
    rw [hp] at hs
    obtain rfl := Option.some.inj hs
    exact h.awake hp

theorem step {havedisk1 : Bool} {a : Label ι} (h : Inv s) (hs : Step havedisk1 s a s') :
    Inv s' := by
  cases hs.taken with
  | bread hp hdev =>
    exact h.goto (by rw [hp]; nofun) (by rw [hp]; rfl) (by rw [hp]; rfl) hdev
  | modify hp => exact h.modify hp _
  | logWrite hp => exact h.setDirty hp
  | bwrite hp => exact h.bwrite hp
  | brelse hp hm => exact h.brelse hp hm
  | run hr => exact h.run hr
  | ideintr => exact h.ideintr

end Inv

/-! ## Runs -/

structure Coherent (s : State ι) : Prop where
  /-- The list from `head.next` and the list from `head.prev`. -/
  lists : ∃ l : List (Fin nbuf), Seg s.next (s.next none) (l.map some) none ∧
    Seg s.prev (s.prev none) (l.reverse.map some) none ∧ l.Nodup ∧ ∀ b, b ∈ l
  /-- No two buffers hold the same block of a real device. -/
  unique : ∀ b c, (s.buf b).dev < 2 → (s.buf b).dev = (s.buf c).dev →
    (s.buf b).blockno = (s.buf c).blockno → b = c
  busy : ∀ b, (s.buf b).busy = true → ∃! p, s.Has p b

theorem Inv.coherent (h : Inv s) : Coherent s where
  lists := by
    obtain ⟨l, hc, hall⟩ := h.lists
    refine ⟨l, hc.seg, ?_, (List.nodup_cons.mp hc.nodup).2.of_map, hall⟩
    rw [List.map_reverse]
    exact hc.reverse.seg
  unique b c hdev hd hn := h.data.unique b c _ _ hdev ⟨rfl, rfl⟩ ⟨hd.symm, hn.symm⟩
  busy b hb := by
    obtain ⟨p, hp⟩ := h.owners.owner b hb
    exact ⟨p, hp, fun q hq ↦ h.owners.excl q p b hq hp⟩

variable [DecidableEq ι]

theorem State.bget_held (hs : s.bget p dev blockno = some s') : s'.held = s.held := by
  rw [State.bget] at hs
  split at hs
  · cases hs
  · obtain rfl := Option.some.inj hs
    split_ifs <;> rfl
  · split at hs
    · cases hs
    · obtain rfl := Option.some.inj hs
      rfl
    · obtain rfl := Option.some.inj hs
      rfl

theorem State.eq_of_breadReturn {c : Fin nbuf} (hb : s.held p b = false)
    (hb' : (s.breadReturn p c).held p b = true) : b = c := by
  by_contra hne
  simp only [State.breadReturn, update_self, update_of_ne hne, hb] at hb'
  cases hb'

theorem Inv.returned {havedisk1 : Bool} (h : Inv s) (hs : s.run havedisk1 p = some s')
    (hb : s.held p b = false) (hb' : s'.held p b = true) :
    ∃ dev blockno, (s.pc p = .bread dev blockno b ∨ s.pc p = .awake b (.bread dev blockno)) ∧
      (s'.buf b).dev = dev ∧ (s'.buf b).blockno = blockno ∧
      (s'.buf b).data = s'.last dev blockno := by
  -- a step that takes no buffer into the hands of the process
  have hsame (hheld : s'.held = s.held) : False := by
    rw [hheld, hb] at hb'
    cases hb'
  have hplace := h.flags.place p
  have hcontents {dev blockno : UInt32} (hnamed : (s.buf b).Named dev blockno)
      (hv : (s.buf b).valid = true) (hf : (s.pc p).fetching = some b) :
      (s.buf b).data = s.last dev blockno := by
    obtain ⟨rfl, rfl, hdev⟩ := hnamed
    exact h.data.contents b hv hdev (h.owners.modified_eq_false (Or.inl hf))
  rw [State.run] at hs
  cases hp : s.pc p with
  | out | asleep _ _ _ | waiting _ _ =>
    rw [hp] at hs
    cases hs
  | bget dev blockno =>
    rw [hp] at hs
    exact (hsame (State.bget_held hs)).elim
  | bread dev blockno c =>
    rw [hp] at hs hplace
    obtain rfl := Option.some.inj hs
    rw [State.bread] at hb' hsame ⊢
    split_ifs at hb' hsame ⊢ with hv
    · obtain rfl := State.eq_of_breadReturn hb hb'
      exact ⟨dev, blockno, Or.inl rfl, hplace.1.1, hplace.1.2.1,
        hcontents hplace.1 hv (by rw [hp]; rfl)⟩
    · exact (hsame rfl).elim
  | iderw c k =>
    rw [hp] at hs
    obtain rfl := Option.some.inj hs
    exact (hsame (h.iderw hp).2).elim
  | awake c k =>
    rw [hp] at hs hplace
    obtain rfl := Option.some.inj hs
    rw [State.idewait.eq_def] at hb' hsame ⊢
    cases k with
    | bread dev blockno =>
      obtain ⟨hnamed, -, hv, hd⟩ := hplace
      rw [if_pos ⟨hv, hd⟩] at hb' ⊢
      obtain rfl := State.eq_of_breadReturn hb hb'
      exact ⟨dev, blockno, Or.inr rfl, hnamed.1, hnamed.2.1, hcontents hnamed hv (by rw [hp]; rfl)⟩
    | bwrite =>
      split_ifs at hsame
      · exact (hsame rfl).elim
      · exact (hsame rfl).elim

/-- **Coherence.** The second part says what `bread` returns, and the third that the search of
`bget` comes to an end. -/
theorem coherent_of_trace {havedisk1 : Bool} {disk : UInt32 → UInt32 → Block}
    {hist : List (State ι × Label ι)} (t : Trace (Step havedisk1) (initial ι disk) hist s) :
    Coherent s ∧
      (∀ p b s', Step havedisk1 s (.run p) s' → s.held p b = false → s'.held p b = true →
        ∃ dev blockno, (s.pc p = .bread dev blockno b ∨ s.pc p = .awake b (.bread dev blockno)) ∧
          (s'.buf b).dev = dev ∧ (s'.buf b).blockno = blockno ∧
          (s'.buf b).data = s'.last dev blockno) ∧
      ∀ p dev blockno, s.panicked = false → s.pc p = .bget dev blockno →
        ∃ s', Step havedisk1 s (.run p) s' := by
  have hinv : Inv s := t.invariant (.initial disk) fun hi hs ↦ hi.step hs
  refine ⟨hinv.coherent, fun p b s' hs hb hb' ↦ ?_, fun p dev blockno hpanic hp ↦ ?_⟩
  · exact hinv.returned hs.run_eq hb hb'
  · have hsome : s.bget p dev blockno ≠ none := by
      rw [State.bget]
      split
      · rename_i hw
        exact absurd hw hinv.lists.walk_ne_none
      · nofun
      · split
        · rename_i hw
          exact absurd hw hinv.lists.symm.walk_ne_none
        · nofun
        · nofun
    obtain ⟨s', hs'⟩ := Option.ne_none_iff_exists'.mp hsome
    refine ⟨s', ?_⟩
    rw [Step, State.exec, hpanic, if_neg Bool.false_ne_true]
    simp only [State.run, hp, hs']

end Steps

def firstBuf : Fin nbuf := ⟨0, by decide⟩

/-- A process reads a block, changes it and calls `log_write`; another one reads the block then. -/
def twoReaders : List (Label Bool) :=
  [[.bread true 1 40], List.replicate 3 (.run true), [.ideintr, .run true],
    [.modify true firstBuf fun _ ↦ 7, .logWrite true firstBuf, .brelse true firstBuf],
    [.bread false 1 40, .run false]].flatten

theorem coherent_of_trace_twoReaders :
    ∃ hist s s', Trace (Step true) (initial Bool fun _ _ _ ↦ 0) hist s ∧
      hist.map Prod.snd = twoReaders ∧ Step true s (.run false) s' ∧ Coherent s ∧
      ∃ dev blockno, (s'.buf firstBuf).data = s'.last dev blockno := by
  have hrun : (execute (State.exec true) (initial Bool fun _ _ _ ↦ 0) twoReaders).map
      (fun s ↦ (s.held false firstBuf, (s.exec true (.run false)).map
        fun s' ↦ s'.held false firstBuf)) = some (false, some true) := by
    decide +kernel
  obtain ⟨hist, s, t, hlab, hend⟩ : ∃ hist s, Trace (Step true) _ hist s ∧ _ :=
    exists_trace_of_execute_map (fun _ _ _ ↦ id) hrun
  obtain ⟨hheld, hlast⟩ := Prod.mk.inj hend
  obtain ⟨s', hs, hheld'⟩ := Option.map_eq_some_iff.mp hlast
  obtain ⟨hcoh, hread, -⟩ := coherent_of_trace t
  obtain ⟨dev, blockno, -, -, -, hdata⟩ := hread false firstBuf s' hs hheld hheld'
  exact ⟨hist, s, s', t, hlab, hs, hcoh, dev, blockno, hdata⟩

end SistemasOperacionais.Xv6.Bio
