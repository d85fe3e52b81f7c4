import SistemasOperacionais.Xv6.Bio.Coherence

/-!
# What a step of the buffer cache can change

The layer above the cache sees its steps only through what they do to a buffer, to the disk and to a
process. This is said here once for all steps, so that nothing above has to look into `bio.c`.
-/

namespace SistemasOperacionais.Xv6.Bio

open Foundations Function

variable {ι : Type*}

def Label.actor : Label ι → Option ι
  | .bread p _ _ | .modify p _ _ | .logWrite p _ | .bwrite p _ | .brelse p _ | .run p => some p
  | .ideintr => none

/-- The block that a process is reading. -/
def Pc.request : Pc → Option (UInt32 × UInt32)
  | .bget dev blockno | .asleep _ dev blockno | .bread dev blockno _
  | .iderw _ (.bread dev blockno) | .waiting _ (.bread dev blockno)
  | .awake _ (.bread dev blockno) => some (dev, blockno)
  | _ => none

/-- A buffer that no holder and no recycling has changed; a write to the disk may have ended. -/
structure Keeps (s s' : State ι) (b : Fin nbuf) : Prop where
  named : ∀ dev blockno, (s.buf b).Is dev blockno → (s'.buf b).Is dev blockno
  valid : (s.buf b).valid = true → (s'.buf b).valid = true ∧ (s'.buf b).data = (s.buf b).data
  dirty : (s'.buf b).dirty = (s.buf b).dirty ∨
    (s'.buf b).dirty = false ∧ ∃ p, (s.pc p).writing = some b
  modified : s'.modified b = s.modified b

def State.Free (s : State ι) (b : Fin nbuf) : Prop :=
  (s.buf b).busy = false ∧ (s.buf b).dirty = false

/-- What a step does to a buffer that its holder does not change. -/
def Label.Touches : Label ι → Fin nbuf → Prop
  | .modify _ b _, c | .logWrite _ b, c | .bwrite _ b, c => b = c
  | _, _ => False

section Effects

variable {s s' : State ι} {p : ι} {b : Fin nbuf} {dev blockno : UInt32} {k : Caller}

theorem Keeps.of_eq (hbuf : (s'.buf b).Like (s.buf b) ∧ (s'.buf b).data = (s.buf b).data)
    (hmod : s'.modified b = s.modified b) : Keeps s s' b := by
  obtain ⟨⟨hv, hd, hdev, hno⟩, hdata⟩ := hbuf
  refine ⟨fun dev blockno h ↦ ?_, fun h ↦ ⟨hv.trans h, hdata⟩, Or.inl hd, hmod⟩
  rw [Buf.Is, hdev, hno]
  exact h

theorem Keeps.of_buf (hbuf : s'.buf = s.buf) (hmod : s'.modified = s.modified) : Keeps s s' b :=
  .of_eq (by rw [hbuf]; exact ⟨Buf.like_self _, rfl⟩) (by rw [hmod])

theorem Inv.keeps_finish (h : Inv s) {q : List (Fin nbuf)} (hq : s.idequeue = b :: q)
    (c : Fin nbuf) : Keeps s (s.finish b q) c := by
  obtain rfl | hcb := eq_or_ne c b
  · obtain ⟨p, k, hp⟩ := h.flags.queue c (by rw [hq]; exact List.mem_cons_self)
    have hplace := h.flags.place p
    rw [hp] at hplace
    have hb : (s.finish c q).buf c = ⟨(s.buf c).busy, true, false, (s.buf c).dev, (s.buf c).blockno,
      if (s.buf c).dirty then (s.buf c).data
      else s.disk ((s.buf c).dev &&& 1) (s.buf c).blockno⟩ := update_self ..
    cases k with
    | bread dev blockno =>
      have hclean : (s.buf c).dirty = false := by
        by_contra hd
        have hv := (h.flags.pinned c (Bool.eq_true_of_not_eq_false hd)).1
        rw [hplace.2.2] at hv
        cases hv
      refine ⟨fun _ _ his ↦ by rw [hb]; exact his, fun hv ↦ ?_, Or.inl (by rw [hb, hclean]), rfl⟩
      rw [hplace.2.2] at hv
      cases hv
    | bwrite =>
      refine ⟨fun _ _ his ↦ by rw [hb]; exact his, fun _ ↦ ?_,
        Or.inr ⟨by rw [hb], p, by rw [hp]; rfl⟩, rfl⟩
      rw [hb, hplace.2, if_pos rfl]
      exact ⟨rfl, rfl⟩
  · refine .of_eq ?_ rfl
    have hbuf : (s.finish b q).buf c = s.buf c := update_of_ne hcb ..
    rw [hbuf]
    exact ⟨Buf.like_self _, rfl⟩

theorem State.idestart_eq (hs : s.idestart b = some s') : ∃ disk, s' = { s with disk := disk } := by
  rw [State.idestart, Option.ite_none_left_eq_some] at hs
  obtain ⟨-, hs⟩ := hs
  obtain rfl := Option.some.inj hs
  split_ifs
  · exact ⟨_, rfl⟩
  · exact ⟨s.disk, rfl⟩

theorem Inv.keeps_ideintr (h : Inv s) (c : Fin nbuf) : Keeps s s.ideintr c := by
  rw [State.ideintr]
  split
  · exact .of_buf rfl rfl
  · rename_i b hq
    exact h.keeps_finish hq c
  · rename_i b d q hq
    cases hstart : (s.finish b (d :: q)).idestart d with
    | none => exact .of_buf rfl rfl
    | some s₂ =>
      obtain ⟨disk, rfl⟩ := State.idestart_eq hstart
      have hkeeps := h.keeps_finish hq c
      exact ⟨hkeeps.named, hkeeps.valid, hkeeps.dirty, hkeeps.modified⟩

theorem State.ideintr_eq (s : State ι) : s.ideintr = s ∨ s.ideintr = s.panic ∨
    ∃ b q disk, s.idequeue = b :: q ∧ s.ideintr = { s.finish b q with disk := disk } := by
  rw [State.ideintr]
  split
  · exact Or.inl rfl
  · rename_i b hq
    exact Or.inr (Or.inr ⟨b, [], s.disk, hq, rfl⟩)
  · rename_i b d q hq
    cases hstart : (s.finish b (d :: q)).idestart d with
    | none => exact Or.inr (Or.inl rfl)
    | some s₂ =>
      obtain ⟨disk, rfl⟩ := State.idestart_eq hstart
      exact Or.inr (Or.inr ⟨b, d :: q, disk, hq, rfl⟩)

theorem State.idestart_disk (hs : s.idestart b = some s') (hdev : (s.buf b).dev < 2)
    (dev blockno : UInt32) :
    s'.disk dev blockno = s.disk dev blockno ∨ (s.buf b).Is dev blockno ∧
      (s.buf b).dirty = true ∧ s'.disk dev blockno = (s.buf b).data := by
  rw [State.idestart, Option.ite_none_left_eq_some] at hs
  obtain ⟨-, hs⟩ := hs
  obtain rfl := Option.some.inj hs
  split_ifs with hdirty
  · rw [and_one_eq hdev]
    by_cases his : (s.buf b).Is dev blockno
    · obtain ⟨rfl, rfl⟩ := his
      exact Or.inr ⟨⟨rfl, rfl⟩, hdirty, by simp only [update_self]⟩
    · left
      obtain rfl | hne := eq_or_ne dev (s.buf b).dev
      · simp only [update_self]
        rw [update_of_ne fun hno ↦ his ⟨rfl, hno.symm⟩]
      · simp only [update_of_ne hne]
  · exact Or.inl rfl

/-- A buffer whose request has been made and is dirty is being written. -/
theorem Inv.writing_of_dirty (h : Inv s) {q : ι} (hq : s.pc q = .iderw b k ∨ s.pc q = .waiting b k)
    (hdirty : (s.buf b).dirty = true) : (s.pc q).writing = some b := by
  have hplace := h.flags.place q
  cases k with
  | bread dev blockno =>
    have hv := (h.flags.pinned b hdirty).1
    rcases hq with hq | hq
    · rw [hq] at hplace
      rw [hplace.2.2] at hv
      cases hv
    · rw [hq] at hplace
      rw [hplace.2.2] at hv
      cases hv
  | bwrite =>
    rcases hq with hq | hq
    · rw [hq]
      rfl
    · rw [hq]
      rfl

/-- The other processes. -/
structure Aside (s s' : State ι) (q : ι) : Prop where
  held : s'.held q = s.held q
  ret : s'.ret q = s.ret q
  out : s'.pc q = .out ↔ s.pc q = .out
  request : (s'.pc q).request = (s.pc q).request
  writing : (s'.pc q).writing = (s.pc q).writing

theorem Pc.wake_request (c : Pc) (b : Fin nbuf) :
    (c.wake b).request = c.request ∧ (c.wake b = .out ↔ c = .out) := by
  cases c with
  | asleep x dev blockno =>
    rw [Pc.wake]
    split_ifs <;> simp [Pc.request]
  | waiting x k =>
    rw [Pc.wake]
    split_ifs
    · cases k <;> simp [Pc.request]
    · simp
  | out | bget _ _ | bread _ _ _ | iderw _ _ | awake _ _ => exact ⟨rfl, Iff.rfl⟩

theorem Aside.of_pc {q : ι} (hheld : s'.held q = s.held q) (hret : s'.ret q = s.ret q)
    (hpc : s'.pc q = s.pc q) : Aside s s' q :=
  ⟨hheld, hret, by rw [hpc], by rw [hpc], by rw [hpc]⟩

theorem Aside.of_wake {q : ι} (hheld : s'.held q = s.held q) (hret : s'.ret q = s.ret q)
    (hpc : s'.pc q = (s.pc q).wake b) : Aside s s' q :=
  ⟨hheld, hret, by rw [hpc]; exact (Pc.wake_request _ b).2,
    by rw [hpc]; exact (Pc.wake_request _ b).1, by rw [hpc]; exact (Pc.wake_hands _ b).2⟩

theorem held_of_enqueue {s₁ : State ι}
    (hs : s₁ = s.enqueue b ∨ (s.enqueue b).idestart b = some s₁) : s₁.held = s.held := by
  obtain rfl | hs := hs
  · rfl
  · obtain ⟨disk, rfl⟩ := State.idestart_eq hs
    rfl

variable [DecidableEq ι]

/-- What a process can do inside `bio.c` or `ide.c`. -/
inductive Ran (s : State ι) (p : ι) : State ι → Prop
  | panic : Ran s p s.panic
  | sleep {b : Fin nbuf} {dev blockno : UInt32} (hp : s.pc p = .bget dev blockno) :
      Ran s p (s.goto p (.asleep b dev blockno))
  | take {b : Fin nbuf} {dev blockno : UInt32} (hp : s.pc p = .bget dev blockno)
      (hb : (s.buf b).Is dev blockno) :
      Ran s p ((s.setBuf b { s.buf b with busy := true }).goto p (.bread dev blockno b))
  | recycle {b : Fin nbuf} {dev blockno : UInt32} (hp : s.pc p = .bget dev blockno)
      (hb : s.Free b) :
      Ran s p ((s.setBuf b ⟨true, false, false, dev, blockno, (s.buf b).data⟩).goto p
        (.bread dev blockno b))
  | returns {b : Fin nbuf} {dev blockno : UInt32}
      (hp : s.pc p = .bread dev blockno b ∨ s.pc p = .awake b (.bread dev blockno)) :
      Ran s p (s.breadReturn p b)
  | fetch {b : Fin nbuf} {dev blockno : UInt32} (hp : s.pc p = .bread dev blockno b) :
      Ran s p (s.goto p (.iderw b (.bread dev blockno)))
  | enqueue {b : Fin nbuf} {k : Caller} {s₁ : State ι} (hp : s.pc p = .iderw b k)
      (hs : s₁ = s.enqueue b ∨ (s.enqueue b).idestart b = some s₁) :
      Ran s p (s₁.goto p (.waiting b k))
  | written {b : Fin nbuf} (hp : s.pc p = .awake b .bwrite) : Ran s p (s.goto p .out)

theorem Inv.ran {havedisk1 : Bool} (h : Inv s) (hs : s.run havedisk1 p = some s') : Ran s p s' := by
  have hplace := h.flags.place p
  rw [State.run] at hs
  cases hp : s.pc p with
  | out | asleep _ _ _ | waiting _ _ =>
    rw [hp] at hs
    cases hs
  | bget dev blockno =>
    rw [hp] at hs
    simp only [State.bget] at hs
    split at hs
    · cases hs
    · rename_i b hw
      obtain rfl := Option.some.inj hs
      split_ifs
      · exact .sleep hp
      · have hb := of_decide_eq_true (h.lists.of_walk_some hw)
        exact .take hp hb
    · split at hs
      · cases hs
      · obtain rfl := Option.some.inj hs
        exact .panic
      · rename_i b hw
        have hb := of_decide_eq_true (h.lists.symm.of_walk_some hw)
        obtain rfl := Option.some.inj hs
        exact .recycle hp hb
  | bread dev blockno b =>
    rw [hp] at hs
    obtain rfl := Option.some.inj hs
    rw [State.bread]
    split_ifs
    · exact .returns (Or.inl hp)
    · exact .fetch hp
  | iderw b k =>
    rw [hp] at hs
    obtain rfl := Option.some.inj hs
    rw [State.iderw]
    split_ifs with hpanic hempty
    · exact .panic
    · push Not at hpanic
      cases hstart : (s.enqueue b).idestart b with
      | none => exact .panic
      | some s₁ =>
        have hbuf : s₁.buf = s.buf := by
          obtain ⟨disk, rfl⟩ := State.idestart_eq hstart
          rfl
        rw [Option.elim_some, State.idewait_of_not_done hpanic.2.1 hbuf]
        exact .enqueue hp (Or.inr hstart)
    · push Not at hpanic
      rw [State.idewait_of_not_done hpanic.2.1 (by rfl)]
      exact .enqueue hp (Or.inl rfl)
  | awake b k =>
    rw [hp] at hs hplace
    obtain rfl := Option.some.inj hs
    rw [State.idewait.eq_def]
    cases k with
    | bread dev blockno =>
      rw [if_pos ⟨hplace.2.2.1, hplace.2.2.2⟩]
      exact .returns (Or.inr hp)
    | bwrite =>
      rw [if_pos ⟨hplace.2.1, hplace.2.2⟩]
      exact .written hp

theorem Ran.keeps (hr : Ran s p s') (c : Fin nbuf) : s.Free c ∨ Keeps s s' c := by
  cases hr with
  | panic | sleep hp | returns hp | fetch hp | written hp => exact Or.inr (.of_buf rfl rfl)
  | @take b dev blockno hp hb =>
    refine Or.inr (.of_eq ?_ rfl)
    obtain rfl | hcb := eq_or_ne c b
    · simp only [State.goto, State.setBuf, update_self]
      exact ⟨⟨rfl, rfl, rfl, rfl⟩, trivial⟩
    · simp only [State.goto, State.setBuf, update_of_ne hcb]
      exact ⟨Buf.like_self _, trivial⟩
  | @recycle b dev blockno hp hb =>
    obtain rfl | hcb := eq_or_ne c b
    · exact Or.inl hb
    · refine Or.inr (.of_eq ?_ rfl)
      simp only [State.goto, State.setBuf, update_of_ne hcb]
      exact ⟨Buf.like_self _, trivial⟩
  | enqueue hp hs =>
    obtain rfl | hs := hs
    · exact Or.inr (.of_buf rfl rfl)
    · obtain ⟨disk, rfl⟩ := State.idestart_eq hs
      exact Or.inr (.of_buf rfl rfl)

theorem Ran.held (hr : Ran s p s') (hb : s.held p b = true) : s'.held p b = true := by
  cases hr with
  | panic | sleep hp | take hp hc | recycle hp hc | fetch hp | written hp => exact hb
  | @returns c dev blockno hp =>
    simp only [State.breadReturn, update_self]
    obtain rfl | hne := eq_or_ne b c
    · rw [update_self]
    · rw [update_of_ne hne, hb]
  | enqueue hp hs => exact (congrFun (congrFun (held_of_enqueue hs) p) b).trans hb

/-- **The buffers.** -/
theorem Inv.keeps {havedisk1 : Bool} {a : Label ι} (h : Inv s) (hs : Step havedisk1 s a s')
    (c : Fin nbuf) : a.Touches c ∨ s.Free c ∨ Keeps s s' c := by
  cases hs.taken with
  | bread => exact Or.inr (Or.inr (.of_buf rfl rfl))
  | @modify _ b =>
    obtain rfl | hcb := eq_or_ne c b
    · exact Or.inl rfl
    · refine Or.inr (Or.inr (.of_eq ?_ ?_))
      · simp only [State.modify, State.setBuf, update_of_ne hcb]
        exact ⟨Buf.like_self _, trivial⟩
      · simp only [State.modify, update_of_ne hcb]
  | @logWrite _ b =>
    obtain rfl | hcb := eq_or_ne c b
    · exact Or.inl rfl
    · refine Or.inr (Or.inr (.of_eq ?_ ?_))
      · simp only [State.setDirty, State.setBuf, update_of_ne hcb]
        exact ⟨Buf.like_self _, trivial⟩
      · simp only [State.setDirty, update_of_ne hcb]
  | @bwrite _ b =>
    rw [State.bwrite]
    split_ifs
    · exact Or.inr (Or.inr (.of_buf rfl rfl))
    · obtain rfl | hcb := eq_or_ne c b
      · exact Or.inl rfl
      · refine Or.inr (Or.inr (.of_eq ?_ ?_))
        · simp only [State.goto, State.setDirty, State.setBuf, update_of_ne hcb]
          exact ⟨Buf.like_self _, trivial⟩
        · simp only [State.goto, State.setDirty, update_of_ne hcb]
  | @brelse _ b =>
    rw [State.brelse]
    split_ifs
    · exact Or.inr (Or.inr (.of_buf rfl rfl))
    · refine Or.inr (Or.inr (.of_eq ?_ rfl))
      obtain rfl | hcb := eq_or_ne c b
      · simp only [State.wakeup, State.setBuf, update_self]
        exact ⟨⟨rfl, rfl, rfl, rfl⟩, trivial⟩
      · simp only [State.wakeup, State.setBuf, update_of_ne hcb]
        exact ⟨Buf.like_self _, trivial⟩
  | run hr => exact Or.inr ((h.ran hr).keeps c)
  | ideintr => exact Or.inr (Or.inr (h.keeps_ideintr c))

theorem Ran.last_eq (hr : Ran s p s') : s'.last = s.last := by
  cases hr with
  | enqueue hp hs =>
    obtain rfl | hs := hs
    · rfl
    · obtain ⟨disk, rfl⟩ := State.idestart_eq hs
      rfl
  | _ => rfl

/-- **The contents left last.** -/
theorem Inv.last_eq {havedisk1 : Bool} {a : Label ι} (h : Inv s) (hs : Step havedisk1 s a s') :
    s'.last = s.last ∨
      ∃ p b, (a = .logWrite p b ∨ a = .bwrite p b) ∧ s'.last = (s.setDirty b).last := by
  cases hs.taken with
  | bread | modify => exact Or.inl rfl
  | logWrite => exact Or.inr ⟨_, _, Or.inl rfl, rfl⟩
  | bwrite =>
    rw [State.bwrite]
    split_ifs
    · exact Or.inl rfl
    · exact Or.inr ⟨_, _, Or.inr rfl, rfl⟩
  | brelse =>
    rw [State.brelse]
    split_ifs <;> exact Or.inl rfl
  | run hr => exact Or.inl (h.ran hr).last_eq
  | ideintr =>
    obtain heq | heq | ⟨b, q, disk, -, heq⟩ := s.ideintr_eq
    · rw [heq]
      exact Or.inl rfl
    · rw [heq]
      exact Or.inl rfl
    · rw [heq]
      exact Or.inl rfl

/-- **The disk.** A block on the disk changes only while a process is writing it. -/
theorem Inv.disk_eq {havedisk1 : Bool} {a : Label ι} (h : Inv s) (hs : Step havedisk1 s a s')
    (dev blockno : UInt32) : s'.disk dev blockno = s.disk dev blockno ∨
      ∃ b q, (s.buf b).Is dev blockno ∧ (s.pc q).writing = some b ∧
        s'.disk dev blockno = (s.buf b).data := by
  have hdirty_dev : ∀ b : Fin nbuf, (∃ q k, s.pc q = .iderw b k ∨ s.pc q = .waiting b k) →
      (s.buf b).dev < 2 := by
    rintro b ⟨q, k, hq⟩
    have hplace := h.flags.place q
    cases k with
    | bread dev blockno =>
      rcases hq with hq | hq
      · rw [hq] at hplace
        exact hplace.1.1 ▸ hplace.1.2.2
      · rw [hq] at hplace
        exact hplace.1.1 ▸ hplace.1.2.2
    | bwrite =>
      rcases hq with hq | hq
      · rw [hq] at hplace
        exact (h.flags.pinned b hplace.2).2
      · rw [hq] at hplace
        exact (h.flags.pinned b hplace.2).2
  cases hs.taken with
  | bread | modify | logWrite => exact Or.inl rfl
  | bwrite =>
    rw [State.bwrite]
    split_ifs <;> exact Or.inl rfl
  | brelse =>
    rw [State.brelse]
    split_ifs <;> exact Or.inl rfl
  | @run p _ hr =>
    cases h.ran hr with
    | @enqueue b k s₁ hp hq =>
      obtain rfl | hq := hq
      · exact Or.inl rfl
      · have hdev := hdirty_dev b ⟨p, k, Or.inl hp⟩
        obtain heq | ⟨his, hdirty, heq⟩ := State.idestart_disk hq hdev dev blockno
        · exact Or.inl heq
        · exact Or.inr ⟨b, p, his, h.writing_of_dirty (Or.inl hp) hdirty, heq⟩
    | _ => exact Or.inl rfl
  | ideintr =>
    rw [State.ideintr]
    split
    · exact Or.inl rfl
    · exact Or.inl rfl
    · rename_i b c q hq
      cases hstart : (s.finish b (c :: q)).idestart c with
      | none => exact Or.inl rfl
      | some s₂ =>
        obtain ⟨r, k, hr⟩ := h.flags.queue c (by rw [hq]; simp)
        have hnd := h.flags.nodup
        rw [hq] at hnd
        have hcb : c ≠ b := fun heq ↦ (List.nodup_cons.mp hnd).1 (heq ▸ List.mem_cons_self)
        have hbuf : (s.finish b (c :: q)).buf c = s.buf c := update_of_ne hcb ..
        have hdev := hdirty_dev c ⟨r, k, Or.inr hr⟩
        rw [← hbuf] at hdev
        obtain heq | ⟨his, hdirty, heq⟩ := State.idestart_disk hstart hdev dev blockno
        · exact Or.inl heq
        · rw [hbuf] at his hdirty heq
          exact Or.inr ⟨c, r, his, h.writing_of_dirty (Or.inr hr) hdirty, heq⟩

theorem Ran.aside {q : ι} (hr : Ran s p s') (hq : q ≠ p) : Aside s s' q := by
  cases hr with
  | panic => exact .of_pc rfl rfl rfl
  | sleep hp | take hp hb | recycle hp hb | fetch hp | written hp =>
    exact .of_pc rfl rfl (update_of_ne hq ..)
  | returns hp => exact .of_pc (update_of_ne hq ..) (update_of_ne hq ..) (update_of_ne hq ..)
  | enqueue hp hs =>
    obtain rfl | hs := hs
    · exact .of_pc rfl rfl (update_of_ne hq ..)
    · obtain ⟨disk, rfl⟩ := State.idestart_eq hs
      exact .of_pc rfl rfl (update_of_ne hq ..)

theorem Inv.aside {havedisk1 : Bool} {a : Label ι} {q : ι} (h : Inv s) (hs : Step havedisk1 s a s')
    (hq : a.actor ≠ some q) : Aside s s' q := by
  cases hs.taken with
  | @bread p =>
    have hne : q ≠ p := fun heq ↦ hq (by rw [heq]; rfl)
    exact .of_pc rfl rfl (update_of_ne hne ..)
  | modify | logWrite => exact .of_pc rfl rfl rfl
  | @bwrite p =>
    have hne : q ≠ p := fun heq ↦ hq (by rw [heq]; rfl)
    rw [State.bwrite]
    split_ifs
    · exact .of_pc rfl rfl rfl
    · exact .of_pc rfl rfl (update_of_ne hne ..)
  | @brelse p b =>
    have hne : q ≠ p := fun heq ↦ hq (by rw [heq]; rfl)
    rw [State.brelse]
    split_ifs
    · exact .of_pc rfl rfl rfl
    · exact .of_wake (b := b) (update_of_ne hne ..) rfl rfl
  | @run p _ hr =>
    have hne : q ≠ p := fun heq ↦ hq (by rw [heq]; rfl)
    exact (h.ran hr).aside hne
  | ideintr =>
    obtain heq | heq | ⟨b, l, disk, -, heq⟩ := s.ideintr_eq
    · rw [heq]
      exact .of_pc rfl rfl rfl
    · rw [heq]
      exact .of_pc rfl rfl rfl
    · rw [heq]
      exact .of_wake (b := b) rfl rfl rfl

/-- A process writes only after it has called `bwrite`. -/
theorem Inv.writing_eq_none {havedisk1 : Bool} {a : Label ι} {q : ι} (h : Inv s)
    (hs : Step havedisk1 s a s') (ha : ∀ b, a ≠ .bwrite q b) (hq : (s.pc q).writing = none) :
    (s'.pc q).writing = none := by
  by_cases hactor : a.actor = some q
  · cases hs.taken with
    | bread =>
      obtain rfl := Option.some.inj hactor
      simp only [State.goto, update_self]
      rfl
    | modify | logWrite => exact hq
    | @bwrite p b =>
      obtain rfl := Option.some.inj hactor
      exact absurd rfl (ha b)
    | @brelse p b =>
      rw [State.brelse]
      split_ifs
      · exact hq
      · exact (Pc.wake_hands _ b).2.trans hq
    | run hr =>
      obtain rfl := Option.some.inj hactor
      cases h.ran hr with
      | panic => exact hq
      | sleep hp | take hp hb | recycle hp hb | fetch hp | written hp | returns hp =>
        simp only [State.goto, State.breadReturn, update_self]
        rfl
      | @enqueue b k s₁ hp hs =>
        rw [hp] at hq
        simp only [State.goto, update_self]
        cases k with
        | bread _ _ => rfl
        | bwrite => cases hq
    | ideintr => cases hactor
  · rw [(h.aside hs hactor).writing, hq]

/-! ### The process itself -/

section Calls

variable {havedisk1 : Bool}

theorem Step.bread_eq (hs : Step havedisk1 s (.bread p dev blockno) s') :
    s' = s.goto p (.bget dev blockno) := by
  cases hs.taken with
  | bread => rfl

theorem Step.modify_eq {d : Block} (hs : Step havedisk1 s (.modify p b d) s') :
    s.Holds p b ∧ s' = s.modify b d := by
  cases hs.taken with
  | modify hp => exact ⟨hp, rfl⟩

theorem Step.logWrite_eq (hs : Step havedisk1 s (.logWrite p b) s') : s' = s.setDirty b := by
  cases hs.taken with
  | logWrite => rfl

theorem Step.bwrite_eq (h : Inv s) (hs : Step havedisk1 s (.bwrite p b) s') :
    s' = (s.setDirty b).goto p (.iderw b .bwrite) := by
  cases hs.taken with
  | bwrite hp =>
    have hbusy := h.owners.busy p b (Or.inl hp.2)
    rw [State.bwrite, if_neg (by rw [hbusy]; rintro ⟨⟩)]

theorem Step.brelse_eq (hs : Step havedisk1 s (.brelse p b) s') :
    s'.pc p = .out ∧ s'.last = s.last ∧ s'.disk = s.disk := by
  cases hs.taken with
  | brelse hp =>
    rw [State.brelse]
    split_ifs
    · exact ⟨hp.1, rfl, rfl⟩
    · exact ⟨(Pc.wake_request _ b).2.mpr hp.1, rfl, rfl⟩

theorem Step.run_held (h : Inv s) (hs : Step havedisk1 s (.run p) s') (hb : s.held p b = true) :
    s'.held p b = true :=
  (h.ran hs.run_eq).held hb

theorem Step.run_ne_out (hs : Step havedisk1 s (.run p) s') : s.pc p ≠ .out := fun hp ↦ by
  have hr := hs.run_eq
  simp only [State.run, hp] at hr
  cases hr

end Calls

theorem Inv.run_request {havedisk1 : Bool} (h : Inv s) (hs : Step havedisk1 s (.run p) s')
    (hreq : (s.pc p).request = some (dev, blockno)) :
    s'.held p = s.held p ∧ (s'.pc p).request = some (dev, blockno) ∨
      ∃ b, s'.pc p = .out ∧ s'.ret p = some b ∧ s'.held p = update (s.held p) b true ∧
        (s'.buf b).Is dev blockno ∧ s'.modified b = false := by
  have hplace := h.flags.place p
  cases h.ran hs.run_eq with
  | panic => exact Or.inl ⟨rfl, hreq⟩
  | sleep hp | take hp hb | recycle hp hb | fetch hp =>
    rw [hp] at hreq
    left
    simp only [State.goto, State.setBuf, update_self, true_and]
    exact hreq
  | @returns b dev' blockno' hp =>
    right
    refine ⟨b, update_self .., update_self .., update_self .., ?_⟩
    rcases hp with hp | hp
    · have hm := h.owners.modified_eq_false (p := p) (b := b) (Or.inl (by rw [hp]; rfl))
      rw [hp] at hreq hplace
      obtain ⟨rfl, rfl⟩ := Prod.mk.inj (Option.some.inj hreq)
      exact ⟨⟨hplace.1.1, hplace.1.2.1⟩, hm⟩
    · have hm := h.owners.modified_eq_false (p := p) (b := b) (Or.inl (by rw [hp]; rfl))
      rw [hp] at hreq hplace
      obtain ⟨rfl, rfl⟩ := Prod.mk.inj (Option.some.inj hreq)
      exact ⟨⟨hplace.1.1, hplace.1.2.1⟩, hm⟩
  | @enqueue b k s₁ hp hq =>
    rw [hp] at hreq
    left
    have hheld : s₁.held = s.held := held_of_enqueue hq
    simp only [State.goto, update_self, hheld, true_and]
    cases k with
    | bread _ _ => exact hreq
    | bwrite => cases hreq
  | written hp =>
    rw [hp] at hreq
    cases hreq

theorem Inv.run_writing {havedisk1 : Bool} (h : Inv s) (hs : Step havedisk1 s (.run p) s')
    (hw : (s.pc p).writing = some b) :
    s'.held p = s.held p ∧ ((s'.pc p).writing = some b ∨
      s'.pc p = .out ∧ (s'.buf b).dirty = false) := by
  have hplace := h.flags.place p
  cases h.ran hs.run_eq with
  | panic => exact ⟨rfl, Or.inl hw⟩
  | sleep hp | take hp hb | recycle hp hb | fetch hp =>
    rw [hp] at hw
    cases hw
  | returns hp =>
    rcases hp with hp | hp
    · rw [hp] at hw
      cases hw
    · rw [hp] at hw
      cases hw
  | @enqueue c k s₁ hp hq =>
    rw [hp] at hw
    have hheld : s₁.held = s.held := held_of_enqueue hq
    simp only [State.goto, update_self, hheld, true_and]
    cases k with
    | bread _ _ => cases hw
    | bwrite => exact Or.inl hw
  | written hp =>
    rw [hp] at hw hplace
    obtain rfl := Option.some.inj hw
    exact ⟨rfl, Or.inr ⟨update_self .., hplace.2.2⟩⟩

end Effects

/-- **The disk queue.** No request is lost or made twice: a buffer is queued as long as a process,
and no other, sleeps in `iderw` for it. -/
theorem idequeue_of_trace [DecidableEq ι] {havedisk1 : Bool} {disk : UInt32 → UInt32 → Block}
    {s : State ι} {hist : List (State ι × Label ι)}
    (t : Trace (Step havedisk1) (initial ι disk) hist s) :
    s.idequeue.Nodup ∧ ∀ b, b ∈ s.idequeue ↔ ∃! p, ∃ k, s.pc p = .waiting b k := by
  have h : Inv s := t.invariant (.initial disk) fun hi hs ↦ hi.step hs
  have hhas {b p k} (hp : s.pc p = .waiting b k) : s.Has p b ∧ b ∈ s.idequeue := by
    have hplace := h.flags.place p
    rw [hp] at hplace
    cases k with
    | bread => exact ⟨Or.inr (by rw [hp]; rfl), hplace.2.1⟩
    | bwrite => exact ⟨Or.inl (h.owners.writes p b (by rw [hp]; rfl)), hplace.1⟩
  refine ⟨h.flags.nodup, fun b ↦ ⟨fun hb ↦ ?_, ?_⟩⟩
  · obtain ⟨p, k, hp⟩ := h.flags.queue b hb
    refine ⟨p, ⟨k, hp⟩, ?_⟩
    rintro q ⟨k', hq⟩
    exact h.owners.excl q p b (hhas hq).1 (hhas hp).1
  · rintro ⟨p, ⟨k, hp⟩, -⟩
    exact (hhas hp).2

theorem idequeue_of_trace_read : ∃ s, execute (State.exec true) (initial Unit fun _ _ _ ↦ 0)
    [.bread () 1 40, .run (), .run (), .run ()] = some s ∧ firstBuf ∈ s.idequeue := by
  have hrun : (execute (State.exec true) (initial Unit fun _ _ _ ↦ 0)
      [.bread () 1 40, .run (), .run (), .run ()]).map (fun s ↦ s.pc ()) =
      some (.waiting firstBuf (.bread 1 40)) := by decide +kernel
  obtain ⟨s, hs, hp⟩ := Option.map_eq_some_iff.mp hrun
  exact ⟨s, hs, ((idequeue_of_trace (trace_of_execute (fun _ _ _ ↦ id) hs).1).2 firstBuf).mpr
    ⟨(), ⟨_, hp⟩, fun _ _ ↦ rfl⟩⟩

end SistemasOperacionais.Xv6.Bio
