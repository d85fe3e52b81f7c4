import SistemasOperacionais.Xv6.Sleep.Model

/-!
# What `sleep`, `wakeup` and the scheduler rely on

The invariant says for every processor what the frame it executes relies on (the lock, the state of
the process, what the loop of `wakeup1` has done so far), and for every process that is not
executing why it is not. A step of one processor writes the entries of the table only under
`ptable.lock`, so the others do not notice.
-/

namespace SistemasOperacionais.Xv6.Sleep

open Foundations Function
open Proc (Procstate)

variable {κ : Type*} {n : ℕ} {s s' : State κ n} {c d : κ} {p : Fin n}

/-! ## Frames -/

/-- The frames that are executed with `ptable.lock` held. -/
def Frame.locks : Frame n → Bool
  | .sleepRelease .. | .sleepChan .. | .sleepState .. | .sleepSched .. | .sleepTidy _
  | .sleepUnlock _ | .wakeupLoop .. | .wakeupLeave _ | .yieldState | .yieldSched | .yieldLeave
  | .exitState | .exitSched | .scan => true
  | _ => false

/-- The lock that `sleep` was called with, where it is held for the caller. -/
def Frame.holds : Frame n → Option Lock
  | .sleepEnter _ lk | .sleepReturn lk => some lk
  | _ => none

/-- The frames of processes that have left the processor. -/
def Frame.away : Frame n → Bool
  | .asleep .. | .yielded | .exited => true
  | _ => false

/-- The entry of a process that executes the frame. -/
def Frame.onCpu (e : Entry) : Frame n → Prop
  | .sleepState chan _ => e.state = .running ∧ e.chan = chan
  | .sleepSched chan _ => e.state = .sleeping ∧ e.chan = chan
  | .yieldSched => e.state = .runnable
  | .exitSched => e.state = .zombie
  | _ => e.state = .running

/-- The entry of a process that is not executing and will go on at the frame. -/
def Frame.offCpu (e : Entry) : Frame n → Prop
  | .asleep chan _ => e.state = .runnable ∨ (e.state = .sleeping ∧ e.chan = chan)
  | .yielded => e.state = .runnable
  | .yieldLeave => e.state = .runnable ∨ e.state = .embryo
  | .exited => e.state = .zombie
  | _ => False

/-- What the loop of `wakeup1` has achieved. -/
def Frame.swept (proc : Fin n → Entry) : Frame n → Prop
  | .wakeupLoop chan rest => ∀ p, p ∉ rest → ¬((proc p).state = .sleeping ∧ (proc p).chan = chan)
  | .wakeupLeave chan => ∀ p, ¬((proc p).state = .sleeping ∧ (proc p).chan = chan)
  | _ => True

/-- The frames that are not calls. -/
def Frame.base : Frame n → Bool
  | .code | .idle | .scan => true
  | _ => false

/-- A stack ends in a frame that is never left. -/
def Bottom (l : List (Frame n)) : Prop := ∃ b ∈ l.getLast?, b.base = true

section Bottom

variable {f g : Frame n} {rest : List (Frame n)}

theorem Bottom.ne_nil {l : List (Frame n)} (h : Bottom l) : ∃ f rest, l = f :: rest := by
  cases l with
  | nil =>
    obtain ⟨b, hb, -⟩ := h
    cases hb
  | cons f rest => exact ⟨f, rest, rfl⟩

theorem Bottom.push (h : Bottom rest) : Bottom (f :: rest) := by
  obtain ⟨g, l, rfl⟩ := h.ne_nil
  obtain ⟨b, hb, hbase⟩ := h
  exact ⟨b, by rwa [List.getLast?_cons_cons], hbase⟩

theorem Bottom.pop (h : Bottom (g :: rest)) (hg : g.base = false) : Bottom rest := by
  obtain ⟨b, hb, hbase⟩ := h
  cases rest with
  | nil =>
    obtain rfl : g = b := Option.some.inj hb
    rw [hg] at hbase
    cases hbase
  | cons f l =>
    rw [List.getLast?_cons_cons] at hb
    exact ⟨b, hb, hbase⟩

theorem Bottom.tail (h : Bottom (g :: f :: rest)) : Bottom (f :: rest) := by
  obtain ⟨b, hb, hbase⟩ := h
  rw [List.getLast?_cons_cons] at hb
  exact ⟨b, hb, hbase⟩

theorem Bottom.replace (h : Bottom (g :: rest)) (hfg : g.base = false ∨ f.base = true) :
    Bottom (f :: rest) := by
  rcases hfg with hg | hf
  · exact (h.pop hg).push
  · cases rest with
    | nil => exact ⟨f, rfl, hf⟩
    | cons x l => exact h.tail.push

end Bottom

/-! ## The invariant -/

/-- Locks and processors agree on who holds what. -/
structure Locked (s : State κ n) : Prop where
  iff : ∀ l c, s.lock l = some c ↔ l ∈ s.held c
  nodup : ∀ c, (s.held c).Nodup

/-- What a processor relies on, with `f` on top of its stack. -/
structure OnTop (s : State κ n) (c : κ) (f : Frame n) : Prop where
  present : f.away = false
  locks : f.locks = true → s.lock .ptable = some c
  holds : ∀ lk ∈ f.holds, s.lock lk = some c
  entry : ∀ p, s.run c = .inl p → f.onCpu (s.proc p)
  swept : f.swept s.proc

structure Inv (s : State κ n) : Prop where
  locked : Locked s
  run_sched : ∀ c d, s.run c = .inr d → d = c
  run_inj : ∀ c d p, s.run c = .inl p → s.run d = .inl p → c = d
  /-- Only the frame on top may rely on a lock: the others were interrupted, or are calls. -/
  below : ∀ x f rest, s.stack x = f :: rest → ∀ g ∈ rest, g.open = true
  bottom : ∀ x, Bottom (s.stack x)
  cpu : ∀ c f rest, s.stack (s.run c) = f :: rest → OnTop s c f
  off : ∀ p, (∀ c, s.run c ≠ .inl p) →
    ∃ f rest, s.stack (.inl p) = f :: rest ∧ f.offCpu (s.proc p)
  sched : ∀ c, s.run c ≠ .inr c → ∃ rest, s.stack (.inr c) = .scan :: rest

namespace Inv

theorem run_ne (h : Inv s) (hne : d ≠ c) : s.run d ≠ s.run c := by
  intro heq
  cases hc : s.run c with
  | inl p => exact hne (h.run_inj d c p (heq.trans hc) hc)
  | inr k => exact hne ((h.run_sched d k (heq.trans hc)).symm.trans (h.run_sched c k hc))

end Inv

/-- What a step of the processor `c` leaves alone. -/
structure Elsewhere (s s' : State κ n) (c : κ) : Prop where
  run : ∀ d, d ≠ c → s'.run d = s.run d
  stack : ∀ x, x ≠ s.run c → x ≠ s'.run c → s'.stack x = s.stack x
  owner : ∀ l d, d ≠ c → s.lock l = some d → s'.lock l = some d
  proc : s'.proc = s.proc ∨ s.lock .ptable = some c
  entry : ∀ d p, d ≠ c → s.run d = .inl p → s'.proc p = s.proc p

theorem OnTop.elsewhere {f : Frame n} (h : OnTop s d f) (he : Elsewhere s s' c) (hne : d ≠ c) :
    OnTop s' d f where
  present := h.present
  locks hf := he.owner _ d hne (h.locks hf)
  holds lk hf := he.owner lk d hne (h.holds lk hf)
  entry p hp := by
    rw [he.run d hne] at hp
    rw [he.entry d p hne hp]
    exact h.entry p hp
  swept := by
    rcases he.proc with hproc | hlock
    · rw [hproc]
      exact h.swept
    · -- a sweep holds the lock, so the entries are not written meanwhile
      have hfree : f.locks ≠ true := fun hf ↦ by
        have := (h.locks hf).symm.trans hlock
        exact hne (Option.some.inj this)
      cases f <;> trivial

/-- A step of the processor `c`, which goes on with the same context. -/
theorem Inv.of_local (h : Inv s) (he : Elsewhere s s' c) (hrun : s'.run = s.run)
    (hlocked : Locked s')
    (hbelow : ∀ f rest, s'.stack (s.run c) = f :: rest → ∀ g ∈ rest, g.open = true)
    (hbottom : Bottom (s'.stack (s.run c)))
    (htop : ∀ f rest, s'.stack (s.run c) = f :: rest → OnTop s' c f)
    (hoff : ∀ p, (∀ c, s.run c ≠ .inl p) → ∀ f : Frame n, f.offCpu (s.proc p) →
      f.offCpu (s'.proc p)) : Inv s' where
  locked := hlocked
  run_sched := hrun ▸ h.run_sched
  run_inj := hrun ▸ h.run_inj
  below x g l hx := by
    obtain rfl | hne := eq_or_ne x (s.run c)
    · exact hbelow g l hx
    · rw [he.stack x hne (by rwa [hrun])] at hx
      exact h.below x g l hx
  bottom x := by
    obtain rfl | hne := eq_or_ne x (s.run c)
    · exact hbottom
    · rw [he.stack x hne (by rwa [hrun])]
      exact h.bottom x
  cpu d g l hd := by
    rw [hrun] at hd
    obtain rfl | hne := eq_or_ne d c
    · exact htop g l hd
    · rw [he.stack _ (h.run_ne hne) (by rw [hrun]; exact h.run_ne hne)] at hd
      exact (h.cpu d g l hd).elsewhere he hne
  off p hp := by
    rw [hrun] at hp
    obtain ⟨g, l, hg, ho⟩ := h.off p hp
    refine ⟨g, l, ?_, hoff p hp g ho⟩
    rw [he.stack _ (hp c).symm (by rw [hrun]; exact (hp c).symm)]
    exact hg
  sched d hd := by
    rw [hrun] at hd
    obtain ⟨l, hl⟩ := h.sched d hd
    refine ⟨l, ?_⟩
    have hne : (.inr d : Context κ n) ≠ s.run c := by
      intro heq
      have hdc := h.run_sched c d heq.symm
      subst hdc
      exact hd heq.symm
    rw [he.stack _ hne (by rwa [hrun])]
    exact hl

/-! ## Locks -/

section Locks

variable [DecidableEq κ] {l : Lock}

theorem acquire_eq_some (h : s.acquire c l = some s') :
    s.lock l = none ∧ s' = { s with
      lock := update s.lock l (some c), held := update s.held c (l :: s.held c) } := by
  obtain ⟨hfree, heq⟩ := Option.ite_none_right_eq_some.mp h
  exact ⟨hfree, (Option.some.inj heq).symm⟩

theorem release_eq_some (h : s.release c l = some s') :
    s.lock l = some c ∧ s' = { s with
      lock := update s.lock l none, held := update s.held c ((s.held c).erase l) } := by
  obtain ⟨hheld, heq⟩ := Option.ite_none_right_eq_some.mp h
  exact ⟨hheld, (Option.some.inj heq).symm⟩

theorem Locked.acquire (h : Locked s) (hs : s.acquire c l = some s') : Locked s' := by
  obtain ⟨hfree, rfl⟩ := acquire_eq_some hs
  have hnot : ∀ d, l ∉ s.held d := fun d hd ↦ by
    rw [← h.iff, hfree] at hd
    cases hd
  refine ⟨fun m d ↦ ?_, fun d ↦ ?_⟩
  · dsimp only
    obtain rfl | hm := eq_or_ne m l
    · rw [update_self]
      obtain rfl | hd := eq_or_ne d c
      · rw [update_self]
        simp
      · rw [update_of_ne hd]
        exact iff_of_false (fun heq ↦ hd (Option.some.inj heq).symm) (hnot d)
    · rw [update_of_ne hm, h.iff]
      obtain rfl | hd := eq_or_ne d c
      · rw [update_self, List.mem_cons]
        exact (or_iff_right hm).symm
      · rw [update_of_ne hd]
  · dsimp only
    obtain rfl | hd := eq_or_ne d c
    · rw [update_self]
      exact List.nodup_cons.mpr ⟨hnot d, h.nodup d⟩
    · rw [update_of_ne hd]
      exact h.nodup d

theorem Locked.release (h : Locked s) (hs : s.release c l = some s') : Locked s' := by
  obtain ⟨hheld, rfl⟩ := release_eq_some hs
  refine ⟨fun m d ↦ ?_, fun d ↦ ?_⟩
  · dsimp only
    obtain rfl | hm := eq_or_ne m l
    · rw [update_self]
      refine iff_of_false (by simp) ?_
      obtain rfl | hd := eq_or_ne d c
      · rw [update_self]
        exact fun hmem ↦ (h.nodup d).not_mem_erase hmem
      · rw [update_of_ne hd, ← h.iff, hheld]
        exact fun heq ↦ hd (Option.some.inj heq).symm
    · rw [update_of_ne hm, h.iff]
      obtain rfl | hd := eq_or_ne d c
      · rw [update_self, List.mem_erase_of_ne hm]
      · rw [update_of_ne hd]
  · dsimp only
    obtain rfl | hd := eq_or_ne d c
    · rw [update_self]
      exact (h.nodup d).erase l
    · rw [update_of_ne hd]
      exact h.nodup d

end Locks

/-! ## Steps within a context -/

section Local

variable [DecidableEq κ] {f g : Frame n} {rest : List (Frame n)}

/-- How the state of a step looks apart from the stack: the entries, and the locks of `c`. -/
structure Change (s s' : State κ n) (c : κ) : Prop where
  run : s'.run = s.run
  stack : s'.stack = s.stack
  locked : Locked s'
  owner : ∀ l d, d ≠ c → s.lock l = some d → s'.lock l = some d
  proc : s'.proc = s.proc ∨ s.lock .ptable = some c
  entry : ∀ d p, d ≠ c → s.run d = .inl p → s'.proc p = s.proc p
  off : ∀ p, (∀ c, s.run c ≠ .inl p) → ∀ f : Frame n, f.offCpu (s.proc p) → f.offCpu (s'.proc p)

namespace Change

omit [DecidableEq κ] in
theorem refl (h : Inv s) : Change s s c :=
  ⟨rfl, rfl, h.locked, fun _ _ _ h ↦ h, Or.inl rfl, fun _ _ _ _ ↦ rfl, fun _ _ _ h ↦ h⟩

theorem acquire {l : Lock} (h : Inv s) (hs : s.acquire c l = some s') : Change s s' c := by
  have hlocked := h.locked.acquire hs
  obtain ⟨hfree, rfl⟩ := acquire_eq_some hs
  refine ⟨rfl, rfl, hlocked, fun m d _ hm ↦ ?_, Or.inl rfl, fun _ _ _ _ ↦ rfl, fun _ _ _ h ↦ h⟩
  have hne : m ≠ l := by
    rintro rfl
    rw [hfree] at hm
    cases hm
  exact (update_of_ne hne ..).trans hm

theorem release {l : Lock} (h : Inv s) (hs : s.release c l = some s') : Change s s' c := by
  have hlocked := h.locked.release hs
  obtain ⟨hheld, rfl⟩ := release_eq_some hs
  refine ⟨rfl, rfl, hlocked, fun m d hd hm ↦ ?_, Or.inl rfl, fun _ _ _ _ ↦ rfl, fun _ _ _ h ↦ h⟩
  have hne : m ≠ l := by
    rintro rfl
    rw [hheld] at hm
    exact hd (Option.some.inj hm).symm
  exact (update_of_ne hne ..).trans hm

omit [DecidableEq κ] in
/-- The process of the processor writes its own entry, under the lock. -/
theorem own {e : Entry} (h : Inv s) (hp : s.run c = .inl p) (hlock : s.lock .ptable = some c) :
    Change s (s.setProc p e) c := by
  refine ⟨rfl, rfl, ⟨h.locked.iff, h.locked.nodup⟩, fun _ _ _ h ↦ h, Or.inr hlock,
    fun d q hd hq ↦ ?_, fun q hq f hf ↦ ?_⟩
  · have hne : q ≠ p := by
      rintro rfl
      exact hd (h.run_inj d c q hq hp)
    exact State.setProc_of_ne _ _ hne
  · have hne : q ≠ p := by
      rintro rfl
      exact hq c hp
    rw [State.setProc_of_ne _ _ hne]
    exact hf

omit [DecidableEq κ] in
/-- A process that is away becomes `RUNNABLE`, under the lock. -/
theorem wake (h : Inv s) (hlock : s.lock .ptable = some c)
    (hst : (s.proc p).state = .sleeping ∨ (s.proc p).state = .embryo)
    (hcpu : ∀ d, s.run d ≠ .inl p) : Change s (s.setState p .runnable) c := by
  refine ⟨rfl, rfl, ⟨h.locked.iff, h.locked.nodup⟩, fun _ _ _ h ↦ h, Or.inr hlock,
    fun d q hd hq ↦ ?_, fun q hq f hf ↦ ?_⟩
  · have hne : q ≠ p := by
      rintro rfl
      exact hcpu d hq
    exact State.setProc_of_ne _ _ hne
  · obtain rfl | hne := eq_or_ne q p
    · rw [State.setState, State.setProc_self]
      cases f <;> simp only [Frame.offCpu] at hf ⊢ <;> rcases hst with hst | hst <;> simp_all
    · rw [State.setState, State.setProc_of_ne _ _ hne]
      exact hf

end Change

/-- The step of a processor: a change, and a new stack for the context. -/
theorem Inv.setStack {l : List (Frame n)} (h : Inv s) (hch : Change s s' c)
    (hbelow : ∀ g ∈ l.tail, g.open = true) (hbottom : Bottom l)
    (htop : ∀ f ∈ l.head?, OnTop s' c f) : Inv (s'.setStack (s.run c) l) := by
  have hstack : (s'.setStack (s.run c) l).stack (s.run c) = l := update_self ..
  refine h.of_local (c := c) ⟨fun d _ ↦ congrFun hch.run d, fun x hx _ ↦ ?_, hch.owner, hch.proc,
    hch.entry⟩ hch.run ⟨hch.locked.iff, hch.locked.nodup⟩ (fun f rest hf ↦ ?_)
    (hstack.symm ▸ hbottom) (fun f rest hf ↦ ?_) hch.off
  · exact (update_of_ne hx ..).trans (congrFun hch.stack x)
  · rw [hstack] at hf
    exact fun g hg ↦ hbelow g (by rw [hf]; exact hg)
  · rw [hstack] at hf
    obtain ⟨h1, h2, h3, h4, h5⟩ := htop f (by rw [hf]; rfl)
    exact ⟨h1, h2, h3, h4, h5⟩

theorem acquire_self {l : Lock} (hs : s.acquire c l = some s') : s'.lock l = some c := by
  obtain ⟨-, rfl⟩ := acquire_eq_some hs
  exact update_self ..

theorem acquire_same {l : Lock} (hs : s.acquire c l = some s') :
    s'.run = s.run ∧ s'.proc = s.proc := by
  obtain ⟨-, rfl⟩ := acquire_eq_some hs
  exact ⟨rfl, rfl⟩

theorem release_same {l : Lock} (hs : s.release c l = some s') :
    s'.run = s.run ∧ s'.proc = s.proc := by
  obtain ⟨-, rfl⟩ := release_eq_some hs
  exact ⟨rfl, rfl⟩

theorem release_of_ne {l m : Lock} (hs : s.release c l = some s') (hm : m ≠ l) :
    s'.lock m = s.lock m := by
  obtain ⟨-, rfl⟩ := release_eq_some hs
  exact update_of_ne hm ..

/-- The frames that rely on nothing but a state of `RUNNING`, and perhaps on `ptable.lock`. -/
def Frame.plain : Frame n → Bool
  | .sleepEnter .. | .sleepState .. | .sleepSched .. | .asleep .. | .sleepReturn _ | .wakeupLoop ..
  | .wakeupLeave _ | .yieldSched | .yielded | .exitSched | .exited => false
  | _ => true

omit [DecidableEq κ] in
theorem OnTop.of_plain (hf : f.plain = true) (hlock : f.locks = true → s.lock .ptable = some c)
    (hrun : ∀ q, s.run c = .inl q → (s.proc q).state = .running) : OnTop s c f := by
  have hholds : f.holds = none := by
    cases f <;> first
      | rfl
      | cases hf
  have hno : ∀ lk ∈ f.holds, s.lock lk = some c := by
    rw [hholds]
    rintro lk ⟨⟩
  cases f <;> first
    | exact ⟨rfl, hlock, hno, hrun, trivial⟩
    | cases hf

omit [DecidableEq κ] in
theorem OnTop.running (h : OnTop s c f) (hf : f.plain = true) (q : Fin n) (hq : s.run c = .inl q) :
    (s.proc q).state = .running := by
  have hentry := h.entry q hq
  cases f <;> first
    | exact hentry
    | cases hf

theorem Inv.acquire {l : Lock} (h : Inv s) (hst : s.stack (s.run c) = g :: rest)
    (hrunning : ∀ q, s.run c = .inl q → (s.proc q).state = .running)
    (hs : s.acquire c l = some s') (hb : g.base = false ∨ f.base = true) (hf : f.plain = true)
    (hl : f.locks = true → l = .ptable) : Inv (s'.setStack (s.run c) (f :: rest)) := by
  obtain ⟨hrun, hproc⟩ := acquire_same hs
  refine h.setStack (.acquire h hs) (h.below _ _ _ hst) ((hst ▸ h.bottom _).replace hb) ?_
  rintro _ ⟨⟩
  refine .of_plain hf (fun hlf ↦ ?_) fun q hq ↦ ?_
  · rw [← hl hlf]
    exact acquire_self hs
  · rw [hrun] at hq
    rw [hproc]
    exact hrunning q hq

/-- The processor releases `ptable.lock`, or another one, and goes on with a plain frame. -/
theorem Inv.release {l : Lock} (h : Inv s) (hst : s.stack (s.run c) = g :: rest)
    (hrunning : ∀ q, s.run c = .inl q → (s.proc q).state = .running)
    (hs : s.release c l = some s') (hb : g.base = false ∨ f.base = true) (hf : f.plain = true)
    (hl : f.locks = true → s.lock .ptable = some c ∧ l ≠ .ptable) :
    Inv (s'.setStack (s.run c) (f :: rest)) := by
  obtain ⟨hrun, hproc⟩ := release_same hs
  refine h.setStack (.release h hs) (h.below _ _ _ hst) ((hst ▸ h.bottom _).replace hb) ?_
  rintro _ ⟨⟩
  refine .of_plain hf (fun hlf ↦ ?_) fun q hq ↦ ?_
  · obtain ⟨hlock, hne⟩ := hl hlf
    rw [release_of_ne hs hne.symm]
    exact hlock
  · rw [hrun] at hq
    rw [hproc]
    exact hrunning q hq

theorem Inv.own {e : Entry} (h : Inv s) (hst : s.stack (s.run c) = g :: rest)
    (hp : s.run c = .inl p) (hg : g.locks = true) (hb : g.base = false) (hf : f.away = false)
    (hholds : ∀ lk ∈ f.holds, lk = .ptable) (he : f.onCpu e)
    (hswept : f.swept (s.setProc p e).proc) :
    Inv ((s.setProc p e).setStack (s.run c) (f :: rest)) := by
  have hlock := (h.cpu c g rest hst).locks hg
  refine h.setStack (.own h hp hlock) (h.below _ _ _ hst)
    ((hst ▸ h.bottom _).replace (Or.inl hb)) ?_
  rintro _ ⟨⟩
  refine ⟨hf, fun _ ↦ hlock, fun lk hlk ↦ ?_, fun q hq ↦ ?_, hswept⟩
  · rw [hholds lk hlk]
    exact hlock
  · obtain rfl : p = q := Sum.inl.inj (hp.symm.trans hq)
    rw [State.setProc_self]
    exact he

omit [DecidableEq κ] in
theorem Frame.plain_of_open (hf : f.open = true) : f.plain = true ∧ f.locks = false := by
  cases f <;> first
    | exact ⟨rfl, rfl⟩
    | cases hf

omit [DecidableEq κ] in
theorem OnTop.of_open (hf : f.open = true)
    (hrun : ∀ q, s.run c = .inl q → (s.proc q).state = .running) : OnTop s c f := by
  obtain ⟨hplain, hfree⟩ := Frame.plain_of_open hf
  refine .of_plain hplain (fun hl ↦ ?_) hrun
  rw [hfree] at hl
  cases hl

theorem Inv.pop (h : Inv s) (hst : s.stack (s.run c) = g :: rest) (hb : Bottom rest)
    (hch : Change s s' c) (hproc : s'.proc = s.proc)
    (hrunning : ∀ q, s.run c = .inl q → (s.proc q).state = .running) :
    Inv (s'.setStack (s.run c) rest) := by
  have hopen := h.below _ _ _ hst
  refine h.setStack hch (fun f hf ↦ hopen f (List.mem_of_mem_tail hf)) hb fun f hf ↦ ?_
  refine .of_open (hopen f (List.mem_of_head? hf)) fun q hq ↦ ?_
  rw [hch.run] at hq
  rw [hproc]
  exact hrunning q hq

theorem Inv.push (h : Inv s) (hst : s.stack (s.run c) = g :: rest) (hg : g.open = true)
    (hf : f.plain = true) (hl : f.locks = true → s.lock .ptable = some c) :
    Inv (s.setStack (s.run c) (f :: g :: rest)) := by
  have htop := h.cpu c g rest hst
  refine h.setStack (.refl h) (fun x hx ↦ ?_) (hst ▸ h.bottom _).push ?_
  · rcases List.mem_cons.mp hx with rfl | hx
    · exact hg
    · exact h.below _ _ _ hst x hx
  · rintro _ ⟨⟩
    exact .of_plain hf hl (htop.running (Frame.plain_of_open hg).1)

end Local

end SistemasOperacionais.Xv6.Sleep
