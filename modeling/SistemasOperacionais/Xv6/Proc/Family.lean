import SistemasOperacionais.Xv6.Proc.Model

/-!
# Parents and children

Every process that has started, init apart, has a parent that is alive, and nobody sleeps in `wait`
over a child that is a zombie. Both are kept by the sections under `ptable.lock`: `exit` wakes the
parent before it turns the process into a zombie, and hands the children over to init, which it
wakes when one of them is a zombie already.
-/

namespace SistemasOperacionais.Xv6.Proc

open Foundations Function

/-- What holds between the steps. -/
structure Inv (s : State) : Prop where
  init_alive : (s.proc initproc).state.alive = true
  init_pc : s.pc initproc ≠ .exiting
  init_parent : (s.proc initproc).parent = none
  own_parent : ∀ q, (s.proc q).parent ≠ some q
  /-- Whoever is named as a parent is alive, also for slots that hold no process. -/
  parent_alive : ∀ q r, (s.proc q).parent = some r → (s.proc r).state.alive = true
  has_parent : ∀ q, q ≠ initproc → (s.proc q).state.started = true → (s.proc q).parent ≠ none
  waiting : ∀ p, s.pc p = .waiting → (s.proc p).state = .runnable ∨
    ((s.proc p).state = .sleeping ∧ (s.proc p).chan = some (.proc p) ∧
      ∀ q, (s.proc q).parent = some p → (s.proc q).state ≠ .zombie)
  child : ∀ p q, (s.pc p).child = some q →
    (s.proc p).state.alive = true ∧ (s.proc q).state = .embryo
  child_inj : ∀ p p' q, (s.pc p).child = some q → (s.pc p').child = some q → p = p'
  ready : ∀ p q, s.pc p = .forkReady q → (s.proc q).parent = some p
  /-- A slot without a live process is at rest. -/
  idle : ∀ p, (s.proc p).state.alive = false → s.pc p = .user

/-- The two states differ in who of the living runs, and for a process inside `wait` only in that it
has been woken up. -/
structure Alike (s s' : State) : Prop where
  pc_eq : s'.pc = s.pc
  parent_eq : ∀ q, (s'.proc q).parent = (s.proc q).parent
  state : ∀ q, (s'.proc q).state = (s.proc q).state ∨
    ((s.proc q).state.alive = true ∧ (s'.proc q).state.alive = true)
  waiting : ∀ p, s.pc p = .waiting → (s'.proc p).state = .runnable ∨
    ((s'.proc p).state = (s.proc p).state ∧ (s'.proc p).chan = (s.proc p).chan)

section Alike

variable {s s' s'' : State} {p : Slot}

theorem Procstate.eq_of_not_alive {st st' : Procstate}
    (h : st' = st ∨ (st.alive = true ∧ st'.alive = true)) (hst : st.alive = false) : st' = st := by
  rcases h with h | ⟨h, -⟩
  · exact h
  · rw [hst] at h
    cases h

namespace Alike

theorem alive_iff (h : Alike s s') (q : Slot) :
    (s'.proc q).state.alive = (s.proc q).state.alive := by
  rcases h.state q with heq | ⟨ha, ha'⟩
  · rw [heq]
  · rw [ha, ha']

theorem zombie_iff (h : Alike s s') (q : Slot) :
    (s'.proc q).state = .zombie ↔ (s.proc q).state = .zombie := by
  rcases h.state q with heq | ⟨ha, ha'⟩
  · rw [heq]
  · constructor
    · intro hz
      rw [hz] at ha'
      cases ha'
    · intro hz
      rw [hz] at ha
      cases ha

theorem embryo (h : Alike s s') {q : Slot} (hq : (s.proc q).state = .embryo) :
    (s'.proc q).state = .embryo := by
  rw [Procstate.eq_of_not_alive (h.state q) (by rw [hq]; rfl), hq]

theorem refl : Alike s s := ⟨rfl, fun _ ↦ rfl, fun _ ↦ Or.inl rfl, fun _ _ ↦ Or.inr ⟨rfl, rfl⟩⟩

end Alike

theorem Inv.of_alike (h : Inv s) (ha : Alike s s') : Inv s' where
  init_alive := by
    rw [ha.alive_iff]
    exact h.init_alive
  init_pc := by
    rw [ha.pc_eq]
    exact h.init_pc
  init_parent := by
    rw [ha.parent_eq]
    exact h.init_parent
  own_parent q := by
    rw [ha.parent_eq]
    exact h.own_parent q
  parent_alive q r hq := by
    rw [ha.parent_eq] at hq
    rw [ha.alive_iff]
    exact h.parent_alive q r hq
  has_parent q hq hst := by
    rw [ha.parent_eq]
    refine h.has_parent q hq ?_
    rcases ha.state q with heq | ⟨halive, -⟩
    · rwa [heq] at hst
    · exact Procstate.started_of_alive halive
  waiting p hp := by
    rw [ha.pc_eq] at hp
    rcases ha.waiting p hp with hrun | ⟨hst, hchan⟩
    · exact Or.inl hrun
    · rw [hst, hchan]
      rcases h.waiting p hp with hrun | ⟨hsl, hch, hkids⟩
      · exact Or.inl hrun
      · refine Or.inr ⟨hsl, hch, fun q hq hz ↦ ?_⟩
        rw [ha.parent_eq] at hq
        exact hkids q hq ((ha.zombie_iff q).mp hz)
  child p q hp := by
    rw [ha.pc_eq] at hp
    obtain ⟨hal, hem⟩ := h.child p q hp
    exact ⟨(ha.alive_iff p).trans hal, ha.embryo hem⟩
  child_inj := by
    rw [ha.pc_eq]
    exact h.child_inj
  ready p q hp := by
    rw [ha.pc_eq] at hp
    rw [ha.parent_eq]
    exact h.ready p q hp
  idle p hp := by
    rw [ha.pc_eq]
    exact h.idle p ((ha.alive_iff p).symm.trans hp)

theorem Inv.congr (h : Inv s) (hproc : s'.proc = s.proc) (hpc : s'.pc = s.pc) : Inv s' :=
  h.of_alike ⟨hpc, fun _ ↦ by rw [hproc], fun _ ↦ Or.inl (by rw [hproc]),
    fun _ _ ↦ Or.inr (by rw [hproc]; exact ⟨rfl, rfl⟩)⟩

theorem Alike.setProc {e : Entry} (hpar : e.parent = (s.proc p).parent)
    (hst : e.state = (s.proc p).state ∨ ((s.proc p).state.alive = true ∧ e.state.alive = true))
    (hwait : s.pc p = .waiting → e.state = .runnable ∨
      (e.state = (s.proc p).state ∧ e.chan = (s.proc p).chan)) : Alike s (s.setProc p e) where
  pc_eq := rfl
  parent_eq q := by
    obtain rfl | hne := eq_or_ne q p
    · rw [State.setProc_self, hpar]
    · rw [State.setProc_of_ne _ _ hne]
  state q := by
    obtain rfl | hne := eq_or_ne q p
    · rwa [State.setProc_self]
    · rw [State.setProc_of_ne _ _ hne]
      exact Or.inl rfl
  waiting q hq := by
    obtain rfl | hne := eq_or_ne q p
    · rw [State.setProc_self]
      exact hwait hq
    · rw [State.setProc_of_ne _ _ hne]
      exact Or.inr ⟨rfl, rfl⟩

theorem Alike.wakeup1 (chan : Option Chan) : Alike s (s.wakeup1 chan) where
  pc_eq := rfl
  parent_eq q := by
    rw [State.wakeup1]
    dsimp only
    split <;> rfl
  state q := by
    rw [State.wakeup1]
    dsimp only
    split
    · rename_i h
      exact Or.inr ⟨by rw [h.1]; rfl, rfl⟩
    · exact Or.inl rfl
  waiting q _ := by
    rw [State.wakeup1]
    dsimp only
    split
    · exact Or.inl rfl
    · exact Or.inr ⟨rfl, rfl⟩

theorem Alike.kill (pid : BitVec 32) : Alike s (s.kill pid).1 := by
  rw [State.kill]
  split
  · exact .refl
  · refine .setProc rfl ?_ fun _ ↦ ?_
    · dsimp only
      split
      · rename_i h
        exact Or.inr ⟨by rw [h]; rfl, rfl⟩
      · exact Or.inl rfl
    · dsimp only
      split
      · exact Or.inl rfl
      · exact Or.inr ⟨rfl, rfl⟩

end Alike

section Moves

variable {s s' : State} {p q : Slot}

theorem Inv.ne_init (h : Inv s) (hq : (s.proc q).state.alive = false) : q ≠ initproc := by
  rintro rfl
  rw [h.init_alive] at hq
  cases hq

theorem ne_of_alive (hp : (s.proc p).state.alive = true) (hq : (s.proc q).state.alive = false) :
    q ≠ p := by
  rintro rfl
  rw [hp] at hq
  cases hq

theorem Inv.goto {pc : Pc} (h : Inv s) (hp : (s.proc p).state.alive = true)
    (hexit : pc = .exiting → p ≠ initproc)
    (hwait : pc = .waiting → (s.proc p).state = .sleeping ∧ (s.proc p).chan = some (.proc p) ∧
      ∀ q, (s.proc q).parent = some p → (s.proc q).state ≠ .zombie)
    (hchild : ∀ q, pc.child = some q →
      (s.proc q).state = .embryo ∧ ∀ r, (s.pc r).child = some q → r = p)
    (hready : ∀ q, pc = .forkReady q → (s.proc q).parent = some p) : Inv (s.goto p pc) where
  init_alive := h.init_alive
  init_pc := by
    obtain heq | hne := eq_or_ne initproc p
    · rw [heq, State.goto_self]
      exact fun hpc ↦ hexit hpc heq.symm
    · rw [State.goto_of_ne _ _ hne]
      exact h.init_pc
  init_parent := h.init_parent
  own_parent := h.own_parent
  parent_alive := h.parent_alive
  has_parent := h.has_parent
  waiting r hr := by
    obtain rfl | hne := eq_or_ne r p
    · rw [State.goto_self] at hr
      exact Or.inr (hwait hr)
    · rw [State.goto_of_ne _ _ hne] at hr
      exact h.waiting r hr
  child r q hr := by
    obtain rfl | hne := eq_or_ne r p
    · rw [State.goto_self] at hr
      exact ⟨hp, (hchild q hr).1⟩
    · rw [State.goto_of_ne _ _ hne] at hr
      exact h.child r q hr
  child_inj r r' q hr hr' := by
    obtain rfl | hne := eq_or_ne r p
    · obtain rfl | hne' := eq_or_ne r' r
      · rfl
      · rw [State.goto_self] at hr
        rw [State.goto_of_ne _ _ hne'] at hr'
        exact ((hchild q hr).2 r' hr').symm
    · rw [State.goto_of_ne _ _ hne] at hr
      obtain rfl | hne' := eq_or_ne r' p
      · rw [State.goto_self] at hr'
        exact (hchild q hr').2 r hr
      · rw [State.goto_of_ne _ _ hne'] at hr'
        exact h.child_inj r r' q hr hr'
  ready r q hr := by
    obtain rfl | hne := eq_or_ne r p
    · rw [State.goto_self] at hr
      exact hready q hr
    · rw [State.goto_of_ne _ _ hne] at hr
      exact h.ready r q hr
  idle r hr := by
    rw [State.goto_of_ne _ _ (ne_of_alive hp hr)]
    exact h.idle r hr

theorem Inv.goto_user (h : Inv s) (hp : (s.proc p).state.alive = true) : Inv (s.goto p .user) :=
  h.goto hp (by simp) (by simp) (by simp [Pc.child]) (by simp)

/-- A slot without a live process is emptied, or taken by `allocproc`. -/
theorem Inv.setDead {e : Entry} (h : Inv s) (hq : (s.proc q).state.alive = false)
    (he : e.state = .unused ∨ e.state = .embryo)
    (hpar : e.parent = (s.proc q).parent ∨ e.parent = none)
    (hchild : ∀ p, (s.pc p).child ≠ some q) : Inv (s.setProc q e) := by
  have hdead : e.state.alive = false := by
    rcases he with he | he <;> rw [he] <;> rfl
  -- the parents named in the new table were named in the old one
  have hsub : ∀ x r, ((s.setProc q e).proc x).parent = some r → (s.proc x).parent = some r := by
    intro x r hx
    obtain rfl | hne := eq_or_ne x q
    · rw [State.setProc_self] at hx
      rcases hpar with hpar | hpar <;> rw [hpar] at hx
      · exact hx
      · cases hx
    · rwa [State.setProc_of_ne _ _ hne] at hx
  have hnz : ∀ x, ((s.setProc q e).proc x).state = .zombie → (s.proc x).state = .zombie := by
    intro x hx
    obtain rfl | hne := eq_or_ne x q
    · rw [State.setProc_self] at hx
      rcases he with he | he <;> rw [he] at hx <;> cases hx
    · rwa [State.setProc_of_ne _ _ hne] at hx
  have halive : ∀ x, (s.proc x).state.alive = true → (s.setProc q e).proc x = s.proc x :=
    fun x hx ↦ State.setProc_of_ne _ _ (ne_of_alive hx hq).symm
  refine ⟨?_, h.init_pc, ?_, ?_, ?_, ?_, ?_, ?_, h.child_inj, ?_, ?_⟩
  · rw [halive _ h.init_alive]
    exact h.init_alive
  · rw [halive _ h.init_alive]
    exact h.init_parent
  · exact fun x hx ↦ h.own_parent x (hsub x x hx)
  · intro x r hx
    have hr := h.parent_alive x r (hsub x r hx)
    rwa [halive r hr]
  · intro x hx hst
    obtain rfl | hne := eq_or_ne x q
    · rw [State.setProc_self] at hst
      rcases he with he | he <;> rw [he] at hst <;> cases hst
    · rw [State.setProc_of_ne _ _ hne] at hst ⊢
      exact h.has_parent x hx hst
  · intro r hr
    have hne : r ≠ q := by
      rintro rfl
      have hidle : s.pc r = .waiting := hr
      rw [h.idle r hq] at hidle
      cases hidle
    rw [State.setProc_of_ne _ _ hne]
    rcases h.waiting r hr with hrun | ⟨hsl, hch, hkids⟩
    · exact Or.inl hrun
    · exact Or.inr ⟨hsl, hch, fun x hx hz ↦ hkids x (hsub x r hx) (hnz x hz)⟩
  · intro r x hr
    obtain ⟨hal, hem⟩ := h.child r x hr
    have hne : x ≠ q := fun heq ↦ hchild r (heq ▸ hr)
    rw [halive r hal, State.setProc_of_ne _ _ hne]
    exact ⟨hal, hem⟩
  · intro r x hr
    have hne : x ≠ q := by
      rintro rfl
      have hpc : s.pc r = .forkReady x := hr
      exact hchild r (by rw [hpc]; rfl)
    rw [State.setProc_of_ne _ _ hne]
    exact h.ready r x hr
  · intro r hr
    obtain rfl | hne := eq_or_ne r q
    · exact h.idle r hq
    · rw [State.setProc_of_ne _ _ hne] at hr
      exact h.idle r hr

/-- The parent of a slot is set to a process that is alive and not asleep over it. -/
theorem Inv.setParent {r : Slot} (h : Inv s) (hr : (s.proc r).state.alive = true) (hne : r ≠ q)
    (hq : q ≠ initproc) (hready : ∀ x, s.pc x = .forkReady q → x = r)
    (hwait : s.pc r = .waiting → (s.proc r).state = .runnable ∨ (s.proc q).state ≠ .zombie) :
    Inv (s.setProc q { s.proc q with parent := some r }) := by
  have hstate : ∀ x, ((s.setProc q { s.proc q with parent := some r }).proc x).state
      = (s.proc x).state := by
    intro x
    obtain rfl | hx := eq_or_ne x q
    · rw [State.setProc_self]
    · rw [State.setProc_of_ne _ _ hx]
  have hchan : ∀ x, ((s.setProc q { s.proc q with parent := some r }).proc x).chan
      = (s.proc x).chan := by
    intro x
    obtain rfl | hx := eq_or_ne x q
    · rw [State.setProc_self]
    · rw [State.setProc_of_ne _ _ hx]
  refine ⟨?_, h.init_pc, ?_, ?_, ?_, ?_, ?_, ?_, h.child_inj, ?_, ?_⟩
  · rw [hstate]
    exact h.init_alive
  · rw [State.setProc_of_ne _ _ hq.symm]
    exact h.init_parent
  · intro x
    obtain rfl | hx := eq_or_ne x q
    · rw [State.setProc_self]
      exact fun heq ↦ hne (Option.some.inj heq)
    · rw [State.setProc_of_ne _ _ hx]
      exact h.own_parent x
  · intro x y hy
    rw [hstate]
    obtain rfl | hx := eq_or_ne x q
    · rw [State.setProc_self] at hy
      rwa [← Option.some.inj hy]
    · rw [State.setProc_of_ne _ _ hx] at hy
      exact h.parent_alive x y hy
  · intro x hx hst
    obtain rfl | hxq := eq_or_ne x q
    · rw [State.setProc_self]
      simp
    · rw [State.setProc_of_ne _ _ hxq] at hst ⊢
      exact h.has_parent x hx hst
  · intro y hy
    rw [hstate, hchan]
    rcases h.waiting y hy with hrun | ⟨hsl, hch, hkids⟩
    · exact Or.inl hrun
    · refine Or.inr ⟨hsl, hch, fun x hx ↦ ?_⟩
      rw [hstate]
      obtain rfl | hxq := eq_or_ne x q
      · rw [State.setProc_self] at hx
        obtain rfl := Option.some.inj hx
        rcases hwait hy with hrun | hz
        · rw [hsl] at hrun
          cases hrun
        · exact hz
      · rw [State.setProc_of_ne _ _ hxq] at hx
        exact hkids x hx
  · intro y x hy
    rw [hstate, hstate]
    exact h.child y x hy
  · intro y x hy
    obtain rfl | hxq := eq_or_ne x q
    · rw [State.setProc_self, hready y hy]
    · rw [State.setProc_of_ne _ _ hxq]
      exact h.ready y x hy
  · intro y hy
    rw [hstate] at hy
    exact h.idle y hy

/-- `np->state = RUNNABLE`, once nobody is forking into the slot any more. -/
theorem Inv.start (h : Inv s) (hq : (s.proc q).state = .embryo)
    (hchild : ∀ p, (s.pc p).child ≠ some q) (hpar : (s.proc q).parent ≠ none) :
    Inv (s.setState q .runnable) := by
  have hdead : (s.proc q).state.alive = false := by rw [hq]; rfl
  have hparent : ∀ x, ((s.setState q .runnable).proc x).parent = (s.proc x).parent := by
    intro x
    obtain rfl | hx := eq_or_ne x q
    · rw [State.setState, State.setProc_self]
    · rw [State.setState, State.setProc_of_ne _ _ hx]
  have hother : ∀ x, x ≠ q → (s.setState q .runnable).proc x = s.proc x :=
    fun x hx ↦ State.setProc_of_ne _ _ hx
  have hself : ((s.setState q .runnable).proc q).state = .runnable := by
    rw [State.setState, State.setProc_self]
  have halive : ∀ x, (s.proc x).state.alive = true →
      ((s.setState q .runnable).proc x).state.alive = true := by
    intro x hx
    rwa [hother x (ne_of_alive hx hdead).symm]
  refine ⟨halive _ h.init_alive, h.init_pc, ?_, ?_, ?_, ?_, ?_, ?_, h.child_inj, ?_, ?_⟩
  · rw [hparent]
    exact h.init_parent
  · intro x
    rw [hparent]
    exact h.own_parent x
  · intro x y hy
    rw [hparent] at hy
    exact halive y (h.parent_alive x y hy)
  · intro x hx hst
    rw [hparent]
    obtain rfl | hxq := eq_or_ne x q
    · exact hpar
    · rw [hother x hxq] at hst
      exact h.has_parent x hx hst
  · intro y hy
    have hne : y ≠ q := by
      rintro rfl
      have hidle : s.pc y = .waiting := hy
      rw [h.idle y hdead] at hidle
      cases hidle
    rw [hother y hne]
    rcases h.waiting y hy with hrun | ⟨hsl, hch, hkids⟩
    · exact Or.inl hrun
    · refine Or.inr ⟨hsl, hch, fun x hx hz ↦ ?_⟩
      rw [hparent] at hx
      obtain rfl | hxq := eq_or_ne x q
      · rw [hself] at hz
        cases hz
      · rw [hother x hxq] at hz
        exact hkids x hx hz
  · intro y x hy
    obtain ⟨hal, hem⟩ := h.child y x hy
    have hne : x ≠ q := fun heq ↦ hchild y (heq ▸ hy)
    rw [hother x hne]
    exact ⟨halive y hal, hem⟩
  · intro y x hy
    rw [hparent]
    exact h.ready y x hy
  · intro y hy
    obtain rfl | hyq := eq_or_ne y q
    · exact h.idle y hdead
    · rw [hother y hyq] at hy
      exact h.idle y hy

/-! ## `exit` -/

theorem wakeup1_self {chan : Option Chan} (hq : (s.proc q).chan = chan) :
    ((s.wakeup1 chan).proc q).state ≠ .sleeping := by
  rw [State.wakeup1]
  dsimp only
  split
  · simp
  · rename_i h
    exact fun hsl ↦ h ⟨hsl, hq⟩

theorem wakeup1_of_ne {chan : Option Chan} (hq : (s.proc q).state ≠ .sleeping) :
    (s.wakeup1 chan).proc q = s.proc q := if_neg fun h ↦ hq h.1

theorem wakeup1_setProc {chan : Option Chan} {e : Entry} (he : e.state ≠ .sleeping) :
    (s.setProc q e).wakeup1 chan = (s.wakeup1 chan).setProc q e := by
  have hproc : ((s.setProc q e).wakeup1 chan).proc = ((s.wakeup1 chan).setProc q e).proc := by
    funext x
    obtain rfl | hx := eq_or_ne x q
    · rw [State.setProc_self, wakeup1_of_ne (by rwa [State.setProc_self]), State.setProc_self]
    · rw [State.setProc_of_ne _ _ hx, State.wakeup1, State.wakeup1]
      dsimp only
      rw [State.setProc_of_ne _ _ hx]
  exact congrArg (fun f ↦ (⟨f, s.pc, s.nextpid, s.log⟩ : State)) hproc

/-- `r` is not asleep inside `wait`. -/
def Awake (s : State) (r : Slot) : Prop := s.pc r = .waiting → (s.proc r).state = .runnable

theorem Inv.awake_wakeup1 (h : Inv s) (r : Slot) : Awake (s.wakeup1 (some (.proc r))) r := by
  intro hr
  have h' := h.of_alike (Alike.wakeup1 (some (.proc r)))
  rcases h'.waiting r hr with hrun | ⟨hsl, -, -⟩
  · exact hrun
  · rcases h.waiting r hr with hrun | ⟨-, hch, -⟩
    · rw [State.wakeup1] at hsl
      simp [hrun] at hsl
    · exact absurd hsl (wakeup1_self hch)

theorem Awake.wakeup1 {r : Slot} {chan : Option Chan} (h : Awake s r) :
    Awake (s.wakeup1 chan) r := by
  intro hr
  rcases (Alike.wakeup1 (s := s) chan).waiting r hr with hrun | ⟨hst, -⟩
  · exact hrun
  · rw [hst]
    exact h hr

/-- What the loop over the children keeps, while `p` is inside `exit`. -/
structure Leaving (s : State) (p : Slot) : Prop where
  inv : Inv s
  state : (s.proc p).state = .running
  pc : s.pc p = .exiting
  awake : ∀ r, (s.proc p).parent = some r → Awake s r

namespace Leaving

theorem ne_init (h : Leaving s p) : p ≠ initproc := by
  rintro rfl
  exact h.inv.init_pc h.pc

theorem wakeup1 {chan : Option Chan} (h : Leaving s p) : Leaving (s.wakeup1 chan) p := by
  have hself : (s.wakeup1 chan).proc p = s.proc p := wakeup1_of_ne (by simp [h.state])
  refine ⟨h.inv.of_alike (.wakeup1 chan), ?_, h.pc, fun r hr ↦ ?_⟩
  · rw [hself]
    exact h.state
  · rw [hself] at hr
    exact (h.awake r hr).wakeup1

/-- A child is given to init, which must not be asleep if the child is a zombie. -/
theorem setParent (h : Leaving s p) (hq : (s.proc q).parent = some p)
    (hwait : Awake s initproc ∨ (s.proc q).state ≠ .zombie) :
    Leaving (s.setProc q { s.proc q with parent := some initproc }) p := by
  have hqp : p ≠ q := by
    rintro rfl
    exact h.inv.own_parent p hq
  have hqi : q ≠ initproc := by
    rintro rfl
    rw [h.inv.init_parent] at hq
    cases hq
  -- `p` is not forking, so nobody is about to start this child
  have hready : ∀ x, s.pc x = .forkReady q → x = initproc := by
    intro x hx
    have hpx := h.inv.ready x q hx
    rw [hq] at hpx
    obtain rfl := Option.some.inj hpx
    rw [h.pc] at hx
    cases hx
  have hinv := h.inv.setParent h.inv.init_alive hqi.symm hqi hready fun hw ↦
    hwait.imp_left fun hawake ↦ hawake hw
  refine ⟨hinv, ?_, h.pc, fun r hr hw ↦ ?_⟩
  · rw [State.setProc_of_ne _ _ hqp]
    exact h.state
  · rw [State.setProc_of_ne _ _ hqp] at hr
    have hrun := h.awake r hr hw
    obtain rfl | hrq := eq_or_ne r q
    · rw [State.setProc_self]
      exact hrun
    · rwa [State.setProc_of_ne _ _ hrq]

theorem abandon (h : Leaving s p) : Leaving (s.abandon p q) p := by
  rw [State.abandon]
  split
  · rename_i hq
    dsimp only
    rw [State.setProc_self]
    split
    · rename_i hz
      -- waking init first leads to the same state
      have hsame : (s.wakeup1 (some (.proc initproc))).proc q = s.proc q :=
        wakeup1_of_ne (by rw [hz]; decide)
      rw [wakeup1_setProc (by rw [hz]; decide), ← hsame]
      exact h.wakeup1.setParent (hsame ▸ hq) (Or.inl (h.inv.awake_wakeup1 initproc))
    · rename_i hz
      exact h.setParent hq (Or.inr hz)
  · exact h

theorem foldl_abandon {l : List Slot} (h : Leaving s p) :
    Leaving (l.foldl (State.abandon p) s) p := by
  induction l generalizing s with
  | nil => exact h
  | cons q l ih => exact ih h.abandon

end Leaving

theorem wakeup1_parent {chan : Option Chan} :
    ((s.wakeup1 chan).proc q).parent = (s.proc q).parent := (Alike.wakeup1 chan).parent_eq q

theorem abandon_parent {x : Slot} (hp : p ≠ initproc) :
    ((s.abandon p q).proc x).parent = some p → (s.proc x).parent = some p ∧ x ≠ q := by
  rw [State.abandon]
  have hset : ((s.setProc q { s.proc q with parent := some initproc }).proc x).parent = some p →
      (s.proc x).parent = some p ∧ x ≠ q := by
    intro hx
    obtain rfl | hxq := eq_or_ne x q
    · rw [State.setProc_self] at hx
      exact absurd (Option.some.inj hx).symm hp
    · rw [State.setProc_of_ne _ _ hxq] at hx
      exact ⟨hx, hxq⟩
  split
  · dsimp only
    split
    · rw [wakeup1_parent]
      exact hset
    · exact hset
  · rename_i hq
    intro hx
    refine ⟨hx, ?_⟩
    rintro rfl
    exact hq hx

theorem foldl_abandon_parent {l : List Slot} {x : Slot} (hp : p ≠ initproc)
    (hx : ((l.foldl (State.abandon p) s).proc x).parent = some p) :
    (s.proc x).parent = some p ∧ x ∉ l := by
  induction l generalizing s with
  | nil => exact ⟨hx, by simp⟩
  | cons q l ih =>
    obtain ⟨hq, hl⟩ := ih hx
    obtain ⟨hs, hne⟩ := abandon_parent hp hq
    refine ⟨hs, ?_⟩
    rw [List.mem_cons, not_or]
    exact ⟨hne, hl⟩

/-- `proc->state = ZOMBIE`, once the children are gone and the parent has been woken up. -/
theorem Leaving.die (h : Leaving s p) (hkids : ∀ q, (s.proc q).parent ≠ some p) :
    Inv (s.die p) := by
  have halive : (s.proc p).state.alive = true := by rw [h.state]; rfl
  have hother : ∀ x, x ≠ p → (s.die p).proc x = s.proc x := fun x hx ↦ State.setProc_of_ne _ _ hx
  have hself : (s.die p).proc p = { s.proc p with state := .zombie } := State.setProc_self ..
  have hparent : ∀ x, ((s.die p).proc x).parent = (s.proc x).parent := by
    intro x
    obtain rfl | hx := eq_or_ne x p
    · rw [hself]
    · rw [hother x hx]
  have hpc : ∀ x, x ≠ p → (s.die p).pc x = s.pc x := fun x hx ↦ State.goto_of_ne _ _ hx
  have hpcp : (s.die p).pc p = .user := State.goto_self ..
  have hne := h.ne_init
  have hchild : ∀ r x, ((s.die p).pc r).child = some x → r ≠ p ∧ (s.pc r).child = some x := by
    intro r x hr
    obtain rfl | hrp := eq_or_ne r p
    · rw [hpcp] at hr
      cases hr
    · rw [hpc r hrp] at hr
      exact ⟨hrp, hr⟩
  refine ⟨?_, ?_, ?_, ?_, ?_, ?_, ?_, ?_, ?_, ?_, ?_⟩
  · rw [hother _ hne.symm]
    exact h.inv.init_alive
  · rw [hpc _ hne.symm]
    exact h.inv.init_pc
  · rw [hparent]
    exact h.inv.init_parent
  · intro x
    rw [hparent]
    exact h.inv.own_parent x
  · intro x r hx
    rw [hparent] at hx
    have hrp : r ≠ p := by
      rintro rfl
      exact hkids x hx
    rw [hother r hrp]
    exact h.inv.parent_alive x r hx
  · intro x hx hst
    rw [hparent]
    obtain rfl | hxp := eq_or_ne x p
    · exact h.inv.has_parent x hx (Procstate.started_of_alive halive)
    · rw [hother x hxp] at hst
      exact h.inv.has_parent x hx hst
  · intro r hr
    have hrp : r ≠ p := by
      rintro rfl
      rw [hpcp] at hr
      cases hr
    rw [hpc r hrp] at hr
    rw [hother r hrp]
    rcases h.inv.waiting r hr with hrun | ⟨hsl, hch, hz⟩
    · exact Or.inl hrun
    · refine Or.inr ⟨hsl, hch, fun x hx hzx ↦ ?_⟩
      rw [hparent] at hx
      obtain rfl | hxp := eq_or_ne x p
      · -- the parent of the new zombie was woken up
        rw [h.awake r hx hr] at hsl
        cases hsl
      · rw [hother x hxp] at hzx
        exact hz x hx hzx
  · intro r x hr
    obtain ⟨hrp, hr⟩ := hchild r x hr
    obtain ⟨hal, hem⟩ := h.inv.child r x hr
    have hxp : x ≠ p := ne_of_alive halive (by rw [hem]; rfl)
    rw [hother r hrp, hother x hxp]
    exact ⟨hal, hem⟩
  · intro r r' x hr hr'
    exact h.inv.child_inj r r' x (hchild r x hr).2 (hchild r' x hr').2
  · intro r x hr
    have hrp : r ≠ p := by
      rintro rfl
      rw [hpcp] at hr
      cases hr
    rw [hpc r hrp] at hr
    rw [hparent]
    exact h.inv.ready r x hr
  · intro r hr
    obtain rfl | hrp := eq_or_ne r p
    · exact hpcp
    · rw [hother r hrp] at hr
      rw [hpc r hrp]
      exact h.inv.idle r hr

/-- The loop of `exit` over the children, after the parent has been woken up. -/
theorem Inv.leaving (h : Inv s) (hp : (s.proc p).state = .running) (hpc : s.pc p = .exiting) :
    Leaving ((s.wakeup1 ((s.proc p).parent.map .proc)).passChildren p) p := by
  have hself : (s.wakeup1 ((s.proc p).parent.map .proc)).proc p = s.proc p :=
    wakeup1_of_ne (by rw [hp]; decide)
  have hwoken : Leaving (s.wakeup1 ((s.proc p).parent.map .proc)) p := by
    refine ⟨h.of_alike (.wakeup1 _), ?_, hpc, fun r hr ↦ ?_⟩
    · rw [hself]
      exact hp
    · rw [hself] at hr
      rw [hr]
      exact h.awake_wakeup1 r
  exact hwoken.foldl_abandon

theorem Inv.exit (h : Inv s) (hp : (s.proc p).state = .running) (hpc : s.pc p = .exiting) :
    Inv (s.exit p) := by
  have hleave := h.leaving hp hpc
  refine hleave.die fun q hq ↦ ?_
  rw [State.passChildren] at hq
  exact (foldl_abandon_parent hleave.ne_init hq).2 (List.mem_finRange q)

/-! ## `wait` -/

theorem scan_zombie {l : List Slot} {havekids : Bool} (h : s.scan p l havekids = .zombie q) :
    (s.proc q).parent = some p ∧ (s.proc q).state = .zombie := by
  induction l generalizing havekids with
  | nil => cases h
  | cons x l ih =>
    rw [State.scan] at h
    split at h
    · exact ih h
    · rename_i hx
      split at h
      · rename_i hz
        obtain rfl := State.Scan.zombie.inj h
        exact ⟨not_not.mp hx, hz⟩
      · exact ih h

theorem scan_none {l : List Slot} {havekids b : Bool} (h : s.scan p l havekids = .none b) :
    ∀ x ∈ l, (s.proc x).parent = some p → (s.proc x).state ≠ .zombie := by
  induction l generalizing havekids with
  | nil => simp
  | cons x l ih =>
    rw [State.scan] at h
    intro y hy hpar
    rcases List.mem_cons.mp hy with rfl | hy
    · rw [if_neg (not_not.mpr hpar)] at h
      split at h
      · cases h
      · rename_i hz
        exact hz
    · split at h
      · exact ih h y hy hpar
      · split at h
        · cases h
        · exact ih h y hy hpar

theorem Inv.child_ne (h : Inv s) (hq : (s.proc q).state ≠ .embryo) :
    ∀ r, (s.pc r).child ≠ some q := fun r hr ↦ hq (h.child r q hr).2

theorem Inv.wait (h : Inv s) (hp : (s.proc p).state = .running) (hpc : s.pc p = .user) :
    Inv (s.wait p) := by
  have halive : (s.proc p).state.alive = true := by rw [hp]; rfl
  rw [State.wait]
  split
  · rename_i q hscan
    obtain ⟨-, hz⟩ := scan_zombie hscan
    have hdead : (s.proc q).state.alive = false := by rw [hz]; rfl
    have hrec : Inv (s.record (.wait p (s.proc q).parent (s.proc q).num (s.proc q).pid)) :=
      h.congr rfl rfl
    have hreap : Inv (s.reap p q) := by
      rw [State.reap]
      exact hrec.setDead hdead (Or.inl rfl) (Or.inr rfl) (h.child_ne (by rw [hz]; decide))
    refine hreap.goto_user ?_
    rw [State.reap, State.setProc_of_ne _ _ (ne_of_alive halive hdead).symm]
    exact halive
  · rename_i havekids hscan
    split
    · exact h.goto_user halive
    · have hsleep : Inv (s.setProc p { s.proc p with
          chan := some (.proc p), state := .sleeping }) :=
        h.of_alike (.setProc rfl (Or.inr ⟨halive, rfl⟩) fun hw ↦ by rw [hpc] at hw; cases hw)
      refine hsleep.goto ?_ (by simp) (fun _ ↦ ?_) (by simp [Pc.child]) (by simp)
      · rw [State.setProc_self]
        rfl
      · rw [State.setProc_self]
        refine ⟨rfl, rfl, fun q hq ↦ ?_⟩
        obtain rfl | hqp := eq_or_ne q p
        · rw [State.setProc_self]
          simp
        · rw [State.setProc_of_ne _ _ hqp] at hq ⊢
          exact scan_none hscan q (List.mem_finRange q) hq

/-- `wait` ends by saying where the caller stands, so it does not matter where it stood. -/
theorem wait_goto {pc : Pc} : (s.goto p pc).wait p = s.wait p := by
  have hscan : ∀ l havekids, (s.goto p pc).scan p l havekids = s.scan p l havekids := by
    intro l
    induction l with
    | nil => intro havekids; rfl
    | cons q l ih =>
      intro havekids
      rw [State.scan, State.scan, ih, ih]
      rfl
  have hgoto : ∀ (s : State) pc', (s.goto p pc).goto p pc' = s.goto p pc' := by
    intro s pc'
    simp only [State.goto, update_idem]
  rw [State.wait, State.wait, hscan, State.goto_proc]
  split
  · exact hgoto (s.reap p _) .user
  · split
    · exact hgoto s .user
    · exact hgoto (s.setProc p _) .waiting

theorem Inv.resume (h : Inv s) (hp : (s.proc p).state = .runnable) : Inv (s.resume p) := by
  rw [State.resume]
  dsimp only
  rw [State.setProc_pc]
  have halive : (s.proc p).state.alive = true := by rw [hp]; rfl
  split
  · -- the process goes on inside `wait`, as if it had just called it
    have huser := h.goto_user halive
    have hrun : Inv ((s.goto p .user).setProc p
        { s.proc p with state := .running, chan := none }) :=
      huser.of_alike (.setProc rfl (Or.inr ⟨halive, rfl⟩) fun hw ↦ by
        rw [State.goto_self] at hw
        cases hw)
    have hwait := hrun.wait (by rw [State.setProc_self]) (State.goto_self ..)
    have hcomm : (s.goto p .user).setProc p { s.proc p with state := .running, chan := none }
        = (s.setProc p { s.proc p with state := .running, chan := none }).goto p .user := rfl
    rwa [hcomm, wait_goto] at hwait
  · rename_i hw
    exact h.of_alike (.setProc rfl (Or.inr ⟨halive, rfl⟩) fun h' ↦ absurd h' hw)

theorem Inv.allocproc (h : Inv s) (hp : (s.proc p).state = .running) : Inv (s.allocproc p) := by
  have halive : (s.proc p).state.alive = true := by rw [hp]; rfl
  rw [State.allocproc]
  split
  · exact h
  · rename_i np hnp
    have hu : (s.proc np).state = .unused := by simpa using List.find?_some hnp
    have hdead : (s.proc np).state.alive = false := by rw [hu]; rfl
    have hchild := h.child_ne (show (s.proc np).state ≠ .embryo by rw [hu]; decide)
    have htake : Inv (s.take np) :=
      (h.setDead (e := { s.proc np with
        state := .embryo, pid := BitVec.ofNat 32 s.nextpid, num := s.nextpid })
        hdead (Or.inr rfl) (Or.inl rfl) hchild).congr rfl rfl
    have hother : (s.take np).proc p = s.proc p :=
      State.setProc_of_ne _ _ (ne_of_alive halive hdead).symm
    refine htake.goto ?_ (by simp) (by simp) (fun q hq ↦ ?_) (by simp)
    · rw [hother]
      exact halive
    · obtain rfl := Option.some.inj hq
      exact ⟨by rw [State.take, State.setProc_self], fun r hr ↦ absurd hr (hchild r)⟩

/-- A process that runs is not inside `wait`: it goes on with the scan as soon as it is resumed. -/
theorem Inv.not_waiting (h : Inv s) (hp : (s.proc p).state = .running) : s.pc p ≠ .waiting := by
  intro hw
  rcases h.waiting p hw with hrun | ⟨hsl, -, -⟩
  · rw [hp] at hrun
    cases hrun
  · rw [hp] at hsl
    cases hsl

theorem Inv.forkNext {pc : Pc} (h : Inv s) (hp : (s.proc p).state = .running)
    (hpc : (s.pc p).child = some q) (hchild : pc.child = some q)
    (hready : ∀ x, pc ≠ .forkReady x) : Inv (s.goto p pc) := by
  refine h.goto (by rw [hp]; rfl) ?_ ?_ (fun x hx ↦ ?_) fun x hx ↦ absurd hx (hready x)
  · rintro rfl
    cases hchild
  · rintro rfl
    cases hchild
  · obtain rfl := Option.some.inj (hchild.symm.trans hx)
    exact ⟨(h.child p _ hpc).2, fun r hr ↦ h.child_inj r p _ hr hpc⟩

theorem Inv.forkFails (h : Inv s) (hp : (s.proc p).state = .running)
    (hpc : (s.pc p).child = some q) : Inv (s.forkFails p q) := by
  obtain ⟨halive, hem⟩ := h.child p q hpc
  have huser := h.goto_user halive
  have hchild : ∀ r, ((s.goto p .user).pc r).child ≠ some q := by
    intro r hr
    obtain rfl | hne := eq_or_ne r p
    · rw [State.goto_self] at hr
      cases hr
    · rw [State.goto_of_ne _ _ hne] at hr
      exact hne (h.child_inj r p q hr hpc)
  have hdead : (s.proc q).state.alive = false := by rw [hem]; rfl
  exact (huser.setDead (e := { s.proc q with state := .unused }) hdead (Or.inl rfl) (Or.inl rfl)
    hchild).congr rfl rfl

theorem Inv.forkParent (h : Inv s) (hpc : s.pc p = .forkParent q) :
    Inv ((s.setProc q { s.proc q with parent := some p }).goto p (.forkReady q)) := by
  have hpq : (s.pc p).child = some q := by rw [hpc]; rfl
  obtain ⟨halive, hem⟩ := h.child p q hpq
  have hdead : (s.proc q).state.alive = false := by rw [hem]; rfl
  have hne := ne_of_alive halive hdead
  have hready : ∀ x, s.pc x = .forkReady q → x = p :=
    fun x hx ↦ h.child_inj x p q (by rw [hx]; rfl) hpq
  have hset := h.setParent halive hne.symm (h.ne_init hdead) hready
    fun _ ↦ Or.inr (by rw [hem]; decide)
  refine hset.goto ?_ (by simp) (by simp) (fun x hx ↦ ?_) fun x hx ↦ ?_
  · rwa [State.setProc_of_ne _ _ hne.symm]
  · obtain rfl := Option.some.inj hx
    refine ⟨by rw [State.setProc_self]; exact hem, fun r hr ↦ h.child_inj r p _ hr hpq⟩
  · obtain rfl := Pc.forkReady.inj hx
    rw [State.setProc_self]

theorem Inv.forkReady (h : Inv s) (hpc : s.pc p = .forkReady q) :
    Inv ((s.setState q .runnable).goto p .user) := by
  have hpq : (s.pc p).child = some q := by rw [hpc]; rfl
  obtain ⟨halive, hem⟩ := h.child p q hpq
  have huser := h.goto_user halive
  have hchild : ∀ r, ((s.goto p .user).pc r).child ≠ some q := by
    intro r hr
    obtain rfl | hne := eq_or_ne r p
    · rw [State.goto_self] at hr
      cases hr
    · rw [State.goto_of_ne _ _ hne] at hr
      exact hne (h.child_inj r p q hr hpq)
  refine (huser.start hem hchild ?_).congr rfl rfl
  rw [State.goto_proc, h.ready p q hpc]
  simp

theorem Inv.step {a : Op} (h : Inv s) (hs : Step s a s') : Inv s' := by
  cases hs.move with
  | scheduler hst => exact h.resume hst
  | yield hst =>
    have hpc : s.pc _ ≠ .waiting := h.not_waiting hst
    exact h.of_alike (.setProc rfl (Or.inr ⟨by rw [hst]; rfl, rfl⟩) fun hw ↦ absurd hw hpc)
  | sleep hst hpc =>
    refine h.of_alike (.setProc rfl (Or.inr ⟨by rw [hst]; rfl, rfl⟩) fun hw ↦ ?_)
    exact absurd hw (h.not_waiting hst)
  | wakeup => exact h.of_alike (.wakeup1 _)
  | allocproc hst hpc => exact h.allocproc hst
  | kalloc hst hpc => exact h.forkNext hst (by rw [hpc]; rfl) rfl (by simp)
  | copyuvm hst hpc => exact h.forkNext hst (by rw [hpc]; rfl) rfl (by simp)
  | kallocFails hst hpc => exact h.forkFails hst (by rw [hpc]; rfl)
  | copyuvmFails hst hpc => exact h.forkFails hst (by rw [hpc]; rfl)
  | parent hst hpc => exact h.forkParent hpc
  | ready hst hpc => exact h.forkReady hpc
  | close hst hpc hne =>
    exact h.goto (by rw [hst]; rfl) (fun _ ↦ hne) (by simp) (by simp [Pc.child]) (by simp)
  | exit hst hpc => exact h.exit hst hpc
  | wait hst hpc => exact h.wait hst hpc
  | kill hst hpc => exact h.of_alike (.kill _)

end Moves

end SistemasOperacionais.Xv6.Proc
