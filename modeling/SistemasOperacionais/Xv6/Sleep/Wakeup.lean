import SistemasOperacionais.Xv6.Sleep.Invariant

/-!
# No wake-up is lost

`sleep` takes `ptable.lock` before it releases `lk`, and keeps it until the process is marked as
sleeping and has left the processor. `wakeup` goes through the table under the same lock. So when a
`wakeup` has gone through the table, a process that has released `lk` in `sleep` cannot be on its
way to sleep any more: it has been marked before, and the loop has found it.
-/

namespace SistemasOperacionais.Xv6.Sleep

open Foundations Function
open Proc (Procstate)

variable {κ : Type*} {n : ℕ} {s s' : State κ n} {c d : κ} {p : Fin n}

/-! ## Switching -/

section Switch

variable [DecidableEq κ] {f g : Frame n} {rest : List (Frame n)}

/-- `sched`: the process leaves the processor, and its scheduler goes on with the lock held. -/
theorem Inv.switchAway (h : Inv s) (hst : s.stack (s.run c) = g :: rest) (hp : s.run c = .inl p)
    (hg : g.base = false) (hs : s.sched c p f rest = some s') (hf : f.offCpu (s.proc p)) :
    Inv s' := by
  obtain ⟨⟨hlock, -, -⟩, heq⟩ := Option.ite_none_right_eq_some.mp hs
  obtain rfl := Option.some.inj heq
  have hbelow := h.below _ _ _ hst
  have hself : ((s.setStack (.inl p) (f :: rest)).swtch c (.inr c)).stack (.inl p) = f :: rest :=
    update_self ..
  have hother : ∀ x, x ≠ .inl p →
      ((s.setStack (.inl p) (f :: rest)).swtch c (.inr c)).stack x = s.stack x :=
    fun x hx ↦ update_of_ne hx ..
  have hrunc : ((s.setStack (.inl p) (f :: rest)).swtch c (.inr c)).run c = .inr c :=
    update_self ..
  have hrun : ∀ d, d ≠ c →
      ((s.setStack (.inl p) (f :: rest)).swtch c (.inr c)).run d = s.run d :=
    fun d hd ↦ update_of_ne hd ..
  have he : Elsewhere s ((s.setStack (.inl p) (f :: rest)).swtch c (.inr c)) c :=
    ⟨hrun, fun x hx _ ↦ hother x (hp ▸ hx), fun _ _ _ hl ↦ hl, Or.inl rfl, fun _ _ _ _ ↦ rfl⟩
  refine ⟨⟨h.locked.iff, h.locked.nodup⟩, fun d k hd ↦ ?_, fun d d' q hd hd' ↦ ?_,
    fun x g' l hx ↦ ?_, fun x ↦ ?_, fun d g' l hd ↦ ?_, fun q hq ↦ ?_, fun d hd ↦ ?_⟩
  · obtain rfl | hne := eq_or_ne d c
    · rw [hrunc] at hd
      exact (Sum.inr.inj hd).symm
    · rw [hrun d hne] at hd
      exact h.run_sched d k hd
  · have hne : ∀ e, ((s.setStack (.inl p) (f :: rest)).swtch c (.inr c)).run e = .inl q →
        s.run e = .inl q := by
      intro e hq
      obtain rfl | hec := eq_or_ne e c
      · rw [hrunc] at hq
        cases hq
      · rwa [hrun e hec] at hq
    exact h.run_inj d d' q (hne d hd) (hne d' hd')
  · obtain rfl | hne := eq_or_ne x (.inl p)
    · rw [hself] at hx
      obtain ⟨-, rfl⟩ := List.cons.inj hx
      exact hbelow
    · rw [hother x hne] at hx
      exact h.below x g' l hx
  · obtain rfl | hne := eq_or_ne x (.inl p)
    · rw [hself]
      exact (hst ▸ h.bottom _).replace (Or.inl hg)
    · rw [hother x hne]
      exact h.bottom x
  · obtain rfl | hne := eq_or_ne d c
    · -- the scheduler was left inside its loop
      rw [hrunc, hother _ (by simp)] at hd
      obtain ⟨l', hscan⟩ := h.sched d (by rw [hp]; simp)
      rw [hscan] at hd
      obtain ⟨rfl, -⟩ := List.cons.inj hd
      refine .of_plain rfl (fun _ ↦ hlock) fun q hq ↦ ?_
      rw [hrunc] at hq
      cases hq
    · rw [hrun d hne, hother _ (by rw [← hp]; exact h.run_ne hne)] at hd
      exact (h.cpu d g' l hd).elsewhere he hne
  · obtain rfl | hne := eq_or_ne q p
    · exact ⟨f, rest, hself, hf⟩
    · have hoff : ∀ d, s.run d ≠ .inl q := by
        intro d hd
        obtain rfl | hdc := eq_or_ne d c
        · exact hne (Sum.inl.inj (hd.symm.trans hp))
        · exact hq d ((hrun d hdc).trans hd)
      obtain ⟨g', l, hg', ho⟩ := h.off q hoff
      refine ⟨g', l, ?_, ho⟩
      rw [hother _ (by simpa using hne)]
      exact hg'
  · obtain rfl | hne := eq_or_ne d c
    · exact absurd hrunc hd
    · rw [hrun d hne] at hd
      obtain ⟨l, hl⟩ := h.sched d hd
      exact ⟨l, by rw [hother _ (by simp)]; exact hl⟩

theorem onCpu_resumed {e : Entry} (hf : f.offCpu e) (he : e.state = .runnable) :
    (State.resumed f).plain = true := by
  cases f <;> first
    | rfl
    | cases hf
    | (simp only [Frame.offCpu, he] at hf; cases hf)

theorem base_of_offCpu {e : Entry} (hf : f.offCpu e) : f.base = false := by
  cases f <;> first
    | rfl
    | cases hf

omit [DecidableEq κ] in
/-- A process that the holder of `ptable.lock` does not find `RUNNING` is not executing. -/
theorem Inv.offline (h : Inv s) (hlock : s.lock .ptable = some c) (hc : s.run c ≠ .inl p)
    (hne : (s.proc p).state ≠ .running) : ∀ d, s.run d ≠ .inl p := by
  intro d hd
  obtain ⟨f, rest, hst⟩ := (h.bottom (.inl p)).ne_nil
  have htop := h.cpu d f rest (hd ▸ hst)
  have hentry := htop.entry p hd
  -- only a process that is about to leave has another state, and it holds the lock
  have hlocks : f.locks = true := by
    cases f <;> first
      | rfl
      | exact absurd hentry hne
  have heq := (htop.locks hlocks).symm.trans hlock
  exact hc (Option.some.inj heq ▸ hd)

/-- The scheduler switches to a process, which goes on with the lock held. -/
theorem Inv.switchTo (h : Inv s) (hst : s.stack (s.run c) = .scan :: rest) (hc : s.run c = .inr d)
    (hs : s.choose c p = some s') : Inv s' := by
  obtain rfl := h.run_sched c d hc
  have hlock := (h.cpu d _ _ hst).locks rfl
  rw [State.choose] at hs
  split at hs
  · rename_i f l hf
    obtain ⟨hrunnable, heq⟩ := Option.ite_none_right_eq_some.mp hs
    have hoff := h.offline hlock (by rw [hc]; simp) (by rw [hrunnable]; decide)
    obtain ⟨f', l', hf', ho⟩ := h.off p hoff
    obtain ⟨rfl, rfl⟩ := List.cons.inj (hf.symm.trans hf')
    have hplain := onCpu_resumed ho hrunnable
    have hother : ∀ x, x ≠ .inl p → s'.stack x = s.stack x := by
      rw [← Option.some.inj heq]
      exact fun x hx ↦ update_of_ne hx ..
    have hself : s'.stack (.inl p) = State.resumed f :: l := by
      rw [← Option.some.inj heq]
      exact update_self ..
    have hrunc : s'.run d = .inl p := by
      rw [← Option.some.inj heq]
      exact update_self ..
    have hrun : ∀ e, e ≠ d → s'.run e = s.run e := by
      rw [← Option.some.inj heq]
      exact fun e he ↦ update_of_ne he ..
    have hproc : ∀ q, q ≠ p → s'.proc q = s.proc q := by
      rw [← Option.some.inj heq]
      exact fun q hq ↦ update_of_ne hq ..
    have hstate : (s'.proc p).state = .running := by
      rw [← Option.some.inj heq]
      change ((s.setState p .running).proc p).state = .running
      rw [State.setState, State.setProc_self]
    have hlocks : s'.lock = s.lock ∧ s'.held = s.held := by
      rw [← Option.some.inj heq]
      exact ⟨rfl, rfl⟩
    have he : Elsewhere s s' d := by
      refine ⟨hrun, fun x _ hx ↦ hother x (hrunc ▸ hx), fun l e _ hl ↦ ?_, Or.inr hlock,
        fun e q _ hq ↦ hproc q ?_⟩
      · rw [hlocks.1]
        exact hl
      · rintro rfl
        exact hoff e hq
    refine ⟨⟨?_, ?_⟩, fun e k he' ↦ ?_, fun e e' q hq hq' ↦ ?_, fun x g m hx ↦ ?_, fun x ↦ ?_,
      fun e g m hg ↦ ?_, fun q hq ↦ ?_, fun e he' ↦ ?_⟩
    · rw [hlocks.1, hlocks.2]
      exact h.locked.iff
    · rw [hlocks.2]
      exact h.locked.nodup
    · obtain rfl | hne := eq_or_ne e d
      · rw [hrunc] at he'
        cases he'
      · rw [hrun e hne] at he'
        exact h.run_sched e k he'
    · obtain rfl | hne := eq_or_ne e d
      · rw [hrunc] at hq
        obtain rfl := Sum.inl.inj hq
        by_contra hee
        rw [hrun e' (Ne.symm hee)] at hq'
        exact hoff e' hq'
      · rw [hrun e hne] at hq
        obtain rfl | hne' := eq_or_ne e' d
        · rw [hrunc] at hq'
          obtain rfl := Sum.inl.inj hq'
          exact absurd hq (hoff e)
        · rw [hrun e' hne'] at hq'
          exact h.run_inj e e' q hq hq'
    · obtain rfl | hne := eq_or_ne x (.inl p)
      · rw [hself] at hx
        obtain ⟨-, rfl⟩ := List.cons.inj hx
        exact h.below _ _ _ hf
      · rw [hother x hne] at hx
        exact h.below x g m hx
    · obtain rfl | hne := eq_or_ne x (.inl p)
      · rw [hself]
        exact (hf ▸ h.bottom (.inl p)).replace (Or.inl (base_of_offCpu ho))
      · rw [hother x hne]
        exact h.bottom x
    · obtain rfl | hne := eq_or_ne e d
      · rw [hrunc, hself] at hg
        obtain ⟨rfl, -⟩ := List.cons.inj hg
        refine .of_plain hplain (fun _ ↦ by rw [hlocks.1]; exact hlock) fun q hq ↦ ?_
        rw [hrunc] at hq
        obtain rfl := Sum.inl.inj hq
        exact hstate
      · rw [hrun e hne, hother _ (hoff e)] at hg
        exact (h.cpu e g m hg).elsewhere he hne
    · have hqp : q ≠ p := by
        rintro rfl
        exact hq d hrunc
      have hoffq : ∀ e, s.run e ≠ .inl q := by
        intro e hqe
        obtain rfl | hed := eq_or_ne e d
        · rw [hc] at hqe
          cases hqe
        · exact hq e ((hrun e hed).trans hqe)
      obtain ⟨g, m, hg, hog⟩ := h.off q hoffq
      refine ⟨g, m, ?_, ?_⟩
      · rw [hother _ (by simpa using hqp)]
        exact hg
      · rw [hproc q hqp]
        exact hog
    · obtain rfl | hne := eq_or_ne e d
      · exact ⟨rest, by rw [hother _ (by simp), ← hc]; exact hst⟩
      · rw [hrun e hne] at he'
        obtain ⟨m, hm⟩ := h.sched e he'
        exact ⟨m, by rw [hother _ (by simp)]; exact hm⟩
  · cases hs

end Switch

/-! ## Runs -/

section Runs

variable [DecidableEq κ] {f : Frame n} {rest : List (Frame n)}

theorem Inv.stepProc (h : Inv s) (hst : s.stack (s.run c) = f :: rest) (hp : s.run c = .inl p)
    (hs : s.stepProc c p rest f = some s') : Inv s' := by
  have htop := h.cpu c f rest hst
  have hself : ∀ q, s.run c = .inl q → q = p := fun q hq ↦ Sum.inl.inj (hq.symm.trans hp)
  cases f <;> try simp only [State.stepProc, ← hp, Option.map_eq_some_iff, reduceCtorEq] at hs
  case sleepEnter chan lk =>
    cases lk with
    | other a =>
      obtain ⟨s₁, hacq, rfl⟩ := Option.map_eq_some_iff.mp hs
      exact h.acquire hst htop.entry hacq (Or.inl rfl) rfl fun _ ↦ rfl
    | ptable =>
      -- the caller holds the lock already
      obtain rfl := Option.some.inj hs
      refine h.setStack (.refl h) (h.below _ _ _ hst) ((hst ▸ h.bottom _).replace (Or.inl rfl)) ?_
      rintro _ ⟨⟩
      exact .of_plain rfl (fun _ ↦ htop.holds .ptable rfl) htop.entry
  case sleepRelease chan a =>
    obtain ⟨s₁, hrel, rfl⟩ := hs
    exact h.release hst htop.entry hrel (Or.inl rfl) rfl fun _ ↦ ⟨htop.locks rfl, by simp⟩
  case sleepChan chan lk =>
    obtain rfl := Option.some.inj hs
    exact h.own hst hp rfl rfl rfl (by simp [Frame.holds]) ⟨htop.entry p hp, rfl⟩ trivial
  case sleepState chan lk =>
    obtain rfl := Option.some.inj hs
    exact h.own hst hp rfl rfl rfl (by simp [Frame.holds]) ⟨rfl, (htop.entry p hp).2⟩ trivial
  case sleepSched chan lk => exact h.switchAway hst hp rfl hs (Or.inr (htop.entry p hp))
  case sleepTidy lk =>
    have hrun := htop.entry p hp
    cases lk with
    | other a =>
      obtain rfl := Option.some.inj hs
      exact h.own hst hp rfl rfl rfl (by simp [Frame.holds]) hrun trivial
    | ptable =>
      obtain rfl := Option.some.inj hs
      refine h.own hst hp rfl rfl rfl ?_ hrun trivial
      rintro _ ⟨⟩
      rfl
  case sleepUnlock lk =>
    obtain ⟨s₁, hrel, rfl⟩ := hs
    exact h.release hst htop.entry hrel (Or.inl rfl) rfl (by simp [Frame.locks])
  case sleepRelock lk =>
    obtain ⟨s₁, hacq, rfl⟩ := hs
    obtain ⟨hrun, hproc⟩ := acquire_same hacq
    refine h.setStack (.acquire h hacq) (h.below _ _ _ hst)
      ((hst ▸ h.bottom _).replace (Or.inl rfl)) ?_
    rintro _ ⟨⟩
    refine ⟨rfl, (fun hl ↦ by cases hl), ?_, fun q hq ↦ ?_, trivial⟩
    · rintro _ ⟨⟩
      exact acquire_self hacq
    · rw [hrun] at hq
      rw [hproc]
      exact htop.entry q hq
  case sleepReturn lk =>
    obtain rfl := Option.some.inj hs
    exact h.pop hst ((hst ▸ h.bottom _).pop rfl) (.refl h) rfl htop.entry
  case yieldEnter =>
    obtain ⟨s₁, hacq, rfl⟩ := hs
    exact h.acquire hst htop.entry hacq (Or.inl rfl) rfl fun _ ↦ rfl
  case yieldState =>
    obtain rfl := Option.some.inj hs
    exact h.own hst hp rfl rfl rfl (by simp [Frame.holds]) rfl trivial
  case yieldSched => exact h.switchAway hst hp rfl hs (htop.entry p hp)
  case yieldLeave =>
    obtain ⟨s₁, hrel, rfl⟩ := hs
    exact h.pop hst ((hst ▸ h.bottom _).pop rfl) (.release h hrel) (release_same hrel).2 htop.entry
  case exitState =>
    obtain rfl := Option.some.inj hs
    exact h.own hst hp rfl rfl rfl (by simp [Frame.holds]) rfl trivial
  case exitSched => exact h.switchAway hst hp rfl hs (htop.entry p hp)

omit [DecidableEq κ] in
/-- One round of the loop of `wakeup1` takes one more process out of the way. -/
theorem wake_self (s : State κ n) (chan : ℕ) (q : Fin n) :
    ¬(((s.wake chan q).proc q).state = .sleeping ∧ ((s.wake chan q).proc q).chan = chan) := by
  rw [State.wake]
  split
  · rw [State.setState, State.setProc_self]
    simp
  · rename_i hno
    exact hno

omit [DecidableEq κ] in
theorem wake_of_ne (s : State κ n) (chan : ℕ) {q r : Fin n} (h : r ≠ q) :
    (s.wake chan q).proc r = s.proc r := by
  rw [State.wake]
  split
  · exact State.setProc_of_ne _ _ h
  · rfl

omit [DecidableEq κ] in
theorem wake_same (s : State κ n) (chan : ℕ) (q : Fin n) :
    (s.wake chan q).run = s.run ∧ (s.wake chan q).lock = s.lock := by
  rw [State.wake]
  split <;> exact ⟨rfl, rfl⟩

omit [DecidableEq κ] in
theorem wake_running {chan : ℕ} {q r : Fin n} (h : (s.proc r).state = .running) :
    (s.wake chan q).proc r = s.proc r := by
  obtain rfl | hne := eq_or_ne r q
  · rw [State.wake, if_neg]
    rw [h]
    simp
  · exact wake_of_ne s chan hne

omit [DecidableEq κ] in
/-- The processor that goes through the table wakes processes that are away. -/
theorem Inv.changeWake {chan : ℕ} (h : Inv s) (hlock : s.lock .ptable = some c)
    (hrun : ∀ q, s.run c = .inl q → (s.proc q).state = .running) (q : Fin n) :
    Change s (s.wake chan q) c := by
  rw [State.wake]
  split
  · rename_i hsl
    have hne : (s.proc q).state ≠ .running := by rw [hsl.1]; decide
    exact .wake h hlock (Or.inl hsl.1) (h.offline hlock (fun hq ↦ hne (hrun q hq)) hne)
  · exact .refl h

theorem Inv.stepWakeup (h : Inv s) (hst : s.stack (s.run c) = f :: rest)
    (hs : s.stepWakeup c rest f = some s') : Inv s' := by
  have htop := h.cpu c f rest hst
  have hbelow := h.below _ _ _ hst
  have hbottom := hst ▸ h.bottom (s.run c)
  cases f
  case wakeupEnter chan =>
    obtain ⟨s₁, hacq, rfl⟩ := Option.map_eq_some_iff.mp hs
    obtain ⟨hrun, hproc⟩ := acquire_same hacq
    refine h.setStack (.acquire h hacq) hbelow (hbottom.replace (Or.inl rfl)) ?_
    rintro _ ⟨⟩
    refine ⟨rfl, fun _ ↦ acquire_self hacq, (by rintro _ ⟨⟩), fun q hq ↦ ?_, fun q hq ↦ ?_⟩
    · rw [hrun] at hq
      rw [hproc]
      exact htop.entry q hq
    · exact absurd (List.mem_finRange q) hq
  case wakeupLoop chan l =>
    have hlock := htop.locks rfl
    cases l with
    | nil =>
      obtain rfl := Option.some.inj hs
      refine h.setStack (.refl h) hbelow (hbottom.replace (Or.inl rfl)) ?_
      rintro _ ⟨⟩
      exact ⟨rfl, fun _ ↦ hlock, (by rintro _ ⟨⟩), htop.entry, fun q ↦ htop.swept q (by simp)⟩
    | cons q l =>
      obtain rfl := Option.some.inj hs
      refine h.setStack (h.changeWake hlock htop.entry q) hbelow (hbottom.replace (Or.inl rfl)) ?_
      rintro _ ⟨⟩
      refine ⟨rfl, fun _ ↦ ?_, (by rintro _ ⟨⟩), fun r hr ↦ ?_, fun r hr ↦ ?_⟩
      · rw [(wake_same s chan q).2]
        exact hlock
      · rw [(wake_same s chan q).1] at hr
        have hrun := htop.entry r hr
        rw [wake_running hrun]
        exact hrun
      · obtain rfl | hne := eq_or_ne r q
        · exact wake_self s chan r
        · rw [wake_of_ne s chan hne]
          refine htop.swept r ?_
          rw [List.mem_cons, not_or]
          exact ⟨hne, hr⟩
  case wakeupLeave chan =>
    obtain ⟨s₁, hrel, rfl⟩ := Option.map_eq_some_iff.mp hs
    exact h.pop hst (hbottom.pop rfl) (.release h hrel) (release_same hrel).2 htop.entry
  all_goals cases hs

theorem Inv.stepSched (h : Inv s) (hst : s.stack (s.run c) = f :: rest) (hc : s.run c = .inr d)
    (hs : s.stepSched c rest f = some s') : Inv s' := by
  obtain rfl := h.run_sched c d hc
  have hno : ∀ q, s.run d = .inl q → (s.proc q).state = .running := by
    intro q hq
    rw [hc] at hq
    cases hq
  cases f
  case idle =>
    obtain ⟨s₁, hacq, rfl⟩ := Option.map_eq_some_iff.mp hs
    rw [← hc]
    exact h.acquire hst hno hacq (Or.inr rfl) rfl fun _ ↦ rfl
  case scan =>
    obtain ⟨s₁, hrel, rfl⟩ := Option.map_eq_some_iff.mp hs
    rw [← hc]
    exact h.release hst hno hrel (Or.inr rfl) rfl (by simp [Frame.locks])
  all_goals cases hs

theorem Inv.call (h : Inv s) (hf : f.plain = true) (hl : f.locks = true → s.lock .ptable = some c)
    (hs : s.call c f = some s') : Inv s' := by
  rw [State.call] at hs
  split at hs
  · rename_i l hst
    obtain rfl := Option.some.inj hs
    exact h.push hst rfl hf hl
  · cases hs

omit [DecidableEq κ] in
theorem Inv.stack_of_inCode (h : Inv s) (hcode : s.inCode c = true) :
    ∃ rest, s.stack (s.run c) = .code :: rest := by
  obtain ⟨f, rest, hst⟩ := (h.bottom (s.run c)).ne_nil
  rw [State.inCode, hst] at hcode
  have hf : f = .code := by simpa using hcode
  exact ⟨rest, hf ▸ hst⟩

omit [DecidableEq κ] in
theorem Inv.offline_of_inCode (h : Inv s) (hcode : s.inCode c = true)
    (hlock : s.lock .ptable = some c) (hne : (s.proc p).state ≠ .running) :
    ∀ d, s.run d ≠ .inl p := by
  obtain ⟨rest, hst⟩ := h.stack_of_inCode hcode
  exact h.offline hlock (fun hp ↦ hne ((h.cpu c _ rest hst).entry p hp)) hne

/-- Code that is not modelled takes or releases a lock, or wakes or starts a process. -/
theorem Inv.code (h : Inv s) (hcode : s.inCode c = true) (hch : Change s s' c)
    (hentry : ∀ q, s.run c = .inl q → (s'.proc q).state = (s.proc q).state) : Inv s' := by
  obtain ⟨rest, hst⟩ := h.stack_of_inCode hcode
  have htop := h.cpu c _ rest hst
  have hsame : s'.setStack (s.run c) (.code :: rest) = s' := by
    rw [State.setStack, ← hst, ← hch.stack, update_eq_self]
  rw [← hsame]
  refine h.setStack hch (h.below _ _ _ hst) (hst ▸ h.bottom _) ?_
  rintro _ ⟨⟩
  refine .of_plain rfl (fun hl ↦ by cases hl) fun q hq ↦ ?_
  rw [hch.run] at hq
  rw [hentry q hq]
  exact htop.entry q hq

theorem Inv.makeRunnable (h : Inv s) (hcode : s.inCode c = true) (hlock : s.lock .ptable = some c)
    (hst : (s.proc p).state = .sleeping ∨ (s.proc p).state = .embryo) :
    Inv (s.setState p .runnable) := by
  have hne : (s.proc p).state ≠ .running := by
    rcases hst with hst | hst <;> rw [hst] <;> decide
  have hoff := h.offline_of_inCode hcode hlock hne
  refine h.code hcode (.wake h hlock hst hoff) fun q hq ↦ ?_
  have hqp : q ≠ p := by
    rintro rfl
    exact hoff c hq
  rw [State.setState, State.setProc_of_ne _ _ hqp]

theorem Inv.callSleep {chan : ℕ} {lk : Lock} (h : Inv s) (hlock : s.lock lk = some c)
    (hs : s.call c (.sleepEnter chan lk) = some s') : Inv s' := by
  rw [State.call] at hs
  split at hs
  · rename_i l hst
    obtain rfl := Option.some.inj hs
    refine h.setStack (.refl h) (fun x hx ↦ ?_) (hst ▸ h.bottom _).push ?_
    · rcases List.mem_cons.mp hx with rfl | hx
      · rfl
      · exact h.below _ _ _ hst x hx
    · rintro _ ⟨⟩
      refine ⟨rfl, (fun hl ↦ by cases hl), ?_, (h.cpu c _ l hst).entry, trivial⟩
      rintro _ ⟨⟩
      exact hlock
  · cases hs

theorem Inv.step {a : Op κ n} (h : Inv s) (hs : Step s a s') : Inv s' := by
  rw [Step] at hs
  cases a with
  | step c =>
    simp only [State.exec] at hs
    split at hs
    · rename_i f rest p hst hp
      rcases Option.or_eq_some_iff.mp hs with hs | ⟨-, hs⟩
      · exact h.stepProc hst hp hs
      · exact h.stepWakeup hst hs
    · rename_i f rest d hst hc
      rcases Option.or_eq_some_iff.mp hs with hs | ⟨-, hs⟩
      · exact h.stepSched hst hc hs
      · exact h.stepWakeup hst hs
    · cases hs
  | acquire c l =>
    obtain ⟨hcode, hs⟩ := Option.ite_none_right_eq_some.mp hs
    exact h.code hcode (.acquire h hs) fun q _ ↦ by rw [(acquire_same hs).2]
  | release c l =>
    obtain ⟨hcode, hs⟩ := Option.ite_none_right_eq_some.mp hs
    exact h.code hcode (.release h hs) fun q _ ↦ by rw [(release_same hs).2]
  | sleep c chan lk =>
    obtain ⟨⟨-, hlock⟩, hs⟩ := Option.ite_none_right_eq_some.mp hs
    exact h.callSleep hlock hs
  | wakeup c chan => exact h.call rfl (by simp [Frame.locks]) hs
  | yield c =>
    obtain ⟨-, hs⟩ := Option.ite_none_right_eq_some.mp hs
    exact h.call rfl (by simp [Frame.locks]) hs
  | exit c =>
    obtain ⟨⟨-, hlock⟩, hs⟩ := Option.ite_none_right_eq_some.mp hs
    exact h.call rfl (fun _ ↦ hlock) hs
  | poke c p =>
    obtain ⟨⟨hcode, hlock, hsl⟩, heq⟩ := Option.ite_none_right_eq_some.mp hs
    obtain rfl := Option.some.inj heq
    exact h.makeRunnable hcode hlock (Or.inl hsl)
  | spawn c p =>
    obtain ⟨⟨hcode, hlock, hem⟩, heq⟩ := Option.ite_none_right_eq_some.mp hs
    obtain rfl := Option.some.inj heq
    exact h.makeRunnable hcode hlock (Or.inr hem)
  | interrupt c =>
    simp only [State.exec] at hs
    split at hs
    · rename_i f rest hst
      obtain ⟨⟨-, hopen⟩, heq⟩ := Option.ite_none_right_eq_some.mp hs
      obtain rfl := Option.some.inj heq
      exact h.push hst hopen rfl (by simp [Frame.locks])
    · cases hs
  | iret c =>
    simp only [State.exec] at hs
    split at hs
    · rename_i f rest hst
      obtain ⟨-, heq⟩ := Option.ite_none_right_eq_some.mp hs
      obtain rfl := Option.some.inj heq
      exact h.pop hst (hst ▸ h.bottom _).tail (.refl h) rfl (h.cpu c _ _ hst).entry
    · cases hs
  | choose c p =>
    simp only [State.exec] at hs
    split at hs
    · rename_i rest d hst hc
      exact h.switchTo hst hc hs
    · cases hs

omit [DecidableEq κ] in
theorem inv_initial (ready : Fin n → Bool) : Inv (initial κ ready) where
  locked := ⟨fun _ _ ↦ iff_of_false (by rintro ⟨⟩) List.not_mem_nil, fun _ ↦ List.nodup_nil⟩
  run_sched c d h := (Sum.inr.inj h).symm
  run_inj c d p h := by cases h
  below x f rest hx g hg := by
    cases x with
    | inl p =>
      obtain ⟨-, rfl⟩ := List.cons.inj hx
      rw [List.mem_singleton.mp hg]
      rfl
    | inr c =>
      obtain ⟨-, rfl⟩ := List.cons.inj hx
      cases hg
  bottom x := by
    cases x with
    | inl p => exact ⟨.code, rfl, rfl⟩
    | inr c => exact ⟨.idle, rfl, rfl⟩
  cpu c f rest hst := by
    obtain ⟨rfl, -⟩ := List.cons.inj hst
    exact .of_plain rfl (by rintro ⟨⟩) (by rintro q ⟨⟩)
  off p _ := by
    refine ⟨.yieldLeave, [.code], rfl, ?_⟩
    rw [initial]
    cases hr : ready p <;> simp [Frame.offCpu, hr]
  sched c h := absurd rfl h

/-- The process is in `sleep(chan, lk)` after `lk` was released, and has not been resumed. When `lk`
is `ptable.lock` the scheduler releases it. -/
def Frame.goesToSleep (chan : ℕ) (lk : Lock) (f : Frame n) : Prop :=
  f = .sleepChan chan lk ∨ f = .sleepState chan lk ∨ f = .sleepSched chan lk ∨ f = .asleep chan lk

omit [DecidableEq κ] in
/-- A process on its way to sleep holds `ptable.lock`. -/
theorem Inv.window {chan : ℕ} {lk : Lock} (h : Inv s) (hst : s.stack (.inl p) = f :: rest)
    (hf : f.goesToSleep chan lk) :
    f = .asleep chan lk ∨ ∃ c, s.run c = .inl p ∧ s.lock .ptable = some c := by
  by_cases hoff : ∀ d, s.run d ≠ .inl p
  · obtain ⟨g, l, hg, ho⟩ := h.off p hoff
    obtain ⟨rfl, -⟩ := List.cons.inj (hst.symm.trans hg)
    rcases hf with rfl | rfl | rfl | rfl
    · cases ho
    · cases ho
    · cases ho
    · exact Or.inl rfl
  · obtain ⟨d, hd⟩ := not_forall_not.mp hoff
    have htop := h.cpu d f rest (hd ▸ hst)
    refine Or.inr ⟨d, hd, ?_⟩
    rcases hf with rfl | rfl | rfl | rfl
    · exact htop.locks rfl
    · exact htop.locks rfl
    · exact htop.locks rfl
    · cases htop.present

/-- **No wake-up is lost.** When a `wakeup(chan)` has gone through the table, whoever performs it,
every process that has released `lk` in `sleep(chan, lk)` and has not been resumed yet is away and
`RUNNABLE`. And `sleep` returns with `lk` held. -/
theorem no_lost_wakeup {ready : Fin n → Bool} {hist : List (State κ n × Op κ n)}
    (t : Trace Step (initial κ ready) hist s) :
    (∀ c chan l, s.stack (s.run c) = .wakeupLeave chan :: l → ∀ p lk f rest,
      s.stack (.inl p) = f :: rest → f.goesToSleep chan lk →
      f = .asleep chan lk ∧ (s.proc p).state = .runnable) ∧
    ∀ p lk rest, s.stack (.inl p) = .sleepReturn lk :: rest →
      ∃ c, s.run c = .inl p ∧ s.lock lk = some c := by
  have h : Inv s := t.invariant (inv_initial ready) Inv.step
  refine ⟨fun c chan l hst p lk f rest hp hf ↦ ?_, fun p lk rest hp ↦ ?_⟩
  · have htop := h.cpu c _ l hst
    rcases h.window hp hf with rfl | ⟨d, hd, hlock⟩
    · refine ⟨rfl, ?_⟩
      have hoff : ∀ d, s.run d ≠ .inl p := by
        intro d hd
        cases (h.cpu d _ rest (hd ▸ hp)).present
      obtain ⟨g, m, hg, ho⟩ := h.off p hoff
      obtain ⟨rfl, -⟩ := List.cons.inj (hp.symm.trans hg)
      rcases ho with hrun | hsl
      · exact hrun
      · exact absurd hsl (htop.swept p)
    · -- the lock is held by the processor of `wakeup`, which executes another frame
      obtain rfl := Option.some.inj (hlock.symm.trans (htop.locks rfl))
      rw [← hd, hst] at hp
      obtain ⟨rfl, -⟩ := List.cons.inj hp
      rcases hf with hf | hf | hf | hf <;> cases hf
  · by_cases hoff : ∀ d, s.run d ≠ .inl p
    · obtain ⟨g, m, hg, ho⟩ := h.off p hoff
      obtain ⟨rfl, -⟩ := List.cons.inj (hp.symm.trans hg)
      cases ho
    · obtain ⟨d, hd⟩ := not_forall_not.mp hoff
      exact ⟨d, hd, (h.cpu d _ rest (hd ▸ hp)).holds lk rfl⟩

end Runs

/-- On one processor `p` sleeps on the channel 7 with a lock that is not `ptable.lock`; on the other
`q` takes the lock and wakes it up. -/
def sleepThenWakeup {n : ℕ} (p q : Fin n) : List (Op Bool n) :=
  [.step false, .choose false p, .step false, .acquire false (.other 1),
    .sleep false 7 (.other 1), .step false, .step false, .step false, .step false, .step false,
    .step false, .step true, .choose true q, .step true, .acquire true (.other 1),
    .wakeup true 7, .step true, .step true, .step true, .step true]

theorem no_lost_wakeup_twoProcessors :
    ∃ hist s, Trace Step (initial Bool fun _ : Fin 2 ↦ true) hist s ∧
      hist.map Prod.snd = sleepThenWakeup 0 1 ∧ (s.proc 0).state = .runnable := by
  have hrun : (execute State.exec (initial Bool fun _ : Fin 2 ↦ true) (sleepThenWakeup 0 1)).map
      (fun s ↦ (s.stack (s.run true), s.stack (.inl 0)))
      = some ([.wakeupLeave 7, .code], [.asleep 7 (.other 1), .code]) := by decide +kernel
  obtain ⟨hist, s, t, hlab, hend⟩ :
      ∃ hist s, Trace Step (initial Bool fun _ : Fin 2 ↦ true) hist s ∧ _ :=
    exists_trace_of_execute_map (fun _ _ _ ↦ id) hrun
  obtain ⟨hwake, hsleep⟩ := Prod.mk.inj hend
  have hgoes : (Frame.asleep 7 (.other 1) : Frame 2).goesToSleep 7 (.other 1) :=
    Or.inr (Or.inr (Or.inr rfl))
  exact ⟨hist, s, t, hlab,
    ((no_lost_wakeup t).1 true 7 _ hwake 0 (.other 1) _ _ hsleep hgoes).2⟩

/-- **The table and the processors.** Only with the lock held is a process on its way to `sched`
executed without being `RUNNING`. -/
theorem running_of_trace [DecidableEq κ] {ready : Fin n → Bool} {hist : List (State κ n × Op κ n)}
    (t : Trace Step (initial κ ready) hist s) (p : Fin n) :
    (∀ c d, s.run c = .inl p → s.run d = .inl p → c = d) ∧
      (s.lock .ptable = none → ((s.proc p).state = .running ↔ ∃ c, s.run c = .inl p)) := by
  have h : Inv s := t.invariant (inv_initial ready) Inv.step
  refine ⟨fun c d ↦ h.run_inj c d p, fun hfree ↦ ⟨fun hrun ↦ ?_, ?_⟩⟩
  · by_contra hoff
    obtain ⟨f, rest, -, ho⟩ := h.off p (not_exists.mp hoff)
    cases f <;> simp [Frame.offCpu, hrun] at ho
  · rintro ⟨c, hc⟩
    obtain ⟨f, rest, hst⟩ := (h.bottom (s.run c)).ne_nil
    have htop := h.cpu c f rest hst
    have hlocks := htop.locks
    have hentry := htop.entry p hc
    rw [hfree] at hlocks
    cases f <;> simp_all [Frame.onCpu, Frame.locks]

theorem running_of_trace_chosen : ∃ s, execute State.exec (initial Bool fun _ : Fin 2 ↦ true)
    ((sleepThenWakeup 0 1).take 3) = some s ∧ (s.proc 0).state = .running := by
  have hrun : (execute State.exec (initial Bool fun _ : Fin 2 ↦ true)
      ((sleepThenWakeup 0 1).take 3)).map (fun s ↦ (s.lock .ptable, s.run false)) =
      some (none, .inl 0) := by decide +kernel
  obtain ⟨s, hs, hend⟩ := Option.map_eq_some_iff.mp hrun
  obtain ⟨hfree, hc⟩ := Prod.mk.inj hend
  exact ⟨s, hs, ((running_of_trace (trace_of_execute (fun _ _ _ ↦ id) hs).1 0).2 hfree).mpr
    ⟨false, hc⟩⟩

end SistemasOperacionais.Xv6.Sleep
