import SistemasOperacionais.Xv6.Proc.Family
import SistemasOperacionais.Xv6.Proc.Slots

/-!
# Exits and waits

Every exit and every successful `wait` of a run is recorded, and the record is compared with the
table: the number of a process that is still there has not been returned by a `wait`, and the number
of one that has not exited is not among the exits. It follows that no exit is reported twice. Pids
are numbers modulo `2 ^ 32`, so they are as good as the numbers until that many processes have been
created.
-/

namespace SistemasOperacionais.Xv6.Proc

open Foundations Function

/-! ## The books of exits and waits -/

/-- The processes that have exited, by number. -/
def exited (log : List Event) : List ℕ :=
  log.filterMap fun
    | .exit num _ => some num
    | .wait .. => none

/-- The processes that a `wait` has returned. -/
def waited (log : List Event) : List ℕ :=
  log.filterMap fun
    | .exit .. => none
    | .wait _ _ num _ => some num

/-- The pids that the calls of `wait` have returned. -/
def waitedPids (log : List Event) : List (BitVec 32) :=
  log.filterMap fun
    | .exit .. => none
    | .wait _ _ _ pid => some pid

/-- What the record of a run says: every process exits at most once, is returned by at most one
`wait`, and by one that its parent made after the exit. -/
structure Reported (log : List Event) : Prop where
  exit_once : (exited log).Nodup
  wait_once : (waited log).Nodup
  by_parent : ∀ caller parent num pid, .wait caller parent num pid ∈ log → parent = some caller
  after_exit : ∀ l l' caller parent num pid, log = l ++ .wait caller parent num pid :: l' →
    .exit num pid ∈ l

/-- What ties the table to the record. -/
structure Books (s : State) : Prop where
  reported : Reported s.log
  num_lt : ∀ q, (s.proc q).state ≠ .unused → (s.proc q).num < s.nextpid
  num_inj : ∀ q r, (s.proc q).state ≠ .unused → (s.proc r).state ≠ .unused →
    (s.proc q).num = (s.proc r).num → q = r
  pid_eq : ∀ q, (s.proc q).state ≠ .unused → (s.proc q).pid = BitVec.ofNat 32 (s.proc q).num
  exit_lt : ∀ num pid, .exit num pid ∈ s.log → num < s.nextpid ∧ pid = BitVec.ofNat 32 num
  zombie : ∀ q, (s.proc q).state = .zombie →
    .exit (s.proc q).num (s.proc q).pid ∈ s.log ∧ (s.proc q).num ∉ waited s.log
  present : ∀ q, (s.proc q).state ≠ .unused → (s.proc q).state ≠ .zombie →
    (s.proc q).num ∉ exited s.log

/-- The used slots of `s'` hold the processes they held in `s`. -/
structure Same (s s' : State) : Prop where
  log_eq : s'.log = s.log
  nextpid_eq : s'.nextpid = s.nextpid
  entry : ∀ q, (s'.proc q).state ≠ .unused → (s.proc q).state ≠ .unused ∧
    (s'.proc q).num = (s.proc q).num ∧ (s'.proc q).pid = (s.proc q).pid ∧
    ((s'.proc q).state = .zombie ↔ (s.proc q).state = .zombie)

section Books

variable {s s' s'' : State} {p q : Slot}

theorem mem_exited {log : List Event} {num : ℕ} :
    num ∈ exited log ↔ ∃ pid, .exit num pid ∈ log := by
  simp only [exited, List.mem_filterMap]
  constructor
  · rintro ⟨e, he, heq⟩
    cases e with
    | exit n pid =>
      obtain rfl := Option.some.inj heq
      exact ⟨pid, he⟩
    | wait => cases heq
  · rintro ⟨pid, h⟩
    exact ⟨_, h, rfl⟩

theorem mem_waited {log : List Event} {num : ℕ} :
    num ∈ waited log ↔ ∃ caller parent pid, .wait caller parent num pid ∈ log := by
  simp only [waited, List.mem_filterMap]
  constructor
  · rintro ⟨e, he, heq⟩
    cases e with
    | exit => cases heq
    | wait caller parent n pid =>
      obtain rfl := Option.some.inj heq
      exact ⟨caller, parent, pid, he⟩
  · rintro ⟨caller, parent, pid, h⟩
    exact ⟨_, h, rfl⟩

theorem Reported.exited_of_waited {log : List Event} {num : ℕ} (h : Reported log)
    (hn : num ∈ waited log) : num ∈ exited log := by
  obtain ⟨caller, parent, pid, he⟩ := mem_waited.mp hn
  obtain ⟨l, l', heq⟩ := List.append_of_mem he
  have hexit := h.after_exit l l' caller parent num pid heq
  exact mem_exited.mpr ⟨pid, heq ▸ List.mem_append_left _ hexit⟩

namespace Same

theorem refl : Same s s := ⟨rfl, rfl, fun _ h ↦ ⟨h, rfl, rfl, Iff.rfl⟩⟩

theorem trans (h : Same s s') (h' : Same s' s'') : Same s s'' := by
  refine ⟨h'.log_eq.trans h.log_eq, h'.nextpid_eq.trans h.nextpid_eq, fun q hq ↦ ?_⟩
  obtain ⟨hu', hn', hp', hz'⟩ := h'.entry q hq
  obtain ⟨hu, hn, hp, hz⟩ := h.entry q hu'
  exact ⟨hu, hn'.trans hn, hp'.trans hp, hz'.trans hz⟩

theorem goto {pc : Pc} : Same s (s.goto p pc) := ⟨rfl, rfl, fun _ h ↦ ⟨h, rfl, rfl, Iff.rfl⟩⟩

theorem setProc {e : Entry} (he : e.state ≠ .unused → (s.proc p).state ≠ .unused ∧
    (e.state = .zombie ↔ (s.proc p).state = .zombie)) (hnum : e.num = (s.proc p).num)
    (hpid : e.pid = (s.proc p).pid) : Same s (s.setProc p e) := by
  refine ⟨rfl, rfl, fun q hq ↦ ?_⟩
  obtain rfl | hne := eq_or_ne q p
  · rw [State.setProc_self] at hq ⊢
    obtain ⟨hu, hz⟩ := he hq
    exact ⟨hu, hnum, hpid, hz⟩
  · rw [State.setProc_of_ne _ _ hne] at hq ⊢
    exact ⟨hq, rfl, rfl, Iff.rfl⟩

theorem setProc_of_ne {e : Entry} (hu : (s.proc p).state ≠ .unused)
    (hz : (s.proc p).state ≠ .zombie) (hez : e.state ≠ .zombie) (hnum : e.num = (s.proc p).num)
    (hpid : e.pid = (s.proc p).pid) : Same s (s.setProc p e) :=
  setProc (fun _ ↦ ⟨hu, iff_of_false hez hz⟩) hnum hpid

theorem wakeup1 {chan : Option Chan} : Same s (s.wakeup1 chan) := by
  refine ⟨rfl, rfl, fun q hq ↦ ?_⟩
  rw [State.wakeup1] at hq ⊢
  dsimp only at hq ⊢
  split
  · rename_i hsl
    rw [hsl.1]
    simp
  · rename_i hsl
    rw [if_neg hsl] at hq
    exact ⟨hq, rfl, rfl, Iff.rfl⟩

theorem abandon : Same s (s.abandon p q) := by
  have hset : Same s (s.setProc q { s.proc q with parent := some initproc }) :=
    setProc (fun hu ↦ ⟨hu, Iff.rfl⟩) rfl rfl
  rw [State.abandon]
  dsimp only
  split
  · split
    · exact hset.trans wakeup1
    · exact hset
  · exact refl

theorem foldl_abandon {l : List Slot} : Same s (l.foldl (State.abandon p) s) := by
  induction l generalizing s with
  | nil => exact refl
  | cons q l ih => exact abandon.trans ih

end Same

theorem Books.of_same (h : Books s) (hs : Same s s') : Books s' where
  reported := by
    rw [hs.log_eq]
    exact h.reported
  num_lt q hq := by
    obtain ⟨hu, hn, -, -⟩ := hs.entry q hq
    rw [hn, hs.nextpid_eq]
    exact h.num_lt q hu
  num_inj q r hq hr heq := by
    obtain ⟨huq, hnq, -, -⟩ := hs.entry q hq
    obtain ⟨hur, hnr, -, -⟩ := hs.entry r hr
    rw [hnq, hnr] at heq
    exact h.num_inj q r huq hur heq
  pid_eq q hq := by
    obtain ⟨hu, hn, hp, -⟩ := hs.entry q hq
    rw [hn, hp]
    exact h.pid_eq q hu
  exit_lt num pid he := by
    rw [hs.log_eq] at he
    rw [hs.nextpid_eq]
    exact h.exit_lt num pid he
  zombie q hq := by
    obtain ⟨-, hn, hp, hz⟩ := hs.entry q (by rw [hq]; decide)
    rw [hn, hp, hs.log_eq]
    exact h.zombie q (hz.mp hq)
  present q hu hz := by
    obtain ⟨hu', hn, -, hiff⟩ := hs.entry q hu
    rw [hn, hs.log_eq]
    exact h.present q hu' fun hz' ↦ hz (hiff.mpr hz')

theorem Books.take (h : Books s) (hu : (s.proc q).state = .unused) : Books (s.take q) := by
  have hother : ∀ x, x ≠ q → (s.take q).proc x = s.proc x := fun x hx ↦ State.setProc_of_ne _ _ hx
  have hself : (s.take q).proc q = { s.proc q with
      state := .embryo, pid := BitVec.ofNat 32 s.nextpid, num := s.nextpid } :=
    State.setProc_self ..
  refine ⟨h.reported, fun x hx ↦ ?_, fun x y hx hy heq ↦ ?_, fun x hx ↦ ?_, fun num pid he ↦ ?_,
    fun x hx ↦ ?_, fun x hx hz ↦ ?_⟩
  · obtain rfl | hne := eq_or_ne x q
    · rw [hself]
      exact Nat.lt_succ_self _
    · rw [hother x hne] at hx ⊢
      exact Nat.lt_succ_of_lt (h.num_lt x hx)
  · -- the new number is larger than all numbers in use
    obtain rfl | hxq := eq_or_ne x q
    · obtain rfl | hyx := eq_or_ne y x
      · rfl
      · rw [hother y hyx] at hy heq
        rw [hself] at heq
        exact absurd heq (h.num_lt y hy).ne'
    · rw [hother x hxq] at hx heq
      obtain rfl | hyq := eq_or_ne y q
      · rw [hself] at heq
        exact absurd heq (h.num_lt x hx).ne
      · rw [hother y hyq] at hy heq
        exact h.num_inj x y hx hy heq
  · obtain rfl | hne := eq_or_ne x q
    · rw [hself]
    · rw [hother x hne] at hx ⊢
      exact h.pid_eq x hx
  · obtain ⟨hlt, hpid⟩ := h.exit_lt num pid he
    exact ⟨Nat.lt_succ_of_lt hlt, hpid⟩
  · obtain rfl | hne := eq_or_ne x q
    · rw [hself] at hx
      cases hx
    · rw [hother x hne] at hx ⊢
      exact h.zombie x hx
  · obtain rfl | hne := eq_or_ne x q
    · rw [hself]
      intro hmem
      obtain ⟨pid, he⟩ := mem_exited.mp hmem
      exact absurd (h.exit_lt _ pid he).1 (lt_irrefl _)
    · rw [hother x hne] at hx hz ⊢
      exact h.present x hx hz

theorem exited_append (log : List Event) (e : Event) :
    exited (log ++ [e]) = exited log ++ exited [e] := List.filterMap_append

theorem waited_append (log : List Event) (e : Event) :
    waited (log ++ [e]) = waited log ++ waited [e] := List.filterMap_append

/-- A record with one more event, cut at a `wait`: the cut is in the old part or at the end. -/
theorem cut_append {log l l' : List Event} {e w : Event} (h : log ++ [e] = l ++ w :: l') :
    (l' = [] ∧ log = l ∧ e = w) ∨ ∃ m, log = l ++ w :: m := by
  rcases List.eq_nil_or_concat l' with rfl | ⟨m, x, rfl⟩
  · obtain ⟨hl, he⟩ := List.append_inj' h rfl
    exact Or.inl ⟨rfl, hl, (List.cons.inj he).1⟩
  · rw [List.concat_eq_append, ← List.cons_append, ← List.append_assoc] at h
    exact Or.inr ⟨m, (List.append_inj' h rfl).1⟩

theorem Reported.exit {log : List Event} {num : ℕ} {pid : BitVec 32} (h : Reported log)
    (hn : num ∉ exited log) : Reported (log ++ [.exit num pid]) := by
  refine ⟨?_, ?_, fun caller parent n pid' he ↦ ?_, fun l l' caller parent n pid' heq ↦ ?_⟩
  · rw [exited_append]
    exact List.concat_eq_append ▸ h.exit_once.concat hn
  · rw [waited_append]
    exact (List.append_nil _).symm ▸ h.wait_once
  · rcases List.mem_append.mp he with he | he
    · exact h.by_parent caller parent n pid' he
    · simp at he
  · rcases cut_append heq with ⟨-, -, hne⟩ | ⟨m, hm⟩
    · cases hne
    · exact h.after_exit l m caller parent n pid' hm

theorem Reported.wait {log : List Event} {caller : Slot} {num : ℕ} {pid : BitVec 32}
    (h : Reported log) (hn : num ∉ waited log) (he : .exit num pid ∈ log) :
    Reported (log ++ [.wait caller (some caller) num pid]) := by
  refine ⟨?_, ?_, fun c parent n pid' hmem ↦ ?_, fun l l' c parent n pid' heq ↦ ?_⟩
  · rw [exited_append]
    exact (List.append_nil _).symm ▸ h.exit_once
  · rw [waited_append]
    exact List.concat_eq_append ▸ h.wait_once.concat hn
  · rcases List.mem_append.mp hmem with hmem | hmem
    · exact h.by_parent c parent n pid' hmem
    · rw [List.mem_singleton] at hmem
      cases hmem
      rfl
  · rcases cut_append heq with ⟨-, rfl, hw⟩ | ⟨m, hm⟩
    · cases hw
      exact he
    · exact h.after_exit l m c parent n pid' hm

theorem Books.die (h : Books s) (hp : (s.proc p).state = .running) : Books (s.die p) := by
  have hother : ∀ x, x ≠ p → (s.die p).proc x = s.proc x := fun x hx ↦ State.setProc_of_ne _ _ hx
  have hself : (s.die p).proc p = { s.proc p with state := .zombie } := State.setProc_self ..
  have hlog : (s.die p).log = s.log ++ [.exit (s.proc p).num (s.proc p).pid] := rfl
  have hused : (s.proc p).state ≠ .unused := by rw [hp]; decide
  have hnew := h.present p hused (by rw [hp]; decide)
  have hwaited : waited (s.die p).log = waited s.log := by
    rw [hlog, waited_append]
    exact List.append_nil _
  have huse : ∀ x, ((s.die p).proc x).state ≠ .unused → (s.proc x).state ≠ .unused := by
    intro x hx
    obtain rfl | hne := eq_or_ne x p
    · exact hused
    · rwa [hother x hne] at hx
  have hnum : ∀ x, ((s.die p).proc x).num = (s.proc x).num := by
    intro x
    obtain rfl | hne := eq_or_ne x p
    · rw [hself]
    · rw [hother x hne]
  have hpid : ∀ x, ((s.die p).proc x).pid = (s.proc x).pid := by
    intro x
    obtain rfl | hne := eq_or_ne x p
    · rw [hself]
    · rw [hother x hne]
  refine ⟨?_, fun x hx ↦ ?_, fun x y hx hy heq ↦ ?_, fun x hx ↦ ?_, fun num pid he ↦ ?_,
    fun x hx ↦ ?_, fun x hx hz ↦ ?_⟩
  · rw [hlog]
    exact h.reported.exit hnew
  · rw [hnum]
    exact h.num_lt x (huse x hx)
  · rw [hnum, hnum] at heq
    exact h.num_inj x y (huse x hx) (huse y hy) heq
  · rw [hpid, hnum]
    exact h.pid_eq x (huse x hx)
  · rw [hlog, List.mem_append, List.mem_singleton] at he
    rcases he with he | he
    · exact h.exit_lt num pid he
    · cases he
      exact ⟨h.num_lt p hused, h.pid_eq p hused⟩
  · rw [hwaited, hnum, hpid, hlog]
    obtain rfl | hne := eq_or_ne x p
    · exact ⟨by simp, fun hw ↦ hnew (h.reported.exited_of_waited hw)⟩
    · rw [hother x hne] at hx
      obtain ⟨he, hw⟩ := h.zombie x hx
      exact ⟨List.mem_append_left _ he, hw⟩
  · obtain rfl | hne := eq_or_ne x p
    · rw [hself] at hz
      exact absurd rfl hz
    · have hux := huse x hx
      rw [hother x hne] at hz ⊢
      rw [hlog, exited_append, List.mem_append, not_or]
      refine ⟨h.present x hux hz, fun hmem ↦ hne (h.num_inj x p hux hused ?_)⟩
      exact List.mem_singleton.mp hmem

theorem Books.reap (h : Books s) (hq : (s.proc q).parent = some p)
    (hz : (s.proc q).state = .zombie) : Books (s.reap p q) := by
  have hother : ∀ x, x ≠ q → (s.reap p q).proc x = s.proc x := fun x hx ↦ State.setProc_of_ne _ _ hx
  have hself : ((s.reap p q).proc q).state = .unused := by
    rw [State.reap, State.setProc_self]
  have hlog : (s.reap p q).log = s.log ++ [.wait p (some p) (s.proc q).num (s.proc q).pid] := by
    rw [← hq]
    rfl
  have hne : ∀ x, ((s.reap p q).proc x).state ≠ .unused → x ≠ q := by
    rintro x hx rfl
    exact hx hself
  have huz : (s.proc q).state ≠ .unused := by rw [hz]; decide
  have hexited : exited (s.reap p q).log = exited s.log := by
    rw [hlog, exited_append]
    exact List.append_nil _
  obtain ⟨hexit, hwait⟩ := h.zombie q hz
  refine ⟨?_, fun x hx ↦ ?_, fun x y hx hy heq ↦ ?_, fun x hx ↦ ?_, fun num pid he ↦ ?_,
    fun x hx ↦ ?_, fun x hx hzx ↦ ?_⟩
  · rw [hlog]
    exact h.reported.wait hwait hexit
  · have hxq := hne x hx
    rw [hother x hxq] at hx ⊢
    exact h.num_lt x hx
  · have hxq := hne x hx
    have hyq := hne y hy
    rw [hother x hxq] at hx heq
    rw [hother y hyq] at hy heq
    exact h.num_inj x y hx hy heq
  · have hxq := hne x hx
    rw [hother x hxq] at hx ⊢
    exact h.pid_eq x hx
  · rw [hlog, List.mem_append, List.mem_singleton] at he
    rcases he with he | he
    · exact h.exit_lt num pid he
    · cases he
  · have hxq := hne x (by rw [hx]; decide)
    rw [hother x hxq] at hx ⊢
    obtain ⟨he, hw⟩ := h.zombie x hx
    rw [hlog, waited_append]
    refine ⟨List.mem_append_left _ he, fun hmem ↦ ?_⟩
    rcases List.mem_append.mp hmem with hmem | hmem
    · exact hw hmem
    · exact hxq (h.num_inj x q (by rw [hx]; decide) huz (List.mem_singleton.mp hmem))
  · have hxq := hne x hx
    rw [hother x hxq] at hx hzx ⊢
    rw [hexited]
    exact h.present x hx hzx

theorem Same.of_alive {e : Entry} (hp : (s.proc p).state.alive = true) (he : e.state.alive = true)
    (hnum : e.num = (s.proc p).num) (hpid : e.pid = (s.proc p).pid) : Same s (s.setProc p e) := by
  refine .setProc_of_ne ?_ ?_ ?_ hnum hpid
  · intro hu
    rw [hu] at hp
    cases hp
  · intro hz
    rw [hz] at hp
    cases hp
  · intro hz
    rw [hz] at he
    cases he

theorem Books.wait (h : Books s) (hp : (s.proc p).state = .running) : Books (s.wait p) := by
  rw [State.wait]
  split
  · rename_i q hscan
    obtain ⟨hpar, hz⟩ := scan_zombie hscan
    exact (h.reap hpar hz).of_same .goto
  · split
    · exact h.of_same .goto
    · have hsleep : Same s (s.setProc p { s.proc p with
          chan := some (.proc p), state := .sleeping }) :=
        .of_alive (by rw [hp]; rfl) rfl rfl rfl
      exact h.of_same (hsleep.trans .goto)

theorem Books.resume (h : Books s) (hp : (s.proc p).state = .runnable) : Books (s.resume p) := by
  have hrun : Same s (s.setProc p { s.proc p with state := .running, chan := none }) :=
    .of_alive (by rw [hp]; rfl) rfl rfl rfl
  rw [State.resume]
  dsimp only
  split
  · exact (h.of_same hrun).wait (by rw [State.setProc_self])
  · exact h.of_same hrun

theorem Books.exit (h : Books s) (hinv : Inv s) (hp : (s.proc p).state = .running)
    (hpc : s.pc p = .exiting) : Books (s.exit p) := by
  have hsame : Same s ((s.wakeup1 ((s.proc p).parent.map .proc)).passChildren p) :=
    Same.wakeup1.trans .foldl_abandon
  exact (h.of_same hsame).die (hinv.leaving hp hpc).state

theorem Same.kill {pid : BitVec 32} : Same s (s.kill pid).1 := by
  rw [State.kill]
  split
  · exact .refl
  · rename_i q hq
    refine .setProc (fun hu ↦ ?_) rfl rfl
    dsimp only at hu ⊢
    split at hu
    · rename_i hsl
      rw [hsl]
      simp
    · rename_i hsl
      rw [if_neg hsl]
      exact ⟨hu, Iff.rfl⟩

theorem Same.of_embryo {st : Procstate} (hq : (s.proc q).state = .embryo) (hst : st ≠ .zombie) :
    Same s (s.setState q st) :=
  .setProc (fun _ ↦ ⟨by rw [hq]; decide, iff_of_false hst (by rw [hq]; decide)⟩) rfl rfl

theorem Books.step {a : Op} (h : Books s) (hinv : Inv s) (hs : Step s a s') : Books s' := by
  have hembryo : ∀ {p np}, (s.pc p).child = some np → (s.proc np).state = .embryo :=
    fun hc ↦ (hinv.child _ _ hc).2
  cases hs.move with
  | scheduler hst => exact h.resume hst
  | yield hst => exact h.of_same (.of_alive (by rw [hst]; rfl) rfl rfl rfl)
  | sleep hst hpc => exact h.of_same (.of_alive (by rw [hst]; rfl) rfl rfl rfl)
  | wakeup => exact h.of_same .wakeup1
  | allocproc hst hpc =>
    rw [State.allocproc]
    split
    · exact h
    · rename_i np hnp
      exact (h.take (by simpa using List.find?_some hnp)).of_same .goto
  | kalloc hst hpc => exact h.of_same .goto
  | copyuvm hst hpc => exact h.of_same .goto
  | kallocFails hst hpc =>
    exact h.of_same ((Same.of_embryo (hembryo (by rw [hpc]; rfl)) (by decide)).trans .goto)
  | copyuvmFails hst hpc =>
    exact h.of_same ((Same.of_embryo (hembryo (by rw [hpc]; rfl)) (by decide)).trans .goto)
  | @parent p np hst hpc =>
    have hset : Same s (s.setProc np { s.proc np with parent := some p }) :=
      .setProc (fun hu ↦ ⟨hu, Iff.rfl⟩) rfl rfl
    exact h.of_same (hset.trans .goto)
  | ready hst hpc =>
    exact h.of_same ((Same.of_embryo (hembryo (by rw [hpc]; rfl)) (by decide)).trans .goto)
  | close hst hpc hne => exact h.of_same .goto
  | exit hst hpc => exact h.exit hinv hst hpc
  | wait hst hpc => exact h.wait hst
  | kill hst hpc => exact h.of_same .kill

theorem inv_initial : Inv initial := by
  have hrest : ∀ q, q ≠ initproc → initial.proc q = ⟨.unused, 0, none, none, false, 0⟩ :=
    fun q hq ↦ if_neg hq
  have hinit : initial.proc initproc = ⟨.runnable, 1, none, none, false, 1⟩ := rfl
  have hparent : ∀ q, (initial.proc q).parent = none := by
    intro q
    obtain rfl | hq := eq_or_ne q initproc
    · rw [hinit]
    · rw [hrest q hq]
  refine ⟨?_, by simp [initial], hparent _, fun q ↦ ?_, fun q r hr ↦ ?_, fun q hq hst ↦ ?_,
    by simp [initial], by simp [initial, Pc.child], by simp [initial, Pc.child],
    by simp [initial], fun _ _ ↦ rfl⟩
  · rw [hinit]
    rfl
  · rw [hparent]
    simp
  · rw [hparent] at hr
    cases hr
  · rw [hrest q hq] at hst
    cases hst

theorem books_initial : Books initial := by
  have hinit : initial.proc initproc = ⟨.runnable, 1, none, none, false, 1⟩ := rfl
  have hused : ∀ q, (initial.proc q).state ≠ .unused → q = initproc := by
    intro q hq
    by_contra hne
    exact hq (by rw [initial]; simp [hne])
  refine ⟨⟨List.nodup_nil, List.nodup_nil, by simp [initial], by simp [initial]⟩, fun q hq ↦ ?_,
    fun q r hq hr _ ↦ (hused q hq).trans (hused r hr).symm, fun q hq ↦ ?_, by simp [initial],
    fun q hq ↦ ?_, by simp [initial, exited]⟩
  · rw [hused q hq, hinit]
    decide
  · rw [hused q hq, hinit]
    rfl
  · have hqi := hused q (by rw [hq]; decide)
    rw [hqi, hinit] at hq
    cases hq

end Books

/-! ## Runs -/

/-- Every process that has started, init apart, has a parent that can collect it, and nobody sleeps
in `wait` over a zombie. -/
structure Family (s : State) : Prop where
  parent : ∀ p, p ≠ initproc → (s.proc p).state ≠ .unused → (s.proc p).state ≠ .embryo →
    ∃ q, (s.proc p).parent = some q ∧ (s.proc q).state ≠ .unused ∧ (s.proc q).state ≠ .embryo ∧
      (s.proc q).state ≠ .zombie
  waiting : ∀ p q, s.pc p = .waiting → (s.proc p).state = .sleeping →
    (s.proc q).parent = some p → (s.proc q).state ≠ .zombie

theorem Procstate.alive_iff {st : Procstate} :
    st.alive = true ↔ st ≠ .unused ∧ st ≠ .embryo ∧ st ≠ .zombie := by
  cases st <;> decide

theorem Procstate.started_iff {st : Procstate} :
    st.started = true ↔ st ≠ .unused ∧ st ≠ .embryo := by
  cases st <;> decide

theorem Inv.family {s : State} (h : Inv s) : Family s := by
  refine ⟨fun p hp hu he ↦ ?_, fun p q hw hsl hq ↦ ?_⟩
  · have hsome := h.has_parent p hp (Procstate.started_iff.mpr ⟨hu, he⟩)
    obtain ⟨q, hq⟩ := Option.ne_none_iff_exists'.mp hsome
    exact ⟨q, hq, Procstate.alive_iff.mp (h.parent_alive p q hq)⟩
  · rcases h.waiting p hw with hrun | ⟨-, -, hkids⟩
    · rw [hsl] at hrun
      cases hrun
    · exact hkids q hq

theorem waitedPids_eq {log : List Event}
    (h : ∀ caller parent num pid, .wait caller parent num pid ∈ log → pid = BitVec.ofNat 32 num) :
    waitedPids log = (waited log).map (BitVec.ofNat 32) := by
  induction log with
  | nil => rfl
  | cons e log ih =>
    have hrest := ih fun c r n i hmem ↦ h c r n i (List.mem_cons_of_mem _ hmem)
    cases e with
    | exit num pid => exact hrest
    | wait caller parent num pid =>
      have hpid := h caller parent num pid List.mem_cons_self
      exact congrArg₂ List.cons hpid hrest

/-- The pids returned are those of the numbers, so they are distinct until `nextpid` wraps. -/
theorem Books.pids_nodup {s : State} (h : Books s) (hs : s.nextpid ≤ 2 ^ 32) :
    (waitedPids s.log).Nodup := by
  have hpid : ∀ caller parent num pid, .wait caller parent num pid ∈ s.log →
      num < s.nextpid ∧ pid = BitVec.ofNat 32 num := by
    intro caller parent num pid hmem
    obtain ⟨l, l', heq⟩ := List.append_of_mem hmem
    have hexit := h.reported.after_exit l l' caller parent num pid heq
    exact h.exit_lt num pid (heq ▸ List.mem_append_left _ hexit)
  have hlt : ∀ n ∈ waited s.log, n < 2 ^ 32 := by
    intro n hn
    obtain ⟨caller, parent, pid, hmem⟩ := mem_waited.mp hn
    exact (hpid caller parent n pid hmem).1.trans_le hs
  rw [waitedPids_eq fun c r n i hmem ↦ (hpid c r n i hmem).2]
  refine h.reported.wait_once.map_on fun x hx y hy hxy ↦ ?_
  have heq := congrArg BitVec.toNat hxy
  rwa [BitVec.toNat_ofNat, BitVec.toNat_ofNat, Nat.mod_eq_of_lt (hlt x hx),
    Nat.mod_eq_of_lt (hlt y hy)] at heq

/-- **No exit is missed.** -/
theorem no_exit_missed {hist : List (State × Op)} {s : State} (t : Trace Step initial hist s) :
    Trace.Everywhere Family hist s ∧ Reported s.log ∧
      (s.nextpid ≤ 2 ^ 32 → (waitedPids s.log).Nodup) := by
  have hinv := t.everywhere_of_guard (C := fun _ _ ↦ True) inv_initial (fun h _ hs ↦ h.step hs)
    fun _ _ ↦ trivial
  have hbooks : Inv s ∧ Books s := t.invariant (I := fun s ↦ Inv s ∧ Books s)
    ⟨inv_initial, books_initial⟩ fun h hs ↦ ⟨h.1.step hs, h.2.step h.1 hs⟩
  exact ⟨hinv.imp Inv.family, hbooks.2.reported, hbooks.2.pids_nodup⟩

def third : Slot := ⟨2, by decide⟩

/-- A complete `fork` by `p`. -/
def forks (p : Slot) : List Op :=
  [.allocproc p, .kalloc p true, .copyuvm p true, .parent p, .ready p]

/-- init sleeps in `wait`; its child forks, the grandchild exits, and then the child does, which
leaves init a zombie to collect besides its own child. -/
def orphan : List Op :=
  [.scheduler initproc] ++ forks initproc ++ [.wait initproc, .scheduler second] ++ forks second ++
    [.scheduler third, .close third, .exit third, .close second, .exit second,
      .scheduler initproc, .wait initproc]

theorem no_exit_missed_orphan :
    ∃ hist s, Trace Step initial hist s ∧ hist.map Prod.snd = orphan ∧ Reported s.log ∧
      waitedPids s.log = [2, 3] := by
  have hrun : (execute State.exec initial orphan).map (fun s ↦ waitedPids s.log) = some [2, 3] := by
    decide +kernel
  obtain ⟨hist, s, t, hlab, hend⟩ : ∃ hist s, Trace Step initial hist s ∧ _ :=
    exists_trace_of_execute_map (fun _ _ _ ↦ id) hrun
  exact ⟨hist, s, t, hlab, (no_exit_missed t).2.1, hend⟩

/-- **A pid names one process**, until `nextpid` wraps. -/
theorem pid_inj {hist : List (State × Op)} {s : State} (t : Trace Step initial hist s)
    (hwrap : s.nextpid ≤ 2 ^ 32) {q r : Slot} (hq : (s.proc q).state ≠ .unused)
    (hr : (s.proc r).state ≠ .unused) (hpid : (s.proc q).pid = (s.proc r).pid) : q = r := by
  obtain ⟨-, h⟩ : Inv s ∧ Books s := t.invariant (I := fun s ↦ Inv s ∧ Books s)
    ⟨inv_initial, books_initial⟩ fun h hs ↦ ⟨h.1.step hs, h.2.step h.1 hs⟩
  rw [h.pid_eq q hq, h.pid_eq r hr] at hpid
  have hnum := congrArg BitVec.toNat hpid
  rw [BitVec.toNat_ofNat, BitVec.toNat_ofNat, Nat.mod_eq_of_lt ((h.num_lt q hq).trans_le hwrap),
    Nat.mod_eq_of_lt ((h.num_lt r hr).trans_le hwrap)] at hnum
  exact h.num_inj q r hq hr hnum

theorem pid_inj_forks : ∃ s, execute State.exec initial (.scheduler initproc :: forks initproc) =
    some s ∧ (s.proc initproc).pid ≠ (s.proc second).pid := by
  have hrun : (execute State.exec initial (.scheduler initproc :: forks initproc)).map
      (fun s ↦ (s.nextpid, (s.proc initproc).state, (s.proc second).state)) =
      some (3, .running, .runnable) := by decide +kernel
  obtain ⟨s, hs, hend⟩ := Option.map_eq_some_iff.mp hrun
  simp only [Prod.mk.injEq] at hend
  refine ⟨s, hs, fun heq ↦ absurd (pid_inj (trace_of_execute (fun _ _ _ ↦ id) hs).1 ?_ ?_ ?_ heq)
    (by decide)⟩ <;> simp [hend]

end SistemasOperacionais.Xv6.Proc
