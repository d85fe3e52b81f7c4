import SistemasOperacionais.Foundations.Trace
import SistemasOperacionais.Foundations.Threads

/-!
# Dining philosophers

`Filosofos.c` for any number `N` of philosophers. `phil_init` gives philosopher `a` the spoons `a`
and `a - 1`, and philosopher `0` the spoons `0` and `PHILOSOPHERS`. That last index is outside the
array, and it is not the spoon of philosopher `N - 1`: the table is not a ring but a path, with one
spoon too many.

Neighbours along the path never eat together, the pair `N - 1` and `0` may. On the other hand a
path cannot be full of philosophers who wait for each other, whatever the order in which they take
their spoons: whoever waits for the spoon in front waits for somebody further up, whoever waits for
the one behind for somebody further down.
-/

namespace SistemasOperacionais.Filosofos

open Foundations Function

/-! ## The program -/

/-- `phil_init`: the spoon behind philosopher `a`. -/
def back (N a : ℕ) : ℕ := if 0 < a then a - 1 else N

/-- `phil_init`: the spoon in front. -/
def front (a : ℕ) : ℕ := a

/-- The next step of `philo`, with the values that are carried along. -/
inductive Pc
  /-- the first `trylock` of `check_If_Spoons_Are_Available` -/
  | pensa
  /-- its second `trylock` -/
  | tenta (sum : ℕ)
  /-- `wait_for_others_to_finish(tmp, …)` -/
  | espera (tmp : ℕ)
  /-- the second `lock` of its case `11` -/
  | esperaOutra
  /-- `Eat` -/
  | come
  /-- the first `unlock` of `Release_Spoons` -/
  | solta
  /-- its second `unlock` -/
  | soltaOutra
deriving DecidableEq

/-- What a step does to the spoons. -/
inductive Operacao
  | trylock (k : ℕ)
  | lock (k : ℕ)
  | unlock (k : ℕ)
  | nenhuma

/-- The operation of each step, with the spoon it names. -/
def operacao (N a : ℕ) : Pc → Operacao
  | .pensa => if a % 2 = 1 then .trylock (front a) else .trylock (back N a)
  | .tenta _ => if a % 2 = 1 then .trylock (back N a) else .trylock (front a)
  | .espera tmp =>
    if tmp = 1 then .lock (back N a)
    else if tmp = 10 then .lock (front a)
    else if tmp = 11 then .lock (front a)
    else .nenhuma
  | .esperaOutra => .lock (back N a)
  | .come => .nenhuma
  | .solta => if a % 2 = 1 then .unlock (back N a) else .unlock (front a)
  | .soltaOutra => if a % 2 = 1 then .unlock (front a) else .unlock (back N a)

/-- Where the philosopher goes on; `ok` is the outcome of a `trylock`. -/
def depois (a : ℕ) (ok : Bool) : Pc → Pc
  | .pensa => .tenta (if ok then 0 else if a % 2 = 1 then 10 else 1)
  | .tenta sum =>
    let tmp := sum + if ok then 0 else if a % 2 = 1 then 1 else 10
    if tmp ≠ 0 then .espera tmp else .come
  | .espera tmp => if tmp = 11 then .esperaOutra else .come
  | .esperaOutra => .come
  | .come => .solta
  | .solta => .soltaOutra
  | .soltaOutra => .pensa

/-- The spoons; `true` while locked. -/
abbrev Colheres := ℕ → Bool

/-- The operation on the spoons; `none` while it has to wait. -/
def aplica (spoon : Colheres) : Operacao → Option (Colheres × Bool)
  | .trylock k => some (if spoon k then (spoon, false) else (update spoon k true, true))
  | .lock k => if spoon k then none else some (update spoon k true, true)
  | .unlock k => some (update spoon k false, true)
  | .nenhuma => some (spoon, true)

/-- One step of philosopher `a`. -/
def philo (N a : ℕ) (spoon : Colheres) (pc : Pc) : Option (Colheres × Pc) :=
  (aplica spoon (operacao N a pc)).map fun r ↦ (r.1, depois a r.2 pc)

variable {N : ℕ}

abbrev Estado (N : ℕ) := Threads Colheres Pc (Fin N)

def inicial (N : ℕ) : Estado N := ⟨fun _ ↦ false, fun _ ↦ .pensa⟩

def Passo (s : Estado N) (a : Fin N) (s' : Estado N) : Prop :=
  Threads.step (fun a : Fin N ↦ philo N a) s a = some s'

/-! ## Who holds which spoon -/

def temFrente (a : ℕ) : Pc → Prop
  | .pensa => False
  | .tenta sum => a % 2 = 1 ∧ sum = 0
  | .espera tmp => tmp = 1
  | .esperaOutra | .come | .solta => True
  | .soltaOutra => a % 2 = 1

def temTras (a : ℕ) : Pc → Prop
  | .pensa | .esperaOutra => False
  | .tenta sum => a % 2 = 0 ∧ sum = 0
  | .espera tmp => tmp = 10
  | .come | .solta => True
  | .soltaOutra => a % 2 = 0

def Segura (N a : ℕ) (pc : Pc) (k : ℕ) : Prop :=
  k = front a ∧ temFrente a pc ∨ k = back N a ∧ temTras a pc

/-- The codes that `check_If_Spoons_Are_Available` puts together. -/
def Valido (a : ℕ) : Pc → Prop
  | .tenta sum => sum = 0 ∨ sum = if a % 2 = 1 then 10 else 1
  | .espera tmp => tmp = 1 ∨ tmp = 10 ∨ tmp = 11
  | _ => True

theorem back_ne_front {a : ℕ} (h : a < N) : back N a ≠ front a := by
  unfold back front
  split_ifs <;> omega

/-- What a step does to the spoons and to what the philosopher holds. -/
inductive Efeito (N a : ℕ) (spoon : Colheres) (pc : Pc) : Colheres → Pc → Prop
  | nada {pc'} : (∀ l, Segura N a pc' l ↔ Segura N a pc l) → Efeito N a spoon pc spoon pc'
  | pega {pc' k} : spoon k = false → (∀ l, Segura N a pc' l ↔ Segura N a pc l ∨ l = k) →
      Efeito N a spoon pc (update spoon k true) pc'
  | larga {pc' k} : Segura N a pc k → (∀ l, Segura N a pc' l ↔ Segura N a pc l ∧ l ≠ k) →
      Efeito N a spoon pc (update spoon k false) pc'

theorem Valido.depois {a : ℕ} {pc : Pc} (hv : Valido a pc) (ok : Bool) :
    Valido a (depois a ok pc) := by
  cases pc with
  | pensa => cases ok <;> simp [Filosofos.depois, Valido]
  | tenta sum =>
    obtain hp | hp := Nat.mod_two_eq_zero_or_one a <;> obtain rfl | rfl := hv <;> cases ok <;>
      simp [Filosofos.depois, Valido, hp]
  | espera tmp => obtain rfl | rfl | rfl := hv <;> trivial
  | esperaOutra | come | solta | soltaOutra => trivial

section Effects

variable {a k : ℕ} {spoon sp : Colheres} {pc : Pc} {ok : Bool}

/-- A `trylock` takes the spoon or leaves everything as it is. -/
theorem Efeito.trylock (hap : aplica spoon (.trylock k) = some (sp, ok))
    (hfalha : ∀ l, Segura N a (depois a false pc) l ↔ Segura N a pc l)
    (hpega : ∀ l, Segura N a (depois a true pc) l ↔ Segura N a pc l ∨ l = k) :
    Efeito N a spoon pc sp (depois a ok pc) := by
  cases hk : spoon k <;> simp only [aplica, hk, if_true, Bool.false_eq_true, if_false,
    Option.some.injEq, Prod.mk.injEq] at hap <;> obtain ⟨rfl, rfl⟩ := hap
  · exact .pega hk hpega
  · exact .nada hfalha

theorem Efeito.lock (hap : aplica spoon (.lock k) = some (sp, ok))
    (hpega : ∀ l, Segura N a (depois a true pc) l ↔ Segura N a pc l ∨ l = k) :
    Efeito N a spoon pc sp (depois a ok pc) := by
  cases hk : spoon k <;> simp only [aplica, hk, if_true, Bool.false_eq_true, if_false,
    Option.some.injEq, Prod.mk.injEq, reduceCtorEq] at hap
  obtain ⟨rfl, rfl⟩ := hap
  exact .pega hk hpega

theorem Efeito.unlock (hap : aplica spoon (.unlock k) = some (sp, ok)) (hk : Segura N a pc k)
    (hlarga : ∀ l, Segura N a (depois a true pc) l ↔ Segura N a pc l ∧ l ≠ k) :
    Efeito N a spoon pc sp (depois a ok pc) := by
  obtain ⟨rfl, rfl⟩ := Prod.mk.inj (Option.some.inj hap)
  exact .larga hk hlarga

theorem efeito_of_aplica (ha : a < N) (hv : Valido a pc)
    (hap : aplica spoon (operacao N a pc) = some (sp, ok)) :
    Efeito N a spoon pc sp (depois a ok pc) := by
  have hne := back_ne_front ha
  cases pc with
  | pensa =>
    obtain hp | hp := Nat.mod_two_eq_zero_or_one a <;>
      simp only [operacao, hp, zero_ne_one, if_true, if_false] at hap <;>
      refine .trylock hap ?_ ?_ <;> simp [depois, Segura, temFrente, temTras, hp]
  | tenta sum =>
    obtain hp | hp := Nat.mod_two_eq_zero_or_one a <;> obtain rfl | rfl := hv <;>
      simp only [operacao, hp, zero_ne_one, if_true, if_false] at hap <;>
      refine .trylock hap ?_ ?_ <;> simp [depois, Segura, temFrente, temTras, hp]
    all_goals exact fun l ↦ or_comm
  | espera tmp =>
    obtain rfl | rfl | rfl := hv <;> refine .lock hap ?_ <;>
      simp [depois, Segura, temFrente, temTras]
    exact fun l ↦ or_comm
  | esperaOutra =>
    refine .lock hap ?_
    simp [depois, Segura, temFrente, temTras]
  | come =>
    obtain ⟨rfl, rfl⟩ := Prod.mk.inj (Option.some.inj hap)
    exact .nada fun _ ↦ Iff.rfl
  | solta =>
    obtain hp | hp := Nat.mod_two_eq_zero_or_one a <;>
      simp only [operacao, hp, zero_ne_one, if_true, if_false] at hap <;>
      refine .unlock hap ?_ ?_ <;> simp [depois, Segura, temFrente, temTras, hp]
    all_goals
      intro l
      omega
  | soltaOutra =>
    obtain hp | hp := Nat.mod_two_eq_zero_or_one a <;>
      simp only [operacao, hp, zero_ne_one, if_true, if_false] at hap <;>
      refine .unlock hap ?_ ?_ <;> simp [depois, Segura, temFrente, temTras, hp]

end Effects

/-- What a philosopher has taken is locked, by that philosopher only. -/
structure Invariante (s : Estado N) : Prop where
  valido : ∀ a : Fin N, Valido a (s.loc a)
  donos : Owned s.shared fun a : Fin N ↦ Segura N a (s.loc a)

theorem Invariante.inicial : Invariante (inicial N) where
  valido _ := trivial
  donos := ⟨by simp [Filosofos.inicial, Segura, temFrente, temTras],
    by simp [Filosofos.inicial, Segura, temFrente, temTras]⟩

theorem Invariante.passo {s s' : Estado N} {a : Fin N} (hi : Invariante s) (h : Passo s a s') :
    Invariante s' := by
  obtain ⟨sp, pc', hex, rfl⟩ := Threads.step_eq_some.mp h
  obtain ⟨⟨_, ok⟩, hap, heq⟩ := Option.map_eq_some_iff.mp hex
  obtain ⟨rfl, rfl⟩ := Prod.mk.inj heq
  constructor
  · intro b
    obtain rfl | hne := eq_or_ne b a
    · simpa using (hi.valido b).depois ok
    · simpa [hne] using hi.valido b
  · have hdonos := hi.donos
    cases efeito_of_aplica a.isLt (hi.valido a) hap with
    | nada hs => exact hdonos.keep hs
    | pega hk hs => exact hdonos.acquire hk hs
    | larga hk hs => exact hdonos.release hk hs

theorem invariante_of_reachable {s : Estado N} (h : Reachable Passo (inicial N) s) :
    Invariante s := by
  obtain ⟨hist, t⟩ := h
  exact t.invariant (I := Invariante) .inicial fun hi hs ↦ hi.passo hs

/-! ## The table is a path -/

section Sharing

variable {a b : ℕ} {pc : Pc}

theorem Segura.of_front (ha : a < N) (hne : b ≠ a) (h : Segura N b pc (front a)) :
    b = a + 1 ∧ temTras b pc := by
  obtain ⟨hk, -⟩ | ⟨hk, ht⟩ := h
  · exact absurd hk.symm hne
  · refine ⟨?_, ht⟩
    unfold front back at hk
    split_ifs at hk <;> omega

theorem Segura.of_back (ha : a < N) (hb : b < N) (hne : b ≠ a) (h : Segura N b pc (back N a)) :
    a = b + 1 ∧ temFrente b pc := by
  obtain ⟨hk, ht⟩ | ⟨hk, -⟩ := h
  · refine ⟨?_, ht⟩
    unfold front back at hk
    split_ifs at hk <;> omega
  · unfold back at hk
    split_ifs at hk <;> omega

theorem operacao_eq_lock {k : ℕ} (h : operacao N a pc = .lock k) :
    k = front a ∧ ¬temFrente a pc ∨ k = back N a ∧ ¬temTras a pc := by
  cases pc with
  | espera tmp =>
    simp only [operacao] at h
    split_ifs at h with h1 h10 h11 <;> cases h
    · exact Or.inr ⟨rfl, by simp [temTras, h1]⟩
    · exact Or.inl ⟨rfl, by simp [temFrente, h10]⟩
    · exact Or.inl ⟨rfl, by simp [temFrente, h11]⟩
  | esperaOutra =>
    cases h
    exact Or.inr ⟨rfl, id⟩
  | pensa | tenta _ | solta | soltaOutra => simp only [operacao] at h; split_ifs at h
  | come => cases h

theorem operacao_of_temTras {k : ℕ} (h : operacao N a pc = .lock k) (ht : temTras a pc) :
    k = front a := by
  obtain ⟨hk, -⟩ | ⟨-, hno⟩ := operacao_eq_lock h
  · exact hk
  · exact absurd ht hno

theorem operacao_of_temFrente {k : ℕ} (h : operacao N a pc = .lock k) (ht : temFrente a pc) :
    k = back N a := by
  obtain ⟨-, hno⟩ | ⟨hk, -⟩ := operacao_eq_lock h
  · exact absurd ht hno
  · exact hk

end Sharing

/-! ## Progress -/

/-- Philosopher `a` is about to lock spoon `k` and has to wait while somebody else holds it. -/
def Espera (s : Estado N) (a : Fin N) (k : ℕ) : Prop := operacao N a (s.loc a) = .lock k

/-- Everybody in `S` waits for a spoon that somebody in `S` holds. -/
def EsperaMutua (s : Estado N) (S : Set (Fin N)) : Prop :=
  ∀ a ∈ S, ∃ k, Espera s a k ∧ ∃ b ∈ S, Segura N b (s.loc b) k

namespace EsperaMutua

variable {s : Estado N} {S : Set (Fin N)}

/-- Waiting for the spoon in front goes on up to the end of the path, where nobody is. -/
theorem not_front (hS : EsperaMutua s S) {a : Fin N} (ha : a ∈ S) : ¬Espera s a (front a) := by
  intro hw
  -- the distance to the end of the path
  induction hd : N - a.val using Nat.strong_induction_on generalizing a with
  | _ d ih =>
    obtain ⟨k, hk, b, hb, hseg⟩ := hS a ha
    obtain rfl : k = front a := by
      rw [Espera, hw] at hk
      exact (Operacao.lock.inj hk).symm
    have hne : b ≠ a := by
      rintro rfl
      obtain ⟨-, hno⟩ | ⟨hback, -⟩ := operacao_eq_lock hw
      · obtain ⟨-, ht⟩ | ⟨hback, -⟩ := hseg
        · exact hno ht
        · exact back_ne_front b.isLt hback.symm
      · exact back_ne_front b.isLt hback.symm
    obtain ⟨hsucc, ht⟩ := hseg.of_front a.isLt (Fin.val_ne_of_ne hne)
    obtain ⟨k', hk', -⟩ := hS b hb
    have hfront : k' = front b := operacao_of_temTras hk' ht
    subst hfront
    have hlt := b.isLt
    exact ih (N - b.val) (by omega) hb hk' rfl

/-- Waiting for the spoon behind goes on down to philosopher `0`, who shares it with nobody. -/
theorem not_back (hS : EsperaMutua s S) {a : Fin N} (ha : a ∈ S) : ¬Espera s a (back N a) := by
  intro hw
  induction hd : a.val using Nat.strong_induction_on generalizing a with
  | _ d ih =>
    obtain ⟨k, hk, b, hb, hseg⟩ := hS a ha
    obtain rfl : k = back N a := by
      rw [Espera, hw] at hk
      exact (Operacao.lock.inj hk).symm
    have hne : b ≠ a := by
      rintro rfl
      obtain ⟨hback, -⟩ | ⟨-, hno⟩ := operacao_eq_lock hw
      · exact back_ne_front b.isLt hback
      · obtain ⟨hback, -⟩ | ⟨-, ht⟩ := hseg
        · exact back_ne_front b.isLt hback
        · exact hno ht
    obtain ⟨hsucc, ht⟩ := hseg.of_back a.isLt b.isLt (Fin.val_ne_of_ne hne)
    obtain ⟨k', hk', -⟩ := hS b hb
    have hback : k' = back N b := operacao_of_temFrente hk' ht
    subst hback
    exact ih b (by omega) hb hk' rfl

theorem eq_empty (hS : EsperaMutua s S) : S = ∅ := by
  refine Set.eq_empty_of_forall_notMem fun a ha ↦ ?_
  obtain ⟨k, hk, -⟩ := hS a ha
  obtain ⟨rfl, -⟩ | ⟨rfl, -⟩ := operacao_eq_lock hk
  · exact hS.not_front ha hk
  · exact hS.not_back ha hk

end EsperaMutua

theorem philo_eq_none {a : ℕ} {spoon : Colheres} {pc : Pc} (h : philo N a spoon pc = none) :
    ∃ k, operacao N a pc = .lock k ∧ spoon k = true := by
  rw [philo, Option.map_eq_none_iff] at h
  cases hop : operacao N a pc with
  | lock k =>
    rw [hop, aplica] at h
    split_ifs at h with hk
    exact ⟨k, rfl, hk⟩
  | trylock k | unlock k | nenhuma => rw [hop] at h; cases h

/-- If everybody were blocked, everybody would wait for a spoon that somebody holds. -/
theorem Invariante.exists_passo {s : Estado N} (hi : Invariante s) (hN : 0 < N) :
    ∃ a s', Passo s a s' := by
  by_contra hno
  have hmutua : EsperaMutua s Set.univ := by
    intro a _
    have hnone : philo N a s.shared (s.loc a) = none := by
      by_contra hsome
      obtain ⟨r, hr⟩ := Option.ne_none_iff_exists'.mp hsome
      exact hno ⟨a, Threads.exists_step hr⟩
    obtain ⟨k, hop, hk⟩ := philo_eq_none hnone
    obtain ⟨b, hb⟩ := (hi.donos.locked_iff k).mp hk
    exact ⟨k, hop, b, trivial, hb⟩
  exact absurd (hmutua.eq_empty ▸ Set.mem_univ (⟨0, hN⟩ : Fin N)) (Set.notMem_empty _)

theorem progresso (hN : 0 < N) {s : Estado N} (h : Reachable Passo (inicial N) s) :
    (∃ a s', Passo s a s') ∧ ∀ S : Set (Fin N), S.Nonempty → ¬EsperaMutua s S := by
  refine ⟨(invariante_of_reachable h).exists_passo hN, fun S hne hS ↦ ?_⟩
  exact hne.ne_empty hS.eq_empty

/-- Philosophers `0` and `3` eat, the others wait. -/
theorem progresso_cinco : ∃ s, Reachable Passo (inicial 5) s ∧
    s.loc 1 = .espera 1 ∧ s.loc 2 = .espera 11 ∧ s.loc 4 = .espera 1 ∧
    (∃ a s', Passo s a s') ∧ ∀ S : Set (Fin 5), S.Nonempty → ¬EsperaMutua s S := by
  have hrun : (execute (Threads.step fun a : Fin 5 ↦ philo 5 a) (inicial 5)
      [1, 3, 2, 4, 0, 3, 2, 4, 0, 1]).map (fun s ↦ (s.loc 1, s.loc 2, s.loc 4)) =
      some (.espera 1, .espera 11, .espera 1) := by
    decide +kernel
  obtain ⟨hist, s, t, -, hpcs⟩ : ∃ hist s, Trace Passo _ hist s ∧ _ :=
    exists_trace_of_execute_map (fun _ _ _ ↦ id) hrun
  obtain ⟨h1, h24⟩ := Prod.mk.inj hpcs
  obtain ⟨h2, h4⟩ := Prod.mk.inj h24
  exact ⟨s, ⟨hist, t⟩, h1, h2, h4, progresso (by decide) ⟨hist, t⟩⟩

/-! ## Exclusion -/

def Operacao.indice : Operacao → Option ℕ
  | .trylock k | .lock k | .unlock k => some k
  | .nenhuma => none

theorem front_or_back_of_mem_indice {a k : ℕ} {pc : Pc} (h : k ∈ (operacao N a pc).indice) :
    k = front a ∨ k = back N a := by
  unfold operacao at h
  split at h
  all_goals try split_ifs at h
  all_goals
    simp only [Operacao.indice, Option.mem_def, Option.some.injEq, reduceCtorEq] at h
  all_goals simp [← h]

/-- The step stays inside the array of spoons. -/
def IndiceValido (s : Estado N) (a : Fin N) : Prop :=
  ∀ k ∈ (operacao N a (s.loc a)).indice, k < N

/-- No two neighbours around the table eat at the same time. -/
def SemVizinhos (s : Estado N) : Prop :=
  ∀ a b : Fin N, b.val = (a.val + 1) % N → ¬(s.loc a = .come ∧ s.loc b = .come)

theorem Invariante.sem_vizinhos {s : Estado N} (hi : Invariante s) {a b : Fin N}
    (hab : b.val = a.val + 1) : ¬(s.loc a = .come ∧ s.loc b = .come) := by
  rintro ⟨ha, hb⟩
  have hfront : Segura N a (s.loc a) a := Or.inl ⟨rfl, by rw [ha]; trivial⟩
  have hback : Segura N b (s.loc b) a := by
    refine Or.inr ⟨?_, by rw [hb]; trivial⟩
    rw [back, if_pos (by omega)]
    omega
  have heq := hi.donos.unique hfront hback
  rw [heq] at hab
  omega

/-- Philosopher `0` is still thinking for the first time. -/
def ZeroParado (s : Estado N) : Prop := ∀ a : Fin N, a.val = 0 → s.loc a = .pensa

theorem ZeroParado.passo {s s' : Estado N} {a : Fin N} (hz : ZeroParado s) (ha : a.val ≠ 0)
    (h : Passo s a s') : ZeroParado s' := by
  obtain ⟨sp, pc', -, rfl⟩ := Threads.step_eq_some.mp h
  intro b hb
  have hne : b ≠ a := fun hba ↦ ha (hba ▸ hb)
  simpa [hne] using hz b hb

theorem ZeroParado.indiceValido_iff {s : Estado N} (hz : ZeroParado s) (a : Fin N) :
    a.val ≠ 0 ↔ IndiceValido s a := by
  constructor
  · intro ha k hk
    have hlt := a.isLt
    have hcases := front_or_back_of_mem_indice hk
    unfold front back at hcases
    split_ifs at hcases <;> omega
  · intro hidx ha
    have hN : N < N := by
      refine hidx N ?_
      rw [hz a ha, ha]
      rfl
    exact lt_irrefl N hN

theorem Invariante.semVizinhos {s : Estado N} (hi : Invariante s) (hz : ZeroParado s) :
    SemVizinhos s := by
  intro a b hab ⟨ha, hb⟩
  obtain hlt | hge := lt_or_ge (a.val + 1) N
  · rw [Nat.mod_eq_of_lt hlt] at hab
    exact hi.sem_vizinhos hab ⟨ha, hb⟩
  · have hzero : b.val = 0 := by
      have hmod : a.val + 1 = N := by omega
      rw [hab, hmod, Nat.mod_self]
    rw [hz b hzero] at hb
    cases hb

theorem guarded_indiceValido_iff {hist : List (Estado N × Fin N)} {s : Estado N}
    (t : Trace Passo (inicial N) hist s) :
    Trace.Guarded IndiceValido hist ↔ ∀ x ∈ hist, x.2.val ≠ 0 :=
  (t.guarded_congr (I := ZeroParado) (C := fun _ (a : Fin N) ↦ a.val ≠ 0) (fun _ _ ↦ rfl)
    (fun hz ha hs ↦ hz.passo ha hs) fun hz _ ↦ hz.indiceValido_iff _).symm

theorem exclusao_iff {hist : List (Estado N × Fin N)} {s : Estado N}
    (t : Trace Passo (inicial N) hist s) :
    (Trace.Guarded IndiceValido hist ∧ Trace.Everywhere SemVizinhos hist s) ↔
      ∀ x ∈ hist, x.2.val ≠ 0 := by
  rw [guarded_indiceValido_iff t]
  refine ⟨And.left, fun hparado ↦ ⟨hparado, ?_⟩⟩
  have hinv := t.everywhere_of_guard (I := fun s ↦ Invariante s ∧ ZeroParado s)
    (C := fun _ (a : Fin N) ↦ a.val ≠ 0) ⟨.inicial, fun _ _ ↦ rfl⟩
    (fun ⟨hi, hz⟩ ha hs ↦ ⟨hi.passo hs, hz.passo ha hs⟩) hparado
  exact hinv.imp fun ⟨hi, hz⟩ ↦ hi.semVizinhos hz

/-- Philosopher `3` eats and `2` waits for the spoon between them. -/
theorem exclusao_iff_cinco : ∃ hist s, Trace Passo (inicial 5) hist s ∧
    hist.map Prod.snd = [3, 3, 2, 2] ∧ s.loc 3 = .come ∧ s.loc 2 = .espera 10 ∧
    Trace.Everywhere SemVizinhos hist s := by
  have hrun : (execute (Threads.step fun a : Fin 5 ↦ philo 5 a) (inicial 5) [3, 3, 2, 2]).map
      (fun s ↦ (s.loc 3, s.loc 2)) = some (.come, .espera 10) := by
    decide +kernel
  obtain ⟨hist, s, t, hlab, hpcs⟩ : ∃ hist s, Trace Passo _ hist s ∧ _ :=
    exists_trace_of_execute_map (fun _ _ _ ↦ id) hrun
  obtain ⟨h3, h2⟩ := Prod.mk.inj hpcs
  have hparado : ∀ a ∈ hist.map Prod.snd, a.val ≠ 0 := by
    rw [hlab]
    decide
  exact ⟨hist, s, t, hlab, h3, h2,
    ((exclusao_iff t).mpr fun x hx ↦ hparado x.2 (List.mem_map_of_mem hx)).2⟩

/-- Philosophers `4` and `0` are neighbours and eat together; `0` uses spoon `5`. -/
theorem exclusao_fails : ∃ hist s, Trace Passo (inicial 5) hist s ∧
    hist.map Prod.snd = [4, 4, 0, 0] ∧ ¬Trace.Guarded IndiceValido hist ∧ ¬SemVizinhos s := by
  have hrun : (execute (Threads.step fun a : Fin 5 ↦ philo 5 a) (inicial 5) [4, 4, 0, 0]).map
      (fun s ↦ (s.loc 4, s.loc 0)) = some (.come, .come) := by
    decide +kernel
  obtain ⟨hist, s, t, hlab, hpcs⟩ : ∃ hist s, Trace Passo _ hist s ∧ _ :=
    exists_trace_of_execute_map (fun _ _ _ ↦ id) hrun
  refine ⟨hist, s, t, hlab, ?_, fun hok ↦ hok 4 0 rfl (Prod.mk.inj hpcs)⟩
  rw [guarded_indiceValido_iff t]
  intro hparado
  have hzero : (0 : Fin 5) ∈ hist.map Prod.snd := by simp [hlab]
  obtain ⟨x, hx, h0⟩ := List.mem_map.mp hzero
  exact hparado x hx (by rw [h0]; rfl)

end SistemasOperacionais.Filosofos
