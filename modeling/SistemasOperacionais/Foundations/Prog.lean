import Mathlib.Tactic

/-!
# Programs that change a state and may stop

A program takes a state to a result and a state, or stops with an error. `Spec E x s Q` is the rule
for it: the run of `x` from `s` returns with `Q`, or stops with an error in `E`. With `E` false it
says that `x` does not stop. The rules follow the program text.
-/

namespace Foundations

/-- What is left of a run. -/
structure Result (σ ε α : Type) where
  val : Except ε α
  state : σ

/-- Programs on states `σ`, with errors `ε`. -/
def Prog (σ ε α : Type) : Type := σ → Result σ ε α

namespace Prog

variable {σ ε α β : Type}

/-- Go on after `x`. -/
def next (x : Result σ ε α) (f : α → Prog σ ε β) : Result σ ε β :=
  match x.val with
  | .ok a => f a x.state
  | .error e => ⟨.error e, x.state⟩

instance : Monad (Prog σ ε) where
  pure a := fun s ↦ ⟨.ok a, s⟩
  bind x f := fun s ↦ next (x s) f

def get : Prog σ ε σ := fun s ↦ ⟨.ok s, s⟩

def set (s : σ) : Prog σ ε Unit := fun _ ↦ ⟨.ok (), s⟩

def modify (f : σ → σ) : Prog σ ε Unit := fun s ↦ ⟨.ok (), f s⟩

def stop (e : ε) : Prog σ ε α := fun s ↦ ⟨.error e, s⟩

/-- The run of `x` from `s` returns with `Q`, or stops with an error in `E`. -/
def Spec (E : ε → Prop) (x : Prog σ ε α) (s : σ) (Q : α → σ → Prop) : Prop :=
  (∃ a, (x s).val = .ok a ∧ Q a (x s).state) ∨ ∃ e, (x s).val = .error e ∧ E e

variable {E : ε → Prop} {s : σ} {x : Prog σ ε α} {Q R : α → σ → Prop}

theorem spec_pure {a : α} (h : Q a s) : Spec E (pure a) s Q := .inl ⟨a, rfl, h⟩

theorem spec_get {Q : σ → σ → Prop} (h : Q s s) : Spec E get s Q := .inl ⟨s, rfl, h⟩

theorem spec_set {s' : σ} {Q : Unit → σ → Prop} (h : Q () s') : Spec E (set s') s Q :=
  .inl ⟨(), rfl, h⟩

theorem spec_modify {f : σ → σ} {Q : Unit → σ → Prop} (h : Q () (f s)) :
    Spec E (modify f) s Q := .inl ⟨(), rfl, h⟩

theorem spec_stop {e : ε} (h : E e) : Spec E (stop e) s Q := .inr ⟨e, rfl, h⟩

theorem Spec.imp (h : Spec E x s Q) (hQ : ∀ a s', Q a s' → R a s') : Spec E x s R := by
  rcases h with ⟨a, hx, ha⟩ | herror
  · exact .inl ⟨a, hx, hQ a _ ha⟩
  · exact .inr herror

/-- Nothing is said about `x`. -/
theorem spec_any (hE : ∀ e, E e) (hQ : ∀ a s', Q a s') : Spec E x s Q := by
  cases hx : (x s).val with
  | ok a => exact .inl ⟨a, hx, hQ a _⟩
  | error e => exact .inr ⟨e, hx, hE e⟩

/-- **Sequencing.** -/
theorem spec_bind {f : α → Prog σ ε β} {Q : β → σ → Prop}
    (h : Spec E x s fun a s' ↦ Spec E (f a) s' Q) : Spec E (x >>= f) s Q := by
  have hbind : (x >>= f) s = next (x s) f := rfl
  rcases h with ⟨a, hx, ha⟩ | ⟨e, hx, he⟩
  · have hnext : (x >>= f) s = f a (x s).state := by rw [hbind, next, hx]
    rwa [Spec, hnext]
  · exact .inr ⟨e, by rw [hbind, next, hx], he⟩

/-- A run returns if there is no error that it may stop with. -/
theorem Spec.exists_ok (h : Spec (fun _ ↦ False) x s Q) :
    ∃ a, (x s).val = .ok a ∧ Q a (x s).state := by
  refine h.resolve_right ?_
  rintro ⟨e, -, he⟩
  exact he

/-- What holds of a run that has returned. -/
theorem Spec.of_ok {a : α} (h : Spec E x s Q) (hx : (x s).val = .ok a) : Q a (x s).state := by
  rcases h with ⟨a', ha', hQ⟩ | ⟨e, he, -⟩
  · rw [hx] at ha'
    exact Except.ok.inj ha' ▸ hQ
  · rw [hx] at he
    cases he

end Prog

end Foundations
