import Mathlib.Data.List.Basic
import Mathlib.Tactic

/-!
# Runs that remember their history

A labelled transition relation `step : σ → α → σ → Prop` and the runs it generates. A run carries
the list of its past configurations, each paired with the label that left it, because the
conditions under which a program behaves are conditions on the state *before* a step, and stating
them needs that state.

Two rules are packaged here. `Trace.invariant_of_guard` is the usual invariant induction, relative
to a guard that every step of the run has to meet. `Trace.everywhere_iff` is its exact form: when a
step outside the guard visibly breaks the property, the runs that keep the property in every
configuration are precisely the runs that stay inside the guard.
-/

namespace Foundations

variable {σ α : Type*}

/-- `Trace step s₀ h s`: the run from `s₀` with history `h` has arrived at `s`. -/
inductive Trace (step : σ → α → σ → Prop) (s₀ : σ) : List (σ × α) → σ → Prop
  | nil : Trace step s₀ [] s₀
  | snoc {h : List (σ × α)} {s s' : σ} {a : α} :
      Trace step s₀ h s → step s a s' → Trace step s₀ (h ++ [(s, a)]) s'

/-- The configurations some run arrives at. -/
def Reachable (step : σ → α → σ → Prop) (s₀ s : σ) : Prop := ∃ h, Trace step s₀ h s

namespace Trace

/-- `P` holds in every configuration of the run: the past ones and the present one. -/
def Everywhere (P : σ → Prop) (h : List (σ × α)) (s : σ) : Prop := (∀ x ∈ h, P x.1) ∧ P s

/-- Every step of the run met the guard `C`, evaluated in the configuration it left. -/
def Guarded (C : σ → α → Prop) (h : List (σ × α)) : Prop := ∀ x ∈ h, C x.1 x.2

variable {step : σ → α → σ → Prop} {s₀ s : σ} {h : List (σ × α)}

theorem guarded_snoc {C : σ → α → Prop} {a : α} :
    Guarded C (h ++ [(s, a)]) ↔ Guarded C h ∧ C s a := by
  simp [Guarded, or_imp, forall_and]

theorem everywhere_snoc {P : σ → Prop} {s' : σ} {a : α} :
    Everywhere P (h ++ [(s, a)]) s' ↔ Everywhere P h s ∧ P s' := by
  simp [Everywhere, or_imp, forall_and]

theorem Everywhere.imp {P Q : σ → Prop} (hPQ : ∀ {s}, P s → Q s) (hall : Everywhere P h s) :
    Everywhere Q h s := ⟨fun x hx ↦ hPQ (hall.1 x hx), hPQ hall.2⟩

/-- **Invariant induction.** The guard may be `fun _ _ ↦ True`; see `invariant`. -/
theorem invariant_of_guard {I : σ → Prop} {C : σ → α → Prop} (h0 : I s₀)
    (keep : ∀ {s a s'}, I s → C s a → step s a s' → I s') (t : Trace step s₀ h s)
    (hC : Guarded C h) : I s := by
  induction t with
  | nil => exact h0
  | snoc _ hs ih =>
    obtain ⟨hpre, hlast⟩ := guarded_snoc.mp hC
    exact keep (ih hpre) hlast hs

theorem invariant {I : σ → Prop} (h0 : I s₀) (keep : ∀ {s a s'}, I s → step s a s' → I s')
    (t : Trace step s₀ h s) : I s :=
  t.invariant_of_guard (C := fun _ _ ↦ True) h0 (fun hi _ hs ↦ keep hi hs) fun _ _ ↦ trivial

/-- An invariant of guarded runs holds in the past configurations too. -/
theorem everywhere_of_guard {I : σ → Prop} {C : σ → α → Prop} (h0 : I s₀)
    (keep : ∀ {s a s'}, I s → C s a → step s a s' → I s') (t : Trace step s₀ h s)
    (hC : Guarded C h) : Everywhere I h s := by
  induction t with
  | nil => exact ⟨by simp, h0⟩
  | snoc _ hs ih =>
    obtain ⟨hpre, hlast⟩ := guarded_snoc.mp hC
    exact everywhere_snoc.mpr ⟨ih hpre, keep (ih hpre).2 hlast hs⟩

/-- **The exact form.** `I` is what a guarded run maintains and `P` is what is observed. A step
outside the guard is assumed to destroy `P` at once, so nothing later in the run can repair it. -/
theorem everywhere_iff {I P : σ → Prop} {C : σ → α → Prop} (h0 : I s₀) (hP : ∀ {s}, I s → P s)
    (keep : ∀ {s a s'}, I s → C s a → step s a s' → I s')
    (break_ : ∀ {s a s'}, I s → ¬C s a → step s a s' → ¬P s') (t : Trace step s₀ h s) :
    Everywhere P h s ↔ Guarded C h := by
  constructor
  · intro hall
    induction t with
    | nil => simp [Guarded]
    | snoc t hs ih =>
      obtain ⟨hpre, hlast⟩ := everywhere_snoc.mp hall
      have hg := ih hpre
      refine guarded_snoc.mpr ⟨hg, ?_⟩
      by_contra hC
      exact break_ (t.invariant_of_guard h0 keep hg) hC hs hlast
  · intro hg
    exact (t.everywhere_of_guard h0 keep hg).imp hP

/-- **Two guards are met by the same runs** when they agree on the steps out of the states that
either of them keeps. -/
theorem guarded_congr {I : σ → Prop} {C D : σ → α → Prop} (h0 : I s₀)
    (keep : ∀ {s a s'}, I s → C s a → step s a s' → I s')
    (agree : ∀ {s a s'}, I s → step s a s' → (C s a ↔ D s a)) (t : Trace step s₀ h s) :
    Guarded C h ↔ Guarded D h := by
  suffices hboth : (Guarded C h ↔ Guarded D h) ∧ (Guarded C h → I s) from hboth.1
  induction t with
  | nil => exact ⟨by simp [Guarded], fun _ ↦ h0⟩
  | snoc t hs ih =>
    obtain ⟨hiff, hI⟩ := ih
    rw [guarded_snoc, guarded_snoc]
    refine ⟨⟨fun hC ↦ ?_, fun hD ↦ ?_⟩, fun hC ↦ keep (hI hC.1) hC.2 hs⟩
    · exact ⟨hiff.mp hC.1, (agree (hI hC.1) hs).mp hC.2⟩
    · have hC := hiff.mpr hD.1
      exact ⟨hC, (agree (hI hC) hs).mpr hD.2⟩

theorem Everywhere.start {P : σ → Prop} (t : Trace step s₀ h s) (hall : Everywhere P h s) :
    P s₀ := by
  induction t with
  | nil => exact hall.2
  | snoc _ _ ih => exact ih (everywhere_snoc.mp hall).1

theorem cons {s₁ : σ} {a : α} (hs : step s₀ a s₁) (t : Trace step s₁ h s) :
    Trace step s₀ ((s₀, a) :: h) s := by
  induction t with
  | nil => exact snoc nil hs
  | snoc _ hlast ih => exact snoc ih hlast

end Trace

/-! ## Executing a run -/

/-- Execute a list of labels; `none` as soon as one of them cannot be executed. -/
def execute (exec : σ → α → Option σ) : σ → List α → Option σ
  | s, [] => some s
  | s, a :: l => (exec s a).bind fun s' ↦ execute exec s' l

theorem execute_append {exec : σ → α → Option σ} (s : σ) (l l' : List α) :
    execute exec s (l ++ l') = (execute exec s l).bind fun s' ↦ execute exec s' l' := by
  induction l generalizing s with
  | nil => rfl
  | cons a l ih => simp only [List.cons_append, execute, ih, Option.bind_assoc]

variable {step : σ → α → σ → Prop} {s₀ s : σ}

/-- The history of the run that executes a list of labels. -/
def history (exec : σ → α → Option σ) : σ → List α → List (σ × α)
  | _, [] => []
  | s, a :: l => (s, a) :: (exec s a).elim [] fun s' ↦ history exec s' l

/-- What is executed by sound steps is a run. -/
theorem trace_of_execute {exec : σ → α → Option σ} {l : List α}
    (sound : ∀ s a s', exec s a = some s' → step s a s') (h : execute exec s₀ l = some s) :
    Trace step s₀ (history exec s₀ l) s ∧ (history exec s₀ l).map Prod.snd = l := by
  induction l generalizing s₀ with
  | nil =>
    rw [execute, Option.some.injEq] at h
    exact ⟨h ▸ Trace.nil, rfl⟩
  | cons a l ih =>
    rw [execute, Option.bind_eq_some_iff] at h
    obtain ⟨s₁, hs, hl⟩ := h
    obtain ⟨t, hlab⟩ := ih hl
    rw [history, hs, Option.elim_some]
    exact ⟨t.cons (sound _ _ _ hs), by rw [List.map_cons, hlab]⟩

theorem exists_trace_of_execute {exec : σ → α → Option σ} {l : List α}
    (sound : ∀ s a s', exec s a = some s' → step s a s') (h : execute exec s₀ l = some s) :
    ∃ hist, Trace step s₀ hist s ∧ hist.map Prod.snd = l := ⟨_, trace_of_execute sound h⟩

/-- A run given by its labels, and what is seen of its last state. -/
theorem exists_trace_of_execute_map {β : Type*} {exec : σ → α → Option σ} {l : List α} {f : σ → β}
    {b : β} (sound : ∀ s a s', exec s a = some s' → step s a s')
    (h : (execute exec s₀ l).map f = some b) :
    ∃ hist s, Trace step s₀ hist s ∧ hist.map Prod.snd = l ∧ f s = b := by
  obtain ⟨s, hs, hb⟩ := Option.map_eq_some_iff.mp h
  obtain ⟨hist, t, hlab⟩ := exists_trace_of_execute sound hs
  exact ⟨hist, s, t, hlab, hb⟩

/-- A run given by its labels whose steps all meet a guard. -/
theorem exists_guarded_of_execute {exec : σ → α → Option σ} {l : List α} {C : σ → α → Prop}
    (sound : ∀ s a s', exec s a = some s' → step s a s') (h : (execute exec s₀ l).isSome)
    (hC : ∀ x ∈ history exec s₀ l, C x.1 x.2) :
    ∃ hist s, Trace step s₀ hist s ∧ hist.map Prod.snd = l ∧ Trace.Guarded C hist := by
  obtain ⟨s, hs⟩ := Option.isSome_iff_exists.mp h
  obtain ⟨t, hlab⟩ := trace_of_execute sound hs
  exact ⟨_, s, t, hlab, hC⟩

/-! ## Steps that may fail -/

/-- A sequence of two computations returns when both do. -/
theorem bind_eq_ok {ε β γ : Type} {m : Except ε β} {f : β → Except ε γ} {c : γ} :
    m >>= f = .ok c ↔ ∃ b, m = .ok b ∧ f b = .ok c := by
  cases m with
  | error e => simp [bind, Except.bind]
  | ok b => simp [bind, Except.bind]

/-- Whatever `m` returns satisfies `Q`. -/
def Returns {ε β : Type} (Q : β → Prop) (m : Except ε β) : Prop := ∀ b, m = .ok b → Q b

section Returns

variable {ε β γ : Type} {Q : γ → Prop}

theorem Returns.ok {c : γ} (h : Q c) : Returns Q (.ok c : Except ε γ) :=
  fun _ heq ↦ Except.ok.inj heq ▸ h

theorem Returns.bind {m : Except ε β} {f : β → Except ε γ} (h : ∀ b, Returns Q (f b)) :
    Returns Q (m >>= f) := by
  intro c hc
  obtain ⟨b, -, hb⟩ := bind_eq_ok.mp hc
  exact h b c hb

theorem Returns.ite {a : Prop} [Decidable a] {m m' : Except ε γ} (h : Returns Q m)
    (h' : Returns Q m') : Returns Q (if a then m else m') := by
  split
  · exact h
  · exact h'

end Returns

end Foundations
