import Mathlib.Tactic

/-!
# Sleeping on a flag and a semaphore

Two parties share a lock and a stock of units. The waiter needs a unit; if there is none it raises a
flag, gives up the lock, sleeps on a private semaphore and takes the lock again, without looking at
the stock a second time. The signaller supplies a unit; if it is the first one and the flag is up,
it lowers the flag and posts the semaphore, in one order or the other.

The pattern is sound although the waiter does not test again: `Inv` says, for each pair of places
in the two programs, what the flag, the semaphore and the stock can be. Every rule below is one step
of one party.
-/

namespace Foundations.Handoff

/-- Where the waiter is, as far as the pattern is concerned. -/
inductive Waiter
  /-- Not waiting. -/
  | away
  /-- The flag is up and the lock is still held. -/
  | marked
  /-- About to take the semaphore. -/
  | asleep
  /-- The semaphore is taken, the lock not yet. -/
  | woken
deriving DecidableEq

/-- Where the signaller is. -/
inductive Signaller
  | idle
  /-- A unit has been supplied and the flag has not been looked at. -/
  | supplied
  /-- About to lower the flag and then to post. -/
  | lowering
  /-- About to post, the flag being down already. -/
  | posting
  /-- About to post and then to lower the flag. -/
  | ringing
  /-- About to lower the flag after the post. -/
  | clearing
deriving DecidableEq

/-- The signaller is not in the middle of waking the waiter. -/
def Signaller.Quiet : Signaller → Prop
  | .idle | .supplied => True
  | _ => False

/-- **The invariant of the pattern**: place of the waiter, place of the signaller, flag, semaphore
and stock. A sleeping waiter is either still to be noticed, or being woken, or already posted. -/
def Inv : Waiter → Signaller → ℕ → ℕ → ℕ → Prop
  | .away, g, flag, sem, _ => flag = 0 ∧ sem = 0 ∧ g.Quiet
  | .marked, g, flag, sem, stock => flag = 1 ∧ sem = 0 ∧ stock = 0 ∧ g = .idle
  | .asleep, g, flag, sem, stock =>
    (flag = 1 ∧ sem = 0 ∧ stock = 0 ∧ g = .idle) ∨
    (flag = 1 ∧ sem = 0 ∧ stock = 1 ∧ (g = .supplied ∨ g = .lowering ∨ g = .ringing)) ∨
    (flag = 0 ∧ sem = 0 ∧ 0 < stock ∧ g = .posting) ∨
    (flag = 1 ∧ sem = 1 ∧ 0 < stock ∧ g = .clearing) ∨
    (flag = 0 ∧ sem = 1 ∧ 0 < stock ∧ g.Quiet)
  | .woken, g, flag, sem, stock =>
    sem = 0 ∧ 0 < stock ∧ (flag = 0 ∧ g.Quiet ∨ flag = 1 ∧ g = .clearing)

variable {w : Waiter} {g : Signaller} {flag sem stock : ℕ}

namespace Inv

theorem sem_le_one (h : Inv w g flag sem stock) : sem ≤ 1 := by
  cases w <;> simp only [Inv] at h <;> omega

/-- A waiter that sleeps on an empty semaphore, with a signaller that is not active, has nothing to
wake up for. -/
theorem stock_eq_zero (h : Inv .asleep .idle flag 0 stock) : stock = 0 := by
  simp [Inv] at h
  exact h.2

theorem stock_pos (h : Inv .woken g flag sem stock) : 0 < stock := h.2.1

/-! ### Steps of the waiter -/

theorem raise (h : Inv .away .idle flag sem stock) (hstock : stock = 0) :
    Inv .marked .idle 1 sem stock := ⟨rfl, h.2.1, hstock, rfl⟩

theorem sleep (h : Inv .marked g flag sem stock) : Inv .asleep g flag sem stock := Or.inl h

theorem wake (h : Inv .asleep g flag sem stock) (hsem : 0 < sem) :
    Inv .woken g flag (sem - 1) stock := by
  simp only [Inv] at h ⊢
  obtain h | h | h | ⟨hflag, hone, hstock, hg⟩ | ⟨hflag, hone, hstock, hg⟩ := h
  · omega
  · omega
  · omega
  · exact ⟨by omega, hstock, Or.inr ⟨hflag, hg⟩⟩
  · exact ⟨by omega, hstock, Or.inl ⟨hflag, hg⟩⟩

/-- The waiter has the lock again, so the signaller is done. -/
theorem resume (h : Inv .woken .idle flag sem stock) : Inv .away .idle flag sem stock := by
  obtain ⟨hsem, -, ⟨hflag, hg⟩ | ⟨-, hg⟩⟩ := h
  · exact ⟨hflag, hsem, hg⟩
  · cases hg

/-- A waiter that is awake may use the stock as it likes. -/
theorem use (h : Inv .away g flag sem stock) (stock' : ℕ) : Inv .away g flag sem stock' := h

/-! ### Steps of the signaller -/

/-- The signaller needs the lock, so it does not find the waiter with the flag just raised. -/
theorem supply (h : Inv w .idle flag sem stock) (hw : w ≠ .marked) :
    Inv w .supplied flag sem (stock + 1) := by
  cases w with
  | away => exact h
  | marked => exact absurd rfl hw
  | asleep =>
    simp [Inv, Signaller.Quiet] at h ⊢
    omega
  | woken =>
    simp [Inv, Signaller.Quiet] at h ⊢
    omega

/-- The test fails: nobody is asleep. -/
theorem pass (h : Inv w .supplied flag sem stock) (htest : ¬(stock = 1 ∧ flag = 1)) :
    Inv w .idle flag sem stock := by
  cases w <;> simp [Inv, Signaller.Quiet] at h ⊢ <;> omega

/-- The test succeeds, and the flag is to be lowered first. -/
theorem notice (h : Inv w .supplied 1 sem stock) : Inv w .lowering 1 sem stock := by
  cases w <;> simp [Inv, Signaller.Quiet] at h ⊢
  exact h

theorem lower (h : Inv w .lowering flag sem stock) : Inv w .posting 0 sem stock := by
  cases w <;> simp [Inv, Signaller.Quiet] at h ⊢
  omega

theorem post (h : Inv w .posting flag sem stock) : Inv w .idle flag (sem + 1) stock := by
  cases w <;> simp [Inv, Signaller.Quiet] at h ⊢
  omega

/-- The test succeeds, and the semaphore is to be posted first. -/
theorem answer (h : Inv w .supplied 1 sem stock) : Inv w .ringing 1 sem stock := by
  cases w <;> simp [Inv, Signaller.Quiet] at h ⊢
  exact h

theorem ring (h : Inv w .ringing flag sem stock) : Inv w .clearing flag (sem + 1) stock := by
  cases w <;> simp [Inv, Signaller.Quiet] at h ⊢
  omega

theorem clear (h : Inv w .clearing flag sem stock) : Inv w .idle 0 sem stock := by
  cases w <;> simp [Inv, Signaller.Quiet] at h ⊢ <;> omega

end Inv

end Foundations.Handoff
