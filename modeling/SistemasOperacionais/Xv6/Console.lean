import SistemasOperacionais.Foundations.Trace
import SistemasOperacionais.Foundations.Ring

/-!
# The console

`console.c`: characters typed at the keyboard go into a ring of `INPUT_BUF` places. `consoleintr`
edits the line that is being typed, between the indices `w` and `e`, and commits it; `consoleread`
takes committed characters away, between `r` and `w`. Both hold `input.lock`, which `consoleread`
gives up only while it sleeps, so a step of the model is a whole batch of keys, or what one call
does until it returns or sleeps.

What the line discipline is for is said by `Line`: a key is an `Edit` of the line that is being
typed, and a reader is served from what has been committed (`serve`). `Books` connects the three
words with the numbers of characters taken, committed and typed.
-/

namespace SistemasOperacionais.Xv6.Console

open Foundations Function

def inputBuf : ℕ := 128

/-- `C(x)`, Control-x -/
def C (x : Char) : UInt8 := x.toUInt8 - '@'.toUInt8

def newline : UInt8 := '\n'.toUInt8

def carriageReturn : UInt8 := '\r'.toUInt8

/-- The variable `input`, without its lock. -/
structure Input where
  buf : ℕ → UInt8
  /-- Read index -/
  r : UInt32
  /-- Write index -/
  w : UInt32
  /-- Edit index -/
  e : UInt32

/-! ## The line discipline -/

/-- What has been typed: the committed lines, and the line that can still be edited. -/
structure Line where
  committed : List UInt8
  pending : List UInt8

/-- A key that is accepted. A character is accepted with or without a commit; a line is committed by
a newline, by a control-D, and by any character that fills the buffer. -/
inductive Edit
  | char (c : UInt8) (commit : Bool)
  | erase
  | kill

namespace Line

def text (l : Line) : List UInt8 := l.committed ++ l.pending

def edit (l : Line) : Edit → Line
  | .char c true => ⟨l.committed ++ (l.pending ++ [c]), []⟩
  | .char c false => ⟨l.committed, l.pending ++ [c]⟩
  | .erase => ⟨l.committed, l.pending.dropLast⟩
  | .kill => ⟨l.committed, []⟩

/-- The text that a stream of accepted keys stands for. -/
def ofEdits (edits : List Edit) : Line := edits.foldl edit ⟨[], []⟩

end Line

/-- How a stretch of `consoleread` ends, with `n` bytes left to read: it finds nothing to read, it
has read a newline or all it wanted, it has put a control-D back, or it has met a control-D as its
first character. -/
inductive Outcome
  | wait (n : ℕ)
  | done (n : ℕ)
  | saved (n : ℕ)
  | eof (n : ℕ)
deriving DecidableEq

/-- The end-of-file marks that are taken away. -/
def Outcome.marks : Outcome → ℕ
  | .eof _ => 1
  | _ => 0

/-- Serve a reader from the characters that nobody has read. -/
def serve (target : ℕ) : ℕ → List UInt8 → List UInt8 × Outcome
  | 0, _ => ([], .done 0)
  | n + 1, [] => ([], .wait (n + 1))
  | n + 1, c :: l =>
    if c = C 'D' then ([], if n + 1 < target then .saved (n + 1) else .eof (n + 1))
    else if c = newline then ([c], .done n)
    else ((serve target n l).map (c :: ·) id)

/-! ## The program -/

namespace Input

/-- The loop of `C('U')`. It runs at most `e - w` times. -/
def killLoop : ℕ → Input → Input
  | 0, i => i
  | fuel + 1, i =>
    if i.e ≠ i.w ∧ i.buf ((i.e - 1).toNat % inputBuf) ≠ newline then
      killLoop fuel { i with e := i.e - 1 }
    else i

/-- The test in front of storing a character, and the test for a commit after it. -/
def hasRoom (i : Input) : Bool := decide ((i.e - i.r).toNat < inputBuf)

def commits (i : Input) (c : UInt8) : Bool :=
  c == newline || c == C 'D' || i.e + 1 == i.r + UInt32.ofNat inputBuf

/-- A carriage return is read as a newline. -/
def translate (c : UInt8) : UInt8 := if c = carriageReturn then newline else c

/-- `input.buf[input.e++ % INPUT_BUF] = c`, and `input.w = input.e` if the line is committed. -/
def store (i : Input) (c : UInt8) : Input :=
  { i with
    buf := update i.buf (i.e.toNat % inputBuf) c
    e := i.e + 1
    w := if i.commits c then i.e + 1 else i.w }

/-- One turn of the loop of `consoleintr`. The keyboard and the serial line deliver bytes. -/
def key (i : Input) (c : UInt8) : Input :=
  if c = C 'P' then i
  else if c = C 'U' then i.killLoop (i.e - i.w).toNat
  else if c = C 'H' ∨ c = 0x7f then if i.e ≠ i.w then { i with e := i.e - 1 } else i
  else if c ≠ 0 ∧ i.hasRoom then i.store (translate c)
  else i

/-- The edit that the key stands for, if it is accepted. -/
def accepted (i : Input) (c : UInt8) : Option Edit :=
  if c = C 'P' then none
  else if c = C 'U' then some .kill
  else if c = C 'H' ∨ c = 0x7f then some .erase
  else if c ≠ 0 ∧ i.hasRoom then some (.char (translate c) (i.commits (translate c)))
  else none

/-- The loop of `consoleread` with `n` bytes left: the bytes stored through `dst`, and how it
ends. -/
def readLoop (target : ℕ) : ℕ → Input → Input × List UInt8 × Outcome
  | 0, i => (i, [], .done 0)
  | n + 1, i =>
    if i.r = i.w then (i, [], .wait (n + 1))
    else
      let c := i.buf (i.r.toNat % inputBuf)
      let j := { i with r := i.r + 1 }
      if c = C 'D' then
        if n + 1 < target then ({ j with r := j.r - 1 }, [], .saved (n + 1))
        else (j, [], .eof (n + 1))
      else if c = newline then (j, [c], .done n)
      else (readLoop target n j).map id (Prod.map (c :: ·) id)

end Input

structure State (ι : Type*) where
  input : Input
  /-- `target` and `n` of a process that sleeps in `consoleread` -/
  asleep : ι → Option (ℕ × ℕ)
  killed : ι → Bool
  /-- The values that `consoleread` has returned. -/
  returned : List (ι × ℤ)
  /-- The keys accepted so far. -/
  edits : List Edit
  /-- The number of characters taken out of the buffer, end-of-file marks included. -/
  taken : ℕ
  /-- The bytes stored through `dst` so far. -/
  delivered : List UInt8
  /-- The last stretch of a call to take a character has put a control-D back. -/
  saved : Bool

variable {ι : Type*}

def initial (ι : Type*) (buf : ℕ → UInt8) : State ι where
  input := ⟨buf, 0, 0, 0⟩
  asleep _ := none
  killed _ := false
  returned := []
  edits := []
  taken := 0
  delivered := []
  saved := false

inductive Label (ι : Type*)
  /-- An interrupt; the keys are what `getc` returns until it returns `-1`. -/
  | consoleintr (keys : List UInt8)
  | consoleread (t : ι) (n : ℤ)
  /-- A process asleep is woken up, by `wakeup(&input.r)` or by being killed. -/
  | resume (t : ι)
  | kill (t : ι)

namespace State

def line (s : State ι) : Line := .ofEdits s.edits

/-- What has been committed and not yet taken. -/
def unread (s : State ι) : List UInt8 := s.line.committed.drop s.taken

def key (s : State ι) (c : UInt8) : State ι :=
  { s with input := s.input.key c, edits := s.edits ++ (s.input.accepted c).toList }

def consoleintr (s : State ι) (keys : List UInt8) : State ι := keys.foldl key s

section Program

variable [DecidableEq ι]

/-- `return v` out of `consoleread` -/
def finish (s : State ι) (t : ι) (v : ℤ) : State ι :=
  { s with asleep := update s.asleep t none, returned := s.returned ++ [(t, v)] }

/-- Leave the loop, or go to sleep in it. -/
def leave (s : State ι) (t : ι) (target : ℕ) : Outcome → State ι
  | .wait n =>
    if s.killed t then s.finish t (-1)
    else { s with asleep := update s.asleep t (some (target, n)) }
  | .done n => s.finish t (target - n)
  | .saved n => { s.finish t (target - n) with saved := true }
  | .eof n => s.finish t (target - n)

/-- What a call does from taking `input.lock` to releasing it. -/
def stretch (s : State ι) (t : ι) (target n : ℕ) : State ι :=
  let (i, l, o) := s.input.readLoop target n
  { s with
    input := i
    taken := s.taken + l.length + o.marks
    delivered := s.delivered ++ l
    saved := false }.leave t target o

def consoleread (s : State ι) (t : ι) (n : ℤ) : State ι :=
  if 0 < n then s.stretch t n.toNat n.toNat else s.finish t 0

def exec (s : State ι) : Label ι → Option (State ι)
  | .consoleintr keys => some (s.consoleintr keys)
  | .consoleread t n => if s.asleep t = none then some (s.consoleread t n) else none
  | .resume t => (s.asleep t).map fun call ↦ s.stretch t call.1 call.2
  | .kill t => some { s with killed := update s.killed t true }

end Program

end State

def Step [DecidableEq ι] (s : State ι) (a : Label ι) (s' : State ι) : Prop := s.exec a = some s'

/-! ## The three indices -/

/-- `r` characters have been taken and `l` has been typed. -/
structure Books (i : Input) (r : ℕ) (l : Line) : Prop where
  read : i.r.toNat = r % 2 ^ 32
  write : i.w.toNat = l.committed.length % 2 ^ 32
  edit : i.e.toNat = l.text.length % 2 ^ 32
  ring : Ring inputBuf i.buf r l.text
  le : r ≤ l.committed.length
  line : newline ∉ l.pending

namespace Books

variable {i : Input} {r : ℕ} {l : Line}

theorem inputBuf_lt : inputBuf < 2 ^ 32 := by decide

@[simp] theorem text_length (l : Line) : l.text.length = l.committed.length + l.pending.length :=
  List.length_append

theorem place {x : UInt32} {n : ℕ} (h : x.toNat = n % 2 ^ 32) :
    x.toNat % inputBuf = n % inputBuf := by
  rw [h, Nat.mod_mod_of_dvd _ (by decide)]

theorem toNat_succ {x : UInt32} {n : ℕ} (h : x.toNat = n % 2 ^ 32) :
    (x + 1).toNat = (n + 1) % 2 ^ 32 := by
  rw [UInt32.toNat_add, h, UInt32.toNat_one, Nat.mod_add_mod]

theorem toNat_pred {x : UInt32} {n : ℕ} (h : x.toNat = (n + 1) % 2 ^ 32) :
    (x - 1).toNat = n % 2 ^ 32 := by
  rw [UInt32.toNat_sub, h, UInt32.toNat_one]
  omega

theorem word_eq_iff {x y : UInt32} {m n : ℕ} (hx : x.toNat = m % 2 ^ 32)
    (hy : y.toNat = n % 2 ^ 32) (hle : m ≤ n) (hspan : n ≤ m + inputBuf) : x = y ↔ m = n := by
  rw [← UInt32.toNat_inj, hx, hy]
  refine ⟨fun heq ↦ ?_, fun heq ↦ by rw [heq]⟩
  by_contra hne
  exact Ring.place_ne (hle.lt_of_ne hne) (hspan.trans_lt (Nat.add_lt_add_left inputBuf_lt m)) heq

theorem committed_le (l : Line) : l.committed.length ≤ l.text.length := by
  rw [text_length]
  exact Nat.le_add_right _ _

variable (h : Books i r l)
include h

theorem span : l.text.length ≤ r + inputBuf := h.ring.cap

theorem edit_eq_write_iff : i.e = i.w ↔ l.pending = [] := by
  rw [eq_comm, word_eq_iff h.write h.edit (committed_le l) (h.span.trans (by have := h.le; omega)),
    text_length, left_eq_add, List.length_eq_zero_iff]

theorem read_eq_write_iff : i.r = i.w ↔ r = l.committed.length :=
  word_eq_iff h.read h.write h.le ((committed_le l).trans h.span)

theorem edit_sub_read : (i.e - i.r).toNat = l.text.length - r := by
  rw [UInt32.toNat_sub, h.read, h.edit, h.ring.sub_mod_eq inputBuf_lt]

theorem write_sub_read : (i.w - i.r).toNat = l.committed.length - r := by
  have hring := h.ring.take h.le
  have hlen : (l.text.take l.committed.length).length = l.committed.length :=
    List.length_take_of_le (committed_le l)
  have hsub := hring.sub_mod_eq inputBuf_lt
  rw [hlen] at hsub
  rw [UInt32.toNat_sub, h.read, h.write, hsub]

theorem shorten {x : UInt32} {p : List UInt8} (hp : p <+: l.pending)
    (hx : x.toNat = (l.committed ++ p).length % 2 ^ 32) :
    Books { i with e := x } r ⟨l.committed, p⟩ where
  read := h.read
  write := h.write
  edit := hx
  ring := by
    obtain ⟨q, hq⟩ := hp
    have hring := h.ring.take (k := (l.committed ++ p).length)
      (h.le.trans (by rw [List.length_append]; exact Nat.le_add_right _ _))
    rwa [Line.text, ← hq, ← List.append_assoc, List.take_left'] at hring
    rfl
  le := h.le
  line hmem := h.line (hp.subset hmem)

/-- The loop of `C('U')` goes back to the last commit: the line that is being typed holds no
newline. -/
theorem killLoop : Books (i.killLoop l.pending.length) r ⟨l.committed, []⟩ := by
  obtain ⟨committed, pending⟩ := l
  induction pending using List.reverseRecOn generalizing i with
  | nil => exact h
  | append_singleton p c ih =>
    have hne : i.e ≠ i.w := fun heq ↦ by simpa using h.edit_eq_write_iff.mp heq
    have hpred : (i.e - 1).toNat = (committed ++ p).length % 2 ^ 32 := by
      apply toNat_pred
      rw [h.edit, Line.text, ← List.append_assoc, List.length_append, List.length_singleton]
    have hc : i.buf ((i.e - 1).toNat % inputBuf) ≠ newline := by
      have hlt : (committed ++ p).length < (Line.text ⟨committed, p ++ [c]⟩).length := by
        simp [Line.text]
      have hle : r ≤ (committed ++ p).length := by
        rw [List.length_append]
        exact h.le.trans (Nat.le_add_right _ _)
      rw [place hpred, h.ring.held _ hlt hle]
      simp only [Line.text, ← List.append_assoc, List.getElem_concat_length]
      rintro rfl
      exact h.line (by simp)
    rw [List.length_append, List.length_singleton, Input.killLoop, if_pos ⟨hne, hc⟩]
    exact ih (h.shorten (List.prefix_append _ _) hpred)

/-- A character goes into the next place of the buffer; when it is full, the character is not
accepted. -/
theorem store (hroom : i.hasRoom = true) (c : UInt8) :
    Books (i.store c) r (l.edit (.char c (i.commits c))) := by
  have hlt : l.text.length < r + inputBuf := by
    have hsub := of_decide_eq_true hroom
    rw [h.edit_sub_read] at hsub
    have hle := h.ring.le
    omega
  have hring := h.ring.push hlt c
  rw [← place h.edit] at hring
  have hedit := toNat_succ h.edit
  cases hcommit : i.commits c with
  | true =>
    have htext : (l.edit (.char c true)).text = l.text ++ [c] := by
      simp [Line.edit, Line.text]
    refine ⟨h.read, ?_, ?_, ?_, ?_, by simp [Line.edit]⟩
    · simp only [Input.store, hcommit, if_true, hedit]
      simp [Line.edit, Line.text, Nat.add_assoc]
    · simp only [Input.store, hedit, htext, List.length_append, List.length_singleton]
    · rw [htext]
      exact hring
    · rw [Line.edit, List.length_append]
      exact h.le.trans (Nat.le_add_right _ _)
  | false =>
    have htext : (l.edit (.char c false)).text = l.text ++ [c] := by
      simp [Line.edit, Line.text]
    refine ⟨h.read, ?_, ?_, ?_, h.le, ?_⟩
    · simp only [Input.store, hcommit, Bool.false_eq_true, if_false]
      exact h.write
    · simp only [Input.store, hedit, htext, List.length_append, List.length_singleton]
    · rw [htext]
      exact hring
    · -- a newline would have been committed
      rw [Line.edit, List.mem_append, List.mem_singleton, not_or]
      refine ⟨h.line, ?_⟩
      rintro rfl
      simp [Input.commits] at hcommit

theorem erase (hne : i.e ≠ i.w) : Books { i with e := i.e - 1 } r (l.edit .erase) := by
  have hpending : l.pending ≠ [] := fun hnil ↦ hne (h.edit_eq_write_iff.mpr hnil)
  refine h.shorten (List.dropLast_prefix _) (toNat_pred ?_)
  have hpos := List.length_pos_iff.mpr hpending
  rw [h.edit, text_length, List.length_append, List.length_dropLast]
  congr 1
  omega

theorem key (c : UInt8) : Books (i.key c) r ((i.accepted c).toList.foldl Line.edit l) := by
  unfold Input.key Input.accepted
  split_ifs with hP hU hH hne hacc
  · exact h
  · have hlen : (i.e - i.w).toNat = l.pending.length := by
      have hle := h.span
      have hr := h.le
      rw [text_length] at hle
      have hlt := inputBuf_lt
      rw [UInt32.toNat_sub, h.edit, h.write, text_length]
      omega
    rw [hlen]
    exact h.killLoop
  · exact h.erase hne
  · -- nothing has been typed since the last commit
    have hnil := h.edit_eq_write_iff.mp (not_not.mp hne)
    obtain ⟨committed, pending⟩ := l
    obtain rfl : pending = [] := hnil
    exact h
  · exact h.store hacc.2 _
  · exact h

/-! ## Reading -/

theorem unread_eq_cons (hne : i.r ≠ i.w) :
    l.committed.drop r = i.buf (i.r.toNat % inputBuf) :: l.committed.drop (r + 1) := by
  have hlt : r < l.committed.length :=
    h.le.lt_of_ne fun heq ↦ hne (h.read_eq_write_iff.mpr heq)
  have hheld := h.ring.held r (hlt.trans_le (committed_le l)) le_rfl
  rw [place h.read, hheld, List.drop_eq_getElem_cons hlt]
  congr 1
  exact (List.getElem_append_left hlt).symm

theorem take_one (hne : i.r ≠ i.w) : Books { i with r := i.r + 1 } (r + 1) l := by
  have hlt : r < l.committed.length :=
    h.le.lt_of_ne fun heq ↦ hne (h.read_eq_write_iff.mpr heq)
  have hring := h.ring.pop (hlt.trans_le (committed_le l))
  exact ⟨toNat_succ h.read, h.write, h.edit, hring, hlt, h.line⟩

/-- The loop of `consoleread` serves its caller from what has been committed and not been taken. -/
theorem readLoop (target n : ℕ) : (i.readLoop target n).2 = serve target n (l.committed.drop r) ∧
      Books (i.readLoop target n).1
        (r + (i.readLoop target n).2.1.length + (i.readLoop target n).2.2.marks) l := by
  induction n generalizing i r with
  | zero => exact ⟨rfl, h⟩
  | succ n ih =>
    by_cases hempty : i.r = i.w
    · have hr := h.read_eq_write_iff.mp hempty
      rw [Input.readLoop, if_pos hempty, hr, List.drop_length]
      exact ⟨rfl, hr ▸ h⟩
    · rw [h.unread_eq_cons hempty]
      obtain ⟨hserve, hbooks⟩ := ih (h.take_one hempty)
      simp only [Input.readLoop, if_neg hempty, serve]
      generalize i.buf (i.r.toNat % inputBuf) = c
      split_ifs with hD hsave hnl
      · -- the mark is put back, so the index is where it was
        refine ⟨rfl, ?_⟩
        rw [UInt32.add_sub_cancel]
        exact h
      · exact ⟨rfl, h.take_one hempty⟩
      · exact ⟨rfl, h.take_one hempty⟩
      · refine ⟨congrArg (Prod.map (c :: ·) id) hserve, ?_⟩
        rwa [Nat.add_assoc r 1, Nat.add_comm 1] at hbooks

end Books

/-! ## Being served -/

theorem serve_taken (target n : ℕ) (l : List UInt8) :
    (l.take ((serve target n l).1.length + (serve target n l).2.marks)).filter (· ≠ C 'D') =
      (serve target n l).1 := by
  induction l generalizing n with
  | nil => cases n <;> rfl
  | cons c l ih =>
    cases n with
    | zero => rfl
    | succ n =>
      rw [serve]
      split_ifs with hD hsave hnl
      · rfl
      · simp [Outcome.marks, hD]
      · simp [Outcome.marks, hD]
      · simp only [Prod.map, List.length_cons, id]
        rw [Nat.add_right_comm, List.take_succ_cons,
          List.filter_cons_of_pos (by simpa using hD), ih]

/-- A control-D after the bytes `b` ends the call. -/
theorem serve_saved {target n : ℕ} {b rest : List UInt8} (hb : ∀ c ∈ b, c ≠ C 'D' ∧ c ≠ newline)
    (hn : b.length < n) (hsome : b ≠ [] ∨ n < target) (hle : n ≤ target) :
    serve target n (b ++ C 'D' :: rest) = (b, .saved (n - b.length)) := by
  induction b generalizing n with
  | nil =>
    obtain ⟨m, rfl⟩ := Nat.exists_eq_add_of_lt hn
    have hlt := hsome.resolve_left (fun hne ↦ hne rfl)
    simp only [List.length_nil, Nat.zero_add] at hlt
    simp [serve, hlt]
  | cons c b ih =>
    obtain ⟨m, rfl⟩ : ∃ m, n = m + 1 := Nat.exists_eq_succ_of_ne_zero (by omega)
    obtain ⟨hD, hnl⟩ := hb c List.mem_cons_self
    have hrest := ih (n := m) (fun c hc ↦ hb c (List.mem_cons_of_mem _ hc))
      (Nat.lt_of_succ_lt_succ hn) (.inr hle) (Nat.le_of_succ_le hle)
    rw [List.cons_append, serve, if_neg hD, if_neg hnl, hrest, List.length_cons,
      Nat.add_sub_add_right]
    rfl

theorem serve_eof {n : ℕ} (hn : 0 < n) (rest : List UInt8) :
    serve n n (C 'D' :: rest) = ([], .eof n) := by
  obtain ⟨m, rfl⟩ := Nat.exists_eq_succ_of_ne_zero hn.ne'
  simp [serve]

theorem serve_of_saved {target n m : ℕ} {l b : List UInt8} (h : serve target n l = (b, .saved m)) :
    ∃ rest, l.drop b.length = C 'D' :: rest := by
  induction l generalizing n b with
  | nil => cases n <;> simp [serve] at h
  | cons c l ih =>
    cases n with
    | zero => simp [serve] at h
    | succ n =>
      rw [serve] at h
      split_ifs at h with hD hsave hnl
      · obtain ⟨rfl, -⟩ := Prod.mk.inj h
        exact ⟨l, by rw [hD]; rfl⟩
      · simp at h
      · simp at h
      · obtain ⟨rfl, ho⟩ := Prod.mk.inj h
        exact ih (Prod.ext rfl ho)

/-! ## Runs -/

structure Inv (s : State ι) : Prop where
  books : Books s.input s.taken s.line
  delivered : s.delivered = (s.line.committed.take s.taken).filter (· ≠ C 'D')
  saved : s.saved = true → ∃ rest, s.unread = C 'D' :: rest

theorem Inv.initial (buf : ℕ → UInt8) : Inv (initial ι buf) where
  books := ⟨rfl, rfl, rfl, .nil buf, le_rfl, List.not_mem_nil⟩
  delivered := rfl
  saved h := by cases h

theorem Line.committed_prefix_edit (l : Line) (e : Edit) :
    l.committed <+: (l.edit e).committed := by
  cases e with
  | char c commit =>
    cases commit with
    | true => exact List.prefix_append _ _
    | false => exact List.prefix_rfl
  | erase => exact List.prefix_rfl
  | kill => exact List.prefix_rfl

namespace Inv

variable {s s' : State ι}

theorem line_key (s : State ι) (c : UInt8) :
    (s.key c).line = (s.input.accepted c).toList.foldl Line.edit s.line := by
  rw [State.line, State.key, Line.ofEdits, List.foldl_append]
  rfl

theorem key (h : Inv s) (c : UInt8) : Inv (s.key c) := by
  have hbooks := h.books.key c
  rw [← line_key] at hbooks
  obtain ⟨q, hq⟩ : s.line.committed <+: (s.key c).line.committed := by
    rw [line_key]
    cases s.input.accepted c with
    | none => exact List.prefix_rfl
    | some e => exact Line.committed_prefix_edit _ e
  refine ⟨hbooks, ?_, fun hsaved ↦ ?_⟩
  · rw [← hq]
    exact h.delivered.trans (by rw [← List.take_append_of_le_length h.books.le]; rfl)
  · obtain ⟨rest, hrest⟩ := h.saved hsaved
    refine ⟨rest ++ q, ?_⟩
    rw [State.unread, ← hq]
    exact (List.drop_append_of_le_length h.books.le).trans (congrArg (· ++ q) hrest)

theorem consoleintr (h : Inv s) (keys : List UInt8) : Inv (s.consoleintr keys) := by
  induction keys generalizing s with
  | nil => exact h
  | cons c keys ih => exact ih (h.key c)

theorem congr (h : Inv s) (hinput : s'.input = s.input) (hedits : s'.edits = s.edits)
    (htaken : s'.taken = s.taken) (hdelivered : s'.delivered = s.delivered)
    (hsaved : s'.saved = s.saved) : Inv s' := by
  have hline : s'.line = s.line := congrArg Line.ofEdits hedits
  refine ⟨?_, ?_, ?_⟩
  · rw [hinput, htaken, hline]
    exact h.books
  · rw [hdelivered, hline, htaken]
    exact h.delivered
  · rw [hsaved, State.unread, hline, htaken]
    exact h.saved

section Calls

variable [DecidableEq ι]

theorem finish (h : Inv s) (t : ι) (v : ℤ) : Inv (s.finish t v) := h.congr rfl rfl rfl rfl rfl

theorem stretch (h : Inv s) (t : ι) (target n : ℕ) : Inv (s.stretch t target n) := by
  obtain ⟨hserve, hbooks⟩ := h.books.readLoop target n
  have htaken := serve_taken target n s.unread
  unfold State.stretch
  generalize s.input.readLoop target n = res at hserve hbooks
  obtain ⟨i, b, o⟩ := res
  change (b, o) = serve target n s.unread at hserve
  rw [← hserve] at htaken
  have hinv : Inv { s with
      input := i
      taken := s.taken + b.length + o.marks
      delivered := s.delivered ++ b
      saved := false } := by
    refine ⟨hbooks, ?_, fun hfalse ↦ by cases hfalse⟩
    change s.delivered ++ b = (s.line.committed.take (s.taken + b.length + o.marks)).filter _
    rw [h.delivered, Nat.add_assoc, List.take_add, List.filter_append]
    exact congrArg _ htaken.symm
  cases o with
  | wait m =>
    change Inv (ite _ _ _)
    split_ifs with hkilled
    · exact hinv.finish t _
    · exact hinv.congr rfl rfl rfl rfl rfl
  | done m => exact hinv.finish t _
  | eof m => exact hinv.finish t _
  | saved m =>
    refine ⟨hinv.books, hinv.delivered, fun _ ↦ ?_⟩
    obtain ⟨rest, hrest⟩ := serve_of_saved hserve.symm
    refine ⟨rest, ?_⟩
    rw [State.unread, List.drop_drop] at hrest
    exact hrest

theorem consoleread (h : Inv s) (t : ι) (n : ℤ) : Inv (s.consoleread t n) := by
  unfold State.consoleread
  split_ifs with hn
  · exact h.stretch t _ _
  · exact h.finish t _

theorem step (h : Inv s) {a : Label ι} (hs : Step s a s') : Inv s' := by
  cases a with
  | consoleintr keys =>
    obtain rfl := Option.some.inj hs
    exact h.consoleintr keys
  | consoleread t n =>
    obtain ⟨-, hs⟩ := Option.ite_none_right_eq_some.mp hs
    obtain rfl := Option.some.inj hs
    exact h.consoleread t n
  | resume t =>
    obtain ⟨call, -, rfl⟩ := Option.map_eq_some_iff.mp hs
    exact h.stretch t _ _
  | kill t =>
    obtain rfl := Option.some.inj hs
    exact h.congr rfl rfl rfl rfl rfl

end Calls

end Inv

/-! ## The line discipline of every run -/

structure Discipline [DecidableEq ι] (s : State ι) : Prop where
  /-- `r ≤ w ≤ e ≤ r + INPUT_BUF`, counted from `r` -/
  order : (s.input.w - s.input.r).toNat ≤ (s.input.e - s.input.r).toNat ∧
    (s.input.e - s.input.r).toNat ≤ inputBuf
  /-- A committed character that has not been taken is still in its place. -/
  kept : ∀ (k : ℕ) (hk : k < s.line.committed.length), s.taken ≤ k →
    s.input.buf (k % inputBuf) = s.line.committed[k]
  taken : s.delivered = (s.line.committed.take s.taken).filter (· ≠ C 'D')
  inOrder : s.delivered <+: s.line.committed.filter (· ≠ C 'D')
  /-- A call that has read some bytes, or reads the bytes `b` now, returns at a control-D. -/
  ends : ∀ (t : ι) (target n : ℕ) (b rest : List UInt8), s.unread = b ++ C 'D' :: rest →
    (∀ c ∈ b, c ≠ C 'D' ∧ c ≠ newline) → b.length < n → b ≠ [] ∨ n < target → n ≤ target →
    (s.stretch t target n).delivered = s.delivered ++ b ∧
      (s.stretch t target n).returned = s.returned ++ [(t, (target : ℤ) - (n - b.length : ℕ))] ∧
      (s.stretch t target n).saved = true
  /-- The call after it returns `0`. -/
  next : s.saved = true → ∀ (t : ι) (n : ℤ), (s.consoleread t n).returned = s.returned ++ [(t, 0)]

section Discipline

variable [DecidableEq ι] {s : State ι}

theorem Inv.stretch_eq (h : Inv s) (t : ι) {target n : ℕ} {b : List UInt8} {o : Outcome}
    (hserve : serve target n s.unread = (b, o)) : ∃ i, s.stretch t target n =
      { s with
        input := i
        taken := s.taken + b.length + o.marks
        delivered := s.delivered ++ b
        saved := false }.leave t target o := by
  obtain ⟨hread, -⟩ := h.books.readLoop target n
  refine ⟨(s.input.readLoop target n).1, ?_⟩
  unfold State.stretch
  generalize s.input.readLoop target n = res at hread ⊢
  obtain ⟨i, b', o'⟩ := res
  obtain ⟨rfl, rfl⟩ := Prod.mk.inj (hread.trans hserve)
  rfl

theorem Inv.discipline (h : Inv s) : Discipline s where
  order := by
    rw [h.books.write_sub_read, h.books.edit_sub_read]
    have hle := Books.committed_le s.line
    have hspan := h.books.span
    omega
  kept k hk hr := by
    rw [h.books.ring.held k (hk.trans_le (Books.committed_le _)) hr]
    exact List.getElem_append_left hk
  taken := h.delivered
  inOrder := by
    rw [h.delivered]
    exact (List.take_prefix _ _).filter _
  ends t target n b rest hunread hb hn hsome hle := by
    obtain ⟨i, hi⟩ := h.stretch_eq t (hunread ▸ serve_saved hb hn hsome hle)
    rw [hi]
    exact ⟨rfl, rfl, rfl⟩
  next hsaved t n := by
    obtain ⟨rest, hrest⟩ := h.saved hsaved
    unfold State.consoleread
    split_ifs with hn
    · obtain ⟨i, hi⟩ := h.stretch_eq t
        (hrest ▸ serve_eof (n := n.toNat) (Int.pos_iff_toNat_pos.mp hn) rest)
      rw [hi]
      simp [State.leave, State.finish]
    · rfl

/-- **The line discipline of the console**, for every interleaving of interrupts with calls. -/
theorem line_discipline {buf : ℕ → UInt8} {hist : List (State ι × Label ι)}
    (tr : Trace Step (initial ι buf) hist s) : Discipline s := by
  have hinv : Inv s := tr.invariant (.initial buf) fun hi hs ↦ hi.step hs
  exact hinv.discipline

end Discipline

/-- Two keys, one of them erased, a control-D, and a call that meets the mark after one byte; the
next call finds it. -/
def markAfterByte : List (Label Unit) :=
  [.consoleintr ['a'.toUInt8, 'b'.toUInt8, C 'H', C 'D', 'c'.toUInt8], .consoleread () 5,
    .consoleintr [carriageReturn]]

theorem line_discipline_markAfterByte : ∃ hist s,
    Trace Step (initial Unit fun _ ↦ 0) hist s ∧ hist.map Prod.snd = markAfterByte ∧
      s.delivered = ['a'.toUInt8] ∧ s.saved = true ∧ Discipline s := by
  have hrun : (execute State.exec (initial Unit fun _ ↦ 0) markAfterByte).map
      (fun s ↦ (s.delivered, s.saved)) = some (['a'.toUInt8], true) := by decide +kernel
  obtain ⟨hist, s, tr, hlab, hlast⟩ : ∃ hist s, Trace Step _ hist s ∧ _ :=
    exists_trace_of_execute_map (fun _ _ _ ↦ id) hrun
  obtain ⟨hdelivered, hsaved⟩ := Prod.mk.inj hlast
  exact ⟨hist, s, tr, hlab, hdelivered, hsaved, line_discipline tr⟩

end SistemasOperacionais.Xv6.Console
