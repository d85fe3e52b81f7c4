import SistemasOperacionais.Foundations.Lines
import Mathlib.Data.PNat.Basic

/-!
# grep

`grep.c`: a line matcher over a buffer of 1024 bytes. `read` delivers the input in pieces of sizes
that others choose, and the part of a line that a piece ends with is to be carried over to the next
one.

It is carried over only if the buffer holds a newline. When it holds none, `p == buf` and the code
sets `m` to 0: the beginning of the line is forgotten. So the output is right for every pattern
exactly when each `read` before the last newline delivers a newline (`Whole`).

The matcher recurs along the pattern and the line. The stack that a process has for it, one page in
`exec`, is taken to be large enough.
-/

namespace SistemasOperacionais.Xv6.Grep

open Foundations

def newline : UInt8 := 10

def star : UInt8 := 42

def dot : UInt8 := 46

def dollar : UInt8 := 36

def caret : UInt8 := 94

/-! ## Patterns -/

/-- `matchstar(c, re, text)`, with `here` for `matchhere(re, ·)`. A string is the list of its bytes
before the NUL. -/
def matchstar (c : UInt8) (here : List UInt8 → Bool) : List UInt8 → Bool
  | [] => here []
  | t :: text => here (t :: text) || ((c == dot || c == t) && matchstar c here text)

/-- The last test of `matchhere`, with `here` for `matchhere(re+1, ·)`. -/
def matchchar (c : UInt8) (here : List UInt8 → Bool) : List UInt8 → Bool
  | [] => false
  | t :: text => (c == dot || c == t) && here text

def matchhere : List UInt8 → List UInt8 → Bool
  | [], _ => true
  | [c], text => if c = dollar then text.isEmpty else matchchar c (fun _ ↦ true) text
  | c :: d :: re, text =>
    if d = star then matchstar c (matchhere re) text else matchchar c (matchhere (d :: re)) text

def matchLoop (re : List UInt8) : List UInt8 → Bool
  | [] => matchhere re []
  | t :: text => matchhere re (t :: text) || matchLoop re text

def match_ (re text : List UInt8) : Bool :=
  if re.head? = some caret then matchhere re.tail text else matchLoop re text

/-- What a character of a pattern stands for. -/
def Stands (c t : UInt8) : Prop := c = dot ∨ c = t

/-- A beginning of the text is of the form of the pattern. -/
inductive Here : List UInt8 → List UInt8 → Prop
  | nil (text : List UInt8) : Here [] text
  | dollar : Here [dollar] []
  | star {c : UInt8} {re run text : List UInt8} :
      (∀ t ∈ run, Stands c t) → Here re text → Here (c :: star :: re) (run ++ text)
  | char {c t : UInt8} {re text : List UInt8} : re.head? ≠ some star → c :: re ≠ [dollar] →
      Stands c t → Here re text → Here (c :: re) (t :: text)

/-- The text matches the pattern. -/
def Matches (re text : List UInt8) : Prop :=
  if re.head? = some caret then Here re.tail text else ∃ t, t <:+ text ∧ Here re t

section Patterns

variable {re text : List UInt8} {c : UInt8}

theorem stands_iff {t : UInt8} : (c == dot || c == t) = true ↔ Stands c t := by
  rw [Bool.or_eq_true, beq_iff_eq, beq_iff_eq, Stands]

theorem matchstar_iff {here : List UInt8 → Bool} : matchstar c here text = true ↔
    ∃ run rest, text = run ++ rest ∧ (∀ t ∈ run, Stands c t) ∧ here rest = true := by
  induction text with
  | nil =>
    constructor
    · intro h
      exact ⟨[], [], rfl, fun t ht ↦ absurd ht List.not_mem_nil, h⟩
    · rintro ⟨run, rest, htext, -, h⟩
      obtain ⟨rfl, rfl⟩ := List.append_eq_nil_iff.mp htext.symm
      exact h
  | cons t text ih =>
    rw [matchstar, Bool.or_eq_true, Bool.and_eq_true, stands_iff, ih]
    constructor
    · rintro (h | ⟨hc, run, rest, rfl, hrun, h⟩)
      · exact ⟨[], _, rfl, fun t ht ↦ absurd ht List.not_mem_nil, h⟩
      · refine ⟨t :: run, rest, rfl, fun t' ht' ↦ ?_, h⟩
        rcases List.mem_cons.mp ht' with rfl | ht'
        · exact hc
        · exact hrun t' ht'
    · rintro ⟨run, rest, htext, hrun, h⟩
      cases run with
      | nil => exact .inl (htext ▸ h)
      | cons t' run =>
        obtain ⟨rfl, rfl⟩ := List.cons.inj htext
        exact .inr ⟨hrun t List.mem_cons_self, run, rest, rfl,
          fun t' ht' ↦ hrun t' (List.mem_cons_of_mem _ ht'), h⟩

theorem here_cons {t : UInt8} (hstar : re.head? ≠ some star) (hdollar : c :: re ≠ [dollar]) :
    Here (c :: re) (t :: text) ↔ Stands c t ∧ Here re text := by
  constructor
  · intro h
    generalize hx : t :: text = x at h
    cases h with
    | dollar => exact absurd rfl hdollar
    | star => exact absurd rfl hstar
    | char _ _ hst hrest =>
      obtain ⟨rfl, rfl⟩ := List.cons.inj hx
      exact ⟨hst, hrest⟩
  · rintro ⟨hst, h⟩
    exact .char hstar hdollar hst h

theorem here_cons_nil (hstar : re.head? ≠ some star) : Here (c :: re) [] ↔ c :: re = [dollar] := by
  constructor
  · intro h
    generalize hx : ([] : List UInt8) = x at h
    cases h with
    | dollar => rfl
    | star => exact absurd rfl hstar
    | char => cases hx
  · intro h
    rw [h]
    exact .dollar

theorem matchchar_iff {here : List UInt8 → Bool} (hstar : re.head? ≠ some star)
    (hdollar : c :: re ≠ [dollar]) (h : ∀ text, here text = true ↔ Here re text) :
    matchchar c here text = true ↔ Here (c :: re) text := by
  cases text with
  | nil =>
    rw [here_cons_nil hstar]
    exact iff_of_false Bool.false_ne_true hdollar
  | cons t text => rw [here_cons hstar hdollar, matchchar, Bool.and_eq_true, stands_iff, h]

theorem here_star : Here (c :: star :: re) text ↔
    ∃ run rest, text = run ++ rest ∧ (∀ t ∈ run, Stands c t) ∧ Here re rest := by
  constructor
  · intro h
    cases h with
    | star hrun h => exact ⟨_, _, rfl, hrun, h⟩
    | char hstar => exact absurd rfl hstar
  · rintro ⟨run, rest, rfl, hrun, h⟩
    exact .star hrun h

/-- **The matcher is right.** -/
theorem matchhere_iff (re text : List UInt8) : matchhere re text = true ↔ Here re text := by
  induction hn : re.length using Nat.strong_induction_on generalizing re text with
  | _ n ih =>
    rcases re with _ | ⟨c, _ | ⟨d, re⟩⟩
    · rw [matchhere]
      exact iff_of_true rfl (.nil text)
    · by_cases hc : c = dollar
      · subst hc
        rw [matchhere, if_pos rfl, List.isEmpty_iff]
        constructor
        · intro h
          rw [h]
          exact .dollar
        · intro h
          cases h with
          | dollar => rfl
          | char _ hdollar => exact absurd rfl hdollar
      · have hne : [c] ≠ [dollar] := fun h ↦ hc (List.cons.inj h).1
        rw [matchhere, if_neg hc, matchchar_iff (by simp) hne fun text ↦ ?_]
        exact iff_of_true rfl (.nil text)
    · by_cases hd : d = star
      · subst hd
        have hre := ih re.length (by rw [← hn]; simp only [List.length_cons]; omega) re
        rw [matchhere, if_pos rfl, matchstar_iff, here_star]
        simp only [fun text ↦ hre text rfl]
      · have hstar : (d :: re).head? ≠ some star := fun h ↦ hd (Option.some.inj h)
        have hre := ih (d :: re).length (by rw [← hn, List.length_cons]; exact Nat.lt_succ_self _)
        rw [matchhere, if_neg hd, matchchar_iff hstar (by simp) fun text ↦ hre _ text rfl]

theorem matchLoop_iff : matchLoop re text = true ↔ ∃ t, t <:+ text ∧ Here re t := by
  induction text with
  | nil =>
    rw [matchLoop, matchhere_iff]
    simp only [List.suffix_nil, exists_eq_left]
  | cons t text ih =>
    rw [matchLoop, Bool.or_eq_true, matchhere_iff, ih]
    constructor
    · rintro (h | ⟨u, hu, h⟩)
      · exact ⟨_, List.suffix_refl _, h⟩
      · exact ⟨u, hu.trans (List.suffix_cons ..), h⟩
    · rintro ⟨u, hu, h⟩
      rcases List.suffix_cons_iff.mp hu with rfl | hu
      · exact .inl h
      · exact .inr ⟨u, hu, h⟩

theorem match_iff (re text : List UInt8) : match_ re text = true ↔ Matches re text := by
  rw [match_, Matches]
  split
  · exact matchhere_iff ..
  · exact matchLoop_iff

instance (re : List UInt8) : DecidablePred (Matches re) := fun text ↦
  decidable_of_iff _ (match_iff re text)

end Patterns

/-! ## The buffer -/

/-- `strchr`, as a number of bytes from the start of the string. -/
def strchr (c : UInt8) : List UInt8 → Option ℕ
  | [] => none
  | a :: s => if a = 0 then none else if a = c then some 0 else (strchr c s).map (· + 1)

/-- The inner loop of `grep`, on the text from `p` on: what is written, and how far `p` gets. -/
def scan (re : List UInt8) : ℕ → List UInt8 → List UInt8 × ℕ
  | 0, _ => ([], 0)
  | fuel + 1, text =>
    match strchr newline text with
    | none => ([], 0)
    | some q =>
      let r := scan re fuel (text.drop (q + 1))
      ((if match_ re (text.take q) then text.take (q + 1) else []) ++ r.1, q + 1 + r.2)

/-- How many bytes `read` number `i` delivers at most: `size i` bytes are there, and it is asked for
what the buffer has room for. -/
def asked (size : ℕ → ℕ+) (i : ℕ) (held : List UInt8) : ℕ := min (size i) (1023 - held.length)

/-- The outer loop of `grep`. The buffer holds the bytes `held`, and `input` is to be read. -/
def grepLoop (re : List UInt8) (size : ℕ → ℕ+) : ℕ → ℕ → List UInt8 → List UInt8 → List UInt8
  | 0, _, _, _ => []
  | fuel + 1, i, held, input =>
    let chunk := input.take (asked size i held)
    if chunk = [] then []
    else
      let r := scan re (held ++ chunk).length (held ++ chunk)
      r.1 ++ grepLoop re size fuel (i + 1) (if r.2 = 0 then [] else (held ++ chunk).drop r.2)
        (input.drop (asked size i held))

/-- What `grep` writes. Each `read` but the last delivers a byte at least. -/
def grep (re : List UInt8) (size : ℕ → ℕ+) (stream : List UInt8) : List UInt8 :=
  grepLoop re size (stream.length + 1) 0 [] stream

/-- The lines that match, each with its newline. -/
def selected (re stream : List UInt8) : List UInt8 :=
  ((lines newline stream).filter (Matches re)).flatMap (· ++ [newline])

/-- Each `read` from number `i` on delivers a newline, as long as there is one to come. The
beginning `held` of a line has been read before. -/
inductive Whole (size : ℕ → ℕ+) : ℕ → List UInt8 → List UInt8 → Prop
  | rest {i : ℕ} {held input : List UInt8} : newline ∉ input → Whole size i held input
  | read {i : ℕ} {held input : List UInt8} : newline ∈ input.take (asked size i held) →
      Whole size (i + 1) (remainder newline (held ++ input.take (asked size i held)))
        (input.drop (asked size i held)) → Whole size i held input

section Buffer

variable {re text held input : List UInt8} {size : ℕ → ℕ+} {fuel i : ℕ}

theorem strchr_eq_none (h : newline ∉ text) : strchr newline text = none := by
  induction text with
  | nil => rfl
  | cons a text ih =>
    obtain ⟨ha, htext⟩ := not_or.mp (mt List.mem_cons.mpr h)
    rw [strchr, if_neg (Ne.symm ha), ih htext, Option.map_none, ite_self]

theorem strchr_eq_some {w : List UInt8} (hw : newline ∉ w) (h0 : 0 ∉ w) (t : List UInt8) :
    strchr newline (w ++ newline :: t) = some w.length := by
  induction w with
  | nil => rfl
  | cons a w ih =>
    obtain ⟨ha, hw⟩ := not_or.mp (mt List.mem_cons.mpr hw)
    obtain ⟨ha0, h0⟩ := not_or.mp (mt List.mem_cons.mpr h0)
    rw [List.cons_append, strchr, if_neg (Ne.symm ha0), if_neg (Ne.symm ha), ih hw h0,
      Option.map_some, List.length_cons]

theorem selected_of_notMem (h : newline ∉ text) : selected re text = [] := by
  rw [selected, lines_of_notMem h, List.filter_nil, List.flatMap_nil]

theorem selected_append (re s t : List UInt8) :
    selected re (s ++ t) = selected re s ++ selected re (remainder newline s ++ t) := by
  rw [selected, lines_append, List.filter_append, List.flatMap_append, ← selected, ← selected]

theorem selected_cons {w : List UInt8} (hw : newline ∉ w) (re t : List UInt8) :
    selected re (w ++ newline :: t) =
      (if match_ re w then w ++ [newline] else []) ++ selected re t := by
  rw [selected, lines_cons hw, List.filter_cons, selected]
  simp only [decide_eq_true_eq, ← match_iff]
  split
  · rw [List.flatMap_cons]
  · rw [List.nil_append]

theorem selected_nil (s : List UInt8) : selected [] s ++ remainder newline s = s := by
  have hall : (lines newline s).filter (Matches []) = lines newline s :=
    List.filter_eq_self.mpr fun l _ ↦ decide_eq_true ⟨l, List.suffix_refl l, .nil l⟩
  rw [selected, hall, flatMap_lines]

/-- The inner loop writes the lines that match and leaves the remainder. -/
theorem scan_eq (re : List UInt8) (h0 : 0 ∉ text) (hfuel : text.length ≤ fuel) :
    (scan re fuel text).1 = selected re text ∧
      text.drop (scan re fuel text).2 = remainder newline text ∧
      ((scan re fuel text).2 = 0 ↔ newline ∉ text) := by
  induction text using lines_induct newline generalizing fuel with
  | rest s hs =>
    have hscan : scan re fuel s = ([], 0) := by
      cases fuel with
      | zero => rfl
      | succ fuel => rw [scan, strchr_eq_none hs]
    rw [hscan, selected_of_notMem hs, remainder_of_notMem hs]
    exact ⟨rfl, List.drop_zero, iff_of_true rfl hs⟩
  | line w t hw ih =>
    have hw0 : 0 ∉ w := fun h ↦ h0 (List.mem_append_left _ h)
    have ht0 : 0 ∉ t := fun h ↦ h0 (List.mem_append_right _ (List.mem_cons_of_mem _ h))
    rw [List.length_append, List.length_cons] at hfuel
    cases fuel with
    | zero => omega
    | succ fuel =>
      obtain ⟨hout, hleft, -⟩ := ih ht0 (by omega : t.length ≤ fuel)
      have hline : (w ++ newline :: t).take w.length = w := List.take_left
      have hwhole : (w ++ newline :: t).take (w.length + 1) = w ++ [newline] := by
        rw [List.append_cons, List.take_left' (by rw [List.length_append]; rfl)]
      have hrest : (w ++ newline :: t).drop (w.length + 1) = t := by
        rw [← List.drop_drop, List.drop_left, List.drop_one, List.tail_cons]
      rw [scan, strchr_eq_some hw hw0]
      dsimp only
      rw [hline, hwhole, hrest, hout, selected_cons hw, remainder_cons]
      refine ⟨rfl, ?_, iff_of_false (by omega) fun h ↦ h (by simp)⟩
      rw [← List.drop_drop, hrest, hleft]

/-- Lines that have room in the buffer. -/
def Short (s : List UInt8) : Prop := ∀ l ∈ s.splitOn newline, l.length < 1023

theorem Short.remainder {s t : List UInt8} (h : Short (s ++ t)) :
    Short (remainder newline s ++ t) := by
  intro l hl
  refine h l ?_
  rw [splitOn_append]
  exact List.mem_append_right _ hl

theorem Short.length_lt {s t : List UInt8} (h : Short (s ++ t)) (hs : newline ∉ s) :
    s.length < 1023 := by
  obtain ⟨w, hw⟩ := exists_append_mem_splitOn hs t
  have hlt := h _ hw
  rw [List.length_append] at hlt
  exact (Nat.le_add_right ..).trans_lt hlt

theorem asked_pos (h : held.length < 1023) : 0 < asked size i held :=
  lt_min (size i).pos (Nat.sub_pos_of_lt h)

/-- **One round of the outer loop.** What follows the last newline is kept, if there is one. -/
theorem grepLoop_succ (re : List UInt8) (h0 : 0 ∉ held ++ input) (hheld : newline ∉ held)
    (hchunk : input.take (asked size i held) ≠ []) :
    grepLoop re size (fuel + 1) i held input =
      selected re (held ++ input.take (asked size i held)) ++
        grepLoop re size fuel (i + 1)
          (if newline ∈ input.take (asked size i held) then
            remainder newline (held ++ input.take (asked size i held)) else [])
          (input.drop (asked size i held)) := by
  have h0' : 0 ∉ held ++ input.take (asked size i held) := by
    intro hmem
    rcases List.mem_append.mp hmem with hmem | hmem
    · exact h0 (List.mem_append_left _ hmem)
    · exact h0 (List.mem_append_right _ (List.mem_of_mem_take hmem))
  have hiff : newline ∈ held ++ input.take (asked size i held) ↔
      newline ∈ input.take (asked size i held) := by
    rw [List.mem_append, or_iff_right hheld]
  obtain ⟨hout, hleft, hp⟩ := scan_eq re h0' le_rfl
  rw [grepLoop, if_neg hchunk]
  dsimp only
  rw [hout, hleft]
  by_cases hmem : newline ∈ input.take (asked size i held)
  · rw [if_pos hmem, if_neg (fun hzero ↦ hp.mp hzero (hiff.mpr hmem))]
  · rw [if_neg hmem, if_pos (hp.mpr (mt hiff.mp hmem))]

theorem grepLoop_of_notMem (re : List UInt8) (h0 : 0 ∉ held ++ input) (hheld : newline ∉ held)
    (hinput : newline ∉ input) : grepLoop re size fuel i held input = [] := by
  induction fuel generalizing i held input with
  | zero => rfl
  | succ fuel ih =>
    by_cases hchunk : input.take (asked size i held) = []
    · rw [grepLoop, if_pos hchunk]
    · have htake : newline ∉ input.take (asked size i held) := mt List.mem_of_mem_take hinput
      have hboth : newline ∉ held ++ input.take (asked size i held) := fun hmem ↦
        (List.mem_append.mp hmem).elim hheld htake
      rw [grepLoop_succ re h0 hheld hchunk, if_neg htake, selected_of_notMem hboth]
      refine ih (fun hmem ↦ h0 ?_) List.not_mem_nil (mt List.mem_of_mem_drop hinput)
      exact List.mem_append_right _ (List.mem_of_mem_drop hmem)

theorem take_append_drop_asked (held input : List UInt8) (n : ℕ) :
    held ++ input.take n ++ input.drop n = held ++ input := by
  rw [List.append_assoc, List.take_append_drop]

theorem selected_take (re held input : List UInt8) (n : ℕ) :
    selected re (held ++ input) = selected re (held ++ input.take n) ++
      selected re (remainder newline (held ++ input.take n) ++ input.drop n) := by
  rw [← selected_append, take_append_drop_asked]

/-- What a round keeps for the next one. -/
structure Fits (held input : List UInt8) : Prop where
  nul : 0 ∉ held ++ input
  line : newline ∉ held
  short : Short (held ++ input)

theorem Fits.next (h : Fits held input) (n : ℕ) :
    Fits (remainder newline (held ++ input.take n)) (input.drop n) := by
  obtain ⟨hnul, -, hshort⟩ := h
  rw [← take_append_drop_asked held input n] at hnul hshort
  refine ⟨fun hmem ↦ hnul ?_, notMem_remainder _, hshort.remainder⟩
  rw [← flatMap_lines newline (held ++ input.take n), List.append_assoc]
  exact List.mem_append_right _ hmem

theorem Fits.take_ne_nil (h : Fits held input) (size : ℕ → ℕ+) (i : ℕ) (hinput : input ≠ []) :
    input.take (asked size i held) ≠ [] := by
  have hpos : 0 < asked size i held := asked_pos (h.short.length_lt h.line)
  exact fun hnil ↦ (List.take_eq_nil_iff.mp hnil).elim hpos.ne' hinput

/-- **Nothing is lost** when each piece brings a newline. -/
theorem grepLoop_of_whole (re : List UInt8) (hw : Whole size i held input) (h : Fits held input)
    (hfuel : input.length < fuel) :
    grepLoop re size fuel i held input = selected re (held ++ input) := by
  induction hw generalizing fuel with
  | @rest i held input hinput =>
    have hboth : newline ∉ held ++ input := fun hmem ↦ (List.mem_append.mp hmem).elim h.line hinput
    rw [grepLoop_of_notMem re h.nul h.line hinput, selected_of_notMem hboth]
  | @read i held input hmem _ ih =>
    have hinput : input ≠ [] := List.ne_nil_of_mem (List.mem_of_mem_take hmem)
    have hpos : 0 < asked size i held := asked_pos (h.short.length_lt h.line)
    have hlen := List.length_pos_iff.mpr hinput
    cases fuel with
    | zero => exact absurd hfuel (Nat.not_lt_zero _)
    | succ fuel =>
      rw [grepLoop_succ re h.nul h.line (h.take_ne_nil size i hinput), if_pos hmem,
        ih (h.next _) (by rw [List.length_drop]; omega), ← selected_take]

/-! ### What is lost -/

theorem length_selected_nil (s : List UInt8) :
    (selected [] s).length + (remainder newline s).length = s.length := by
  rw [← List.length_append, selected_nil]

theorem length_selected_append_lt {s t : List UInt8} (ht : newline ∈ t) (hs : s ≠ []) :
    (selected [] t).length < (selected [] (s ++ t)).length := by
  have hlong := length_selected_nil (s ++ t)
  have hshort := length_selected_nil t
  have hpos := List.length_pos_iff.mpr hs
  rw [remainder_append_of_mem ht, List.length_append] at hlong
  omega

theorem length_selected_append_le (s t : List UInt8) :
    (selected [] t).length ≤ (selected [] (s ++ t)).length := by
  by_cases ht : newline ∈ t
  · rcases eq_or_ne s [] with rfl | hs
    · rfl
    · exact (length_selected_append_lt ht hs).le
  · rw [selected_of_notMem ht]
    exact Nat.zero_le _

theorem length_grepLoop_le (h0 : 0 ∉ held ++ input) (hheld : newline ∉ held) :
    (grepLoop [] size fuel i held input).length ≤ (selected [] (held ++ input)).length := by
  induction fuel generalizing i held input with
  | zero => exact Nat.zero_le _
  | succ fuel ih =>
    by_cases hchunk : input.take (asked size i held) = []
    · rw [grepLoop, if_pos hchunk]
      exact Nat.zero_le _
    · rw [grepLoop_succ [] h0 hheld hchunk, List.length_append,
        selected_take [] held input (asked size i held), List.length_append]
      rw [← take_append_drop_asked held input (asked size i held)] at h0
      refine Nat.add_le_add_left ?_ _
      split
      · refine ih (fun hmem ↦ h0 ?_) (notMem_remainder _)
        rw [← flatMap_lines newline (held ++ input.take (asked size i held)), List.append_assoc]
        exact List.mem_append_right _ hmem
      · refine (ih (fun hmem ↦ h0 ?_) List.not_mem_nil).trans (length_selected_append_le ..)
        exact List.mem_append_right _ hmem

/-- **A piece without a newline is lost**, and the line it belongs to is written without it. -/
theorem length_grepLoop_lt (hw : ¬Whole size i held input) (h : Fits held input)
    (hfuel : input.length < fuel) :
    (grepLoop [] size fuel i held input).length < (selected [] (held ++ input)).length := by
  induction fuel generalizing i held input with
  | zero => exact absurd hfuel (Nat.not_lt_zero _)
  | succ fuel ih =>
    have hmem : newline ∈ input := by
      by_contra hmem
      exact hw (.rest hmem)
    have hinput : input ≠ [] := List.ne_nil_of_mem hmem
    have hchunk := h.take_ne_nil size i hinput
    have hpos : 0 < asked size i held := asked_pos (h.short.length_lt h.line)
    have hlen := List.length_pos_iff.mpr hinput
    rw [grepLoop_succ [] h.nul h.line hchunk, List.length_append]
    by_cases htake : newline ∈ input.take (asked size i held)
    · have hnext := ih (fun hnext ↦ hw (.read htake hnext)) (h.next _)
        (by rw [List.length_drop]; omega)
      rw [if_pos htake, selected_take [] held input (asked size i held), List.length_append]
      exact Nat.add_lt_add_left hnext _
    · have hdrop : newline ∈ input.drop (asked size i held) := by
        rw [← List.take_append_drop (asked size i held) input] at hmem
        exact (List.mem_append.mp hmem).resolve_left htake
      have hboth : newline ∉ held ++ input.take (asked size i held) := fun hmem ↦
        (List.mem_append.mp hmem).elim h.line htake
      have hne : held ++ input.take (asked size i held) ≠ [] := fun hnil ↦
        hchunk (List.append_eq_nil_iff.mp hnil).2
      have h0 : 0 ∉ ([] : List UInt8) ++ input.drop (asked size i held) := fun hmem ↦
        h.nul (List.mem_append_right _ (List.mem_of_mem_drop hmem))
      rw [if_neg htake, selected_of_notMem hboth, List.length_nil, Nat.zero_add,
        ← take_append_drop_asked held input (asked size i held)]
      exact (length_grepLoop_le h0 List.not_mem_nil).trans_lt (length_selected_append_lt hdrop hne)

end Buffer

/-- **`grep` and the way its input arrives.** For every stream without NUL and with lines that fit,
the output is right for all patterns exactly when each `read` before the last newline delivers a
newline. -/
theorem grep_eq_selected_iff (size : ℕ → ℕ+) (stream : List UInt8) (h0 : 0 ∉ stream)
    (hshort : ∀ l ∈ stream.splitOn newline, l.length < 1023) :
    (∀ re, grep re size stream = selected re stream) ↔ Whole size 0 [] stream := by
  have hfits : Fits [] stream := ⟨h0, List.not_mem_nil, hshort⟩
  constructor
  · intro h
    by_contra hw
    have hlt := length_grepLoop_lt hw hfits (Nat.lt_succ_self _)
    rw [← grep, h []] at hlt
    exact Nat.lt_irrefl _ hlt
  · intro hw re
    exact grepLoop_of_whole re hw hfits (Nat.lt_succ_self _)

/-- Of the lines `ab` and `cd` the second one arrives in two pieces, and its beginning is carried
over. -/
theorem grep_eq_selected_straddle :
    grep [99, 100] (fun _ ↦ 4) [97, 98, newline, 99, 100, newline] = [99, 100, newline] :=
  (grep_eq_selected_iff (fun _ ↦ 4) [97, 98, newline, 99, 100, newline] (by decide)
    (by decide)).mpr (.read (by decide) (.read (by decide) (.rest (by decide)))) [99, 100]

/-- The line `ab`, delivered byte by byte, does not match `a`. -/
theorem grep_ne_selected_ab :
    grep [97] (fun _ ↦ 1) [97, 98, newline] ≠ selected [97] [97, 98, newline] := by decide

end SistemasOperacionais.Xv6.Grep
