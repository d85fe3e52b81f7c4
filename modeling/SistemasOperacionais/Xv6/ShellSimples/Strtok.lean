import SistemasOperacionais.Xv6.ShellSimples.Model

/-!
# `strtok.c`

Both shells include this file. A word is not copied: `strtok` returns a pointer into the line, puts
a null byte behind the word and keeps in `last` where the rest starts. The child reads the words
after all the calls, so the later ones must not write to them.
-/

namespace SistemasOperacionais.Xv6.ShellSimples

open Foundations

/-- The memory from `lc` on, and `last`. A pointer is a distance from `lc`, `none` is `NULL`. -/
structure Strtok where
  mem : List UInt8
  last : Option ℕ

/-- The first byte from `s` on at which a loop over the string stops. -/
def percorre (p : UInt8 → Bool) (mem : List UInt8) (s : ℕ) : Option ℕ :=
  ((mem.drop s).findIdx? p).map (s + ·)

/-- `strtok(s, delim)`; it fails if a loop leaves the memory. -/
def strtok (s : Option ℕ) (delim : List UInt8) (m : Strtok) : Option (Option ℕ × Strtok) :=
  match s.or m.last with
  | none => some (none, m)
  | some s => do
    -- `cont:`
    let tok ← percorre (· ∉ delim) m.mem s
    if m.mem[tok]? = some 0 then return (none, ⟨m.mem, none⟩)
    let c ← percorre (fun c ↦ c ∈ delim ∨ c = 0) m.mem (tok + 1)
    if m.mem[c]? = some 0 then return (some tok, ⟨m.mem, none⟩)
    return (some tok, ⟨m.mem.set c 0, some (c + 1)⟩)

/-- `n` calls, all but the first one with a null pointer. -/
def strtoks : ℕ → Option ℕ → Strtok → Option (List (Option ℕ) × Strtok)
  | 0, _, m => some ([], m)
  | n + 1, s, m => do
    let (tok, m) ← strtok s [espaco] m
    let (toks, m) ← strtoks n none m
    return (tok :: toks, m)

variable {a b w r resto : List UInt8} {c : UInt8} {m : Strtok} {s : Option ℕ}

theorem percorre_eq {p : UInt8 → Bool} (hb : ∀ x ∈ b, p x = false) (hc : p c = true) :
    percorre p (a ++ (b ++ c :: r)) a.length = some (a.length + b.length) := by
  rw [percorre, List.drop_left, List.findIdx?_append, List.findIdx?_eq_none_iff.mpr hb,
    List.findIdx?_cons, if_pos hc]
  simp

theorem strtok_none (hs : s.or m.last = some a.length) (hm : m.mem = a ++ (r ++ 0 :: resto))
    (hr : ∀ c ∈ r, c = espaco) : strtok s [espaco] m = some (none, ⟨m.mem, none⟩) := by
  have hp : percorre (· ∉ [espaco]) m.mem a.length = some (a.length + r.length) := by
    rw [hm]
    exact percorre_eq (fun c hc ↦ by simp [hr c hc]) (by decide)
  simp only [strtok, hs, hp, Option.bind_eq_bind, Option.bind_some]
  simp [hm]

/-- A word, with a space or the end of the line behind it. -/
theorem strtok_some (hs : s.or m.last = some a.length) (hm : m.mem = a ++ (b ++ (w ++ c :: r)))
    (hb : ∀ c ∈ b, c = espaco) (hne : w ≠ []) (hw : espaco ∉ w) (hw0 : 0 ∉ w)
    (hc : c = espaco ∨ c = 0) :
    strtok s [espaco] m = some (some (a ++ b).length,
      ⟨a ++ (b ++ (w ++ 0 :: r)), if c = 0 then none else some ((a ++ (b ++ w)).length + 1)⟩) := by
  obtain ⟨y, w, rfl⟩ := List.exists_cons_of_ne_nil hne
  have hp : percorre (· ∉ [espaco]) m.mem a.length = some (a.length + b.length) := by
    rw [hm]
    exact percorre_eq (fun c hc ↦ by simp [hb c hc]) (by grind)
  have hq : percorre (fun c ↦ c ∈ [espaco] ∨ c = 0) m.mem (a.length + b.length + 1) =
      some (a.length + b.length + 1 + w.length) := by
    have h := percorre_eq (a := a ++ b ++ [y]) (b := w) (c := c) (r := r)
      (p := fun c ↦ c ∈ [espaco] ∨ c = 0) (by grind) (by simp [hc])
    simpa [hm, Nat.add_assoc] using h
  have hy : y ≠ 0 := by grind
  simp only [strtok, hs, hp, hq, Option.bind_eq_bind, Option.bind_some]
  by_cases h0 : c = 0 <;> simp [hm, hy, h0, Nat.add_assoc, Nat.add_comm 1]

/-- What is left of the line, behind `a`. -/
structure Resta (m : Strtok) (s : Option ℕ) (a r resto : List UInt8) : Prop where
  mem : m.mem = a ++ (r ++ 0 :: resto)
  last : s.or m.last = some a.length ∨ s = none ∧ m.last = none ∧ r = []
  zero : 0 ∉ r

/-- One call takes the next word, and it is not written to again: the bytes up to `a ++ x` stay. -/
theorem Resta.strtok (h : Resta m s a r resto) : ∃ tok m' x r',
    ShellSimples.strtok s [espaco] m = some (tok, m') ∧ Resta m' none (a ++ x) r' resto ∧
      x.length + r'.length = r.length ∧ words espaco r' = (words espaco r).tail ∧
      ∀ y, y.length = r'.length →
        tok.map (fun p ↦ cadeia ((a ++ x ++ (y ++ 0 :: resto)).drop p)) = (words espaco r)[0]? := by
  have hm := h.mem
  rcases h.last with hs | ⟨rfl, hl, rfl⟩
  · rcases @words_cases _ _ espaco r with ⟨hnil, hr⟩ | ⟨b, w, r', hwords, hb, hne, hw, hcases⟩
    · refine ⟨none, _, r, [], strtok_none hs hm hr, ⟨by simp [hm], .inr ⟨rfl, rfl, rfl⟩, by simp⟩,
        by simp, by simp [hnil], by simp [hnil]⟩
    have hw0 : 0 ∉ w := by grind [h.zero]
    have hstr (t : List UInt8) : cadeia (w ++ 0 :: t) = w := by
      rw [cadeia, List.takeWhile_append_of_pos (by grind)]
      simp
    rcases hcases with ⟨rfl, rfl⟩ | rfl
    · -- the line ends with the word
      refine ⟨_, _, b ++ w, [], strtok_some (r := resto) hs (hm.trans (by simp)) hb hne hw hw0
        (.inr rfl), ⟨by simp, .inr ⟨rfl, rfl, rfl⟩, by simp⟩, by simp, by simp [hwords], ?_⟩
      intro y hy
      rw [List.length_eq_zero_iff.mp hy, hwords]
      simpa using hstr resto
    · refine ⟨_, _, b ++ (w ++ [0]), r', strtok_some (r := r' ++ 0 :: resto) hs
        (hm.trans (by simp)) hb hne hw hw0 (.inl rfl), ⟨by simp, .inl ?_, by grind [h.zero]⟩,
        by simp; omega, by rw [hwords, List.tail_cons], ?_⟩
      · rw [if_neg (by decide)]
        simp [Nat.add_assoc]
      · intro y _
        rw [hwords]
        simpa using hstr (y ++ 0 :: resto)
  · exact ⟨none, m, [], [], by simp [ShellSimples.strtok, hl], by simpa using h, rfl, rfl, by simp⟩

theorem Resta.strtoks (n : ℕ) (h : Resta m s a r resto) : ∃ toks m' x,
    ShellSimples.strtoks n s m = some (toks, m') ∧ m'.mem = a ++ (x ++ 0 :: resto) ∧
      x.length = r.length ∧ toks.map (Option.map fun p ↦ cadeia (m'.mem.drop p)) =
        (List.range n).map ((words espaco r)[·]?) := by
  induction n generalizing s a r m with
  | zero => exact ⟨[], m, r, rfl, h.mem, rfl, rfl⟩
  | succ n ih =>
    obtain ⟨tok, m', x, r', hs, h', hlen, htail, hstr⟩ := h.strtok
    obtain ⟨toks, m'', y, hrun, hmem, hy, htoks⟩ := ih h'
    refine ⟨tok :: toks, m'', x ++ y, ?_, by simp [hmem], by simp [hy, hlen], ?_⟩
    · simp [ShellSimples.strtoks, hs, hrun]
    · rw [List.map_cons, htoks, hmem, hstr y hy, List.range_succ_eq_map, List.map_cons, htail]
      simp

/-- **`strtok` gives the words of the line and then null pointers**, whatever an earlier line has
left in `last`. Nothing behind the line is written to. -/
theorem strtoks_eq_palavras (n : ℕ) (buf resto : List UInt8) (last : Option ℕ) : ∃ toks m x,
    ShellSimples.strtoks n (some 0) ⟨aparada buf ++ 0 :: resto, last⟩ = some (toks, m) ∧
      toks.map (Option.map fun p ↦ cadeia (m.mem.drop p)) =
        (List.range n).map ((palavras buf)[·]?) ∧
      m.mem = x ++ 0 :: resto ∧ x.length = (aparada buf).length := by
  have h0 : 0 ∉ aparada buf := fun h0 ↦ by
    simpa using List.mem_takeWhile_imp (List.mem_of_mem_dropLast h0)
  have hr : Resta ⟨aparada buf ++ 0 :: resto, last⟩ (some 0) [] (aparada buf) resto :=
    ⟨rfl, .inl rfl, h0⟩
  obtain ⟨toks, m, x, hrun, hmem, hlen, htoks⟩ := hr.strtoks n
  exact ⟨toks, m, x, hrun, htoks, hmem, hlen⟩

end SistemasOperacionais.Xv6.ShellSimples
