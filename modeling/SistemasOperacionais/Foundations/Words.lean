import Mathlib.Data.List.Basic
import Mathlib.Data.List.TakeWhile
import Mathlib.Tactic

/-!
# Words

A list is cut into words at a separator; several separators in a row are as good as one, and there
may be some at both ends. A program that goes through a list takes the next word and leaves the rest
(`token`), until there is none.

The words together are all of the list but the separators (`flatten_words`), so to lose something
else than a separator changes the words.
-/

namespace Foundations

variable {α : Type*} [DecidableEq α] {sep : α} {s t w r : List α}

def words (sep : α) (s : List α) : List (List α) := (s.splitOn sep).filter (· ≠ [])

/-- The next word, and what comes after the separator behind it. -/
def token (sep : α) (s : List α) : Option (List α × List α) :=
  match s.dropWhile (· = sep) with
  | [] => none
  | c :: t => some (c :: t.takeWhile (· ≠ sep), (t.dropWhile (· ≠ sep)).tail)

@[simp] theorem words_nil : words sep [] = [] := by
  simp [words]

theorem words_append_sep (s t : List α) :
    words sep (s ++ sep :: t) = words sep s ++ words sep t := by
  rw [words, List.splitOn_append_cons_self, List.filter_append, ← words, ← words]

theorem words_sep_cons (s : List α) : words sep (sep :: s) = words sep s := by
  rw [← List.nil_append (sep :: s), words_append_sep, words_nil, List.nil_append]

theorem words_append_singleton (s : List α) : words sep (s ++ [sep]) = words sep s := by
  rw [words_append_sep, words_nil, List.append_nil]

theorem words_of_notMem (hw : w ≠ []) (hsep : sep ∉ w) : words sep w = [w] := by
  rw [words, List.splitOn_eq_singleton hsep]
  simp [hw]

theorem words_dropWhile (s : List α) : words sep (s.dropWhile (· = sep)) = words sep s := by
  induction s with
  | nil => rfl
  | cons c s ih =>
    by_cases hc : c = sep
    · rw [List.dropWhile_cons_of_pos (by simpa using hc), ih, hc, words_sep_cons]
    · rw [List.dropWhile_cons_of_neg (by simpa using hc)]

theorem eq_of_dropWhile {x : α} (h : t.dropWhile (· ≠ sep) = x :: r) : x = sep := by
  have hhead := List.head?_dropWhile_not (fun y ↦ decide (y ≠ sep)) t
  rw [h] at hhead
  simpa using hhead

theorem notMem_takeWhile {c : α} (hc : c ≠ sep) (t : List α) :
    sep ∉ c :: t.takeWhile (· ≠ sep) := by
  intro hmem
  rcases List.mem_cons.mp hmem with heq | hmem
  · exact hc heq.symm
  · simpa using List.mem_takeWhile_imp hmem

/-- A list that starts with a word. -/
theorem words_cons {c : α} (hc : c ≠ sep) (t : List α) :
    words sep (c :: t) =
      (c :: t.takeWhile (· ≠ sep)) :: words sep (t.dropWhile (· ≠ sep)).tail := by
  have hnot := notMem_takeWhile hc t
  have hsplit : c :: t = (c :: t.takeWhile (· ≠ sep)) ++ t.dropWhile (· ≠ sep) := by
    rw [List.cons_append, List.takeWhile_append_dropWhile]
  cases hrest : t.dropWhile (· ≠ sep) with
  | nil =>
    rw [hrest, List.append_nil] at hsplit
    rw [List.tail_nil, words_nil, ← words_of_notMem (List.cons_ne_nil _ _) hnot, ← hsplit]
  | cons x rest =>
    obtain rfl := eq_of_dropWhile hrest
    rw [hrest] at hsplit
    rw [hsplit, words_append_sep, words_of_notMem (List.cons_ne_nil _ _) hnot]
    rfl

/-- The separator behind a word belongs to no word. -/
theorem words_tail (t : List α) :
    words sep (t.dropWhile (· ≠ sep)).tail = words sep (t.dropWhile (· ≠ sep)) := by
  cases hrest : t.dropWhile (· ≠ sep) with
  | nil => rfl
  | cons x rest => rw [eq_of_dropWhile hrest, List.tail_cons, words_sep_cons]

theorem ne_of_dropWhile {c : α} (h : s.dropWhile (· = sep) = c :: t) : c ≠ sep := by
  have hhead := List.head?_dropWhile_not (fun y ↦ decide (y = sep)) s
  rw [h] at hhead
  simpa using hhead

/-- Where the next word stands: behind some separators, and before another one or at the end. -/
theorem words_cases (s : List α) :
    (words sep s = [] ∧ ∀ c ∈ s, c = sep) ∨
      ∃ b w r, words sep s = w :: words sep r ∧ (∀ c ∈ b, c = sep) ∧ w ≠ [] ∧ sep ∉ w ∧
        (s = b ++ w ∧ r = [] ∨ s = b ++ w ++ sep :: r) := by
  have hs := List.takeWhile_append_dropWhile (p := (· = sep)) (l := s)
  rw [← words_dropWhile s]
  cases hd : s.dropWhile (· = sep) with
  | nil => exact .inl ⟨words_nil, by simpa using hd⟩
  | cons c t =>
    have hsplit := List.takeWhile_append_dropWhile (p := (· ≠ sep)) (l := t)
    have hc := ne_of_dropWhile hd
    refine .inr ⟨s.takeWhile (· = sep), _, _, words_cons hc t, fun c hc ↦ ?_, List.cons_ne_nil _ _,
      notMem_takeWhile hc t, ?_⟩
    · simpa using List.mem_takeWhile_imp hc
    · cases hrest : t.dropWhile (· ≠ sep) with
      | nil =>
        rw [hrest, List.append_nil] at hsplit
        exact .inl ⟨by rw [hsplit, ← hd, hs], rfl⟩
      | cons x rest =>
        rw [hrest, eq_of_dropWhile hrest] at hsplit
        rw [List.append_assoc, List.cons_append, List.tail_cons, hsplit, ← hd, hs]
        exact .inr rfl

theorem token_eq_none_iff : token sep s = none ↔ words sep s = [] := by
  rw [token, ← words_dropWhile]
  cases hs : s.dropWhile (· = sep) with
  | nil => simp
  | cons c t =>
    have hc := ne_of_dropWhile hs
    simp [words_cons hc]

/-- **The next word is the first one**, and the others are left. -/
theorem words_of_token (h : token sep s = some (w, r)) : words sep s = w :: words sep r := by
  rw [token] at h
  rw [← words_dropWhile]
  cases hs : s.dropWhile (· = sep) with
  | nil =>
    rw [hs] at h
    cases h
  | cons c t =>
    have hc := ne_of_dropWhile hs
    rw [hs] at h
    obtain ⟨rfl, rfl⟩ := Prod.mk.inj (Option.some.inj h)
    exact words_cons hc t

/-- **Only separators are not in a word.** -/
theorem flatten_words (s : List α) : (words sep s).flatten = s.filter (· ≠ sep) := by
  rw [words, List.flatten_filter_ne_nil]
  induction s with
  | nil => simp
  | cons c s ih =>
    rw [List.splitOn_cons_eq_if_modifyHead]
    by_cases hc : c = sep
    · simp [hc, ih]
    · have hne := List.splitOn_ne_nil sep s
      cases hsplit : s.splitOn sep with
      | nil => exact absurd hsplit hne
      | cons x l =>
        rw [hsplit] at ih
        simpa [hc] using ih

theorem words_eq_nil_iff : words sep s = [] ↔ ∀ c ∈ s, c = sep := by
  constructor
  · intro h
    have hfilter : [] = s.filter (· ≠ sep) := by rw [← flatten_words, h, List.flatten_nil]
    simpa using List.filter_eq_nil_iff.mp hfilter.symm
  · intro h
    have hdrop : s.dropWhile (· = sep) = [] :=
      List.dropWhile_eq_nil_iff.mpr fun c hc ↦ by simpa using h c hc
    rw [← words_dropWhile, hdrop, words_nil]

end Foundations
