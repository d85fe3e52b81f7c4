import Mathlib.Data.List.Basic
import Mathlib.Tactic

/-!
# Linked lists in a memory

A memory is seen here only through its link fields: a function `next` sends a cell to the cell it
points at. `Seg next p l q` says that following `next` from `p` visits exactly the cells of `l` and
then stands at `q`; it is the usual list segment, without any claim that the cells are distinct.
`Chain` is a segment that ends at the null pointer and does not meet it before, and `DChain` is the
doubly linked form, in which every cell also points back at the one before it. `Circle` is a doubly
linked list that closes at a cell of its own.

Edits of a list in memory are local. `Seg.congr` moves a segment to any other memory that agrees on
its cells, and `seg_append` cuts a segment where an edit happens, so an operation that rewrites a
few links is handled by cutting at those cells and moving the rest.
-/

namespace Foundations

variable {α : Type*}

/-! ## Segments -/

/-- Following `next` from `p` visits the cells of `l`, in order, and arrives at `q`. -/
def Seg (next : α → α) : α → List α → α → Prop
  | p, [], q => p = q
  | p, a :: l, q => p = a ∧ Seg next (next a) l q

variable {next next' : α → α} {p q : α} {l l' : List α}

@[simp] theorem seg_nil : Seg next p [] q ↔ p = q := Iff.rfl

@[simp] theorem seg_cons {a : α} : Seg next p (a :: l) q ↔ p = a ∧ Seg next (next a) l q := Iff.rfl

/-- A segment cut in two: both halves, and the cell where they meet. -/
theorem seg_append : Seg next p (l ++ l') q ↔ ∃ r, Seg next p l r ∧ Seg next r l' q := by
  induction l generalizing p with
  | nil => simp
  | cons a l ih => simp [ih, and_assoc]

/-- A segment reads the links of its own cells only. -/
theorem Seg.congr (h : Seg next p l q) (hl : ∀ a ∈ l, next' a = next a) : Seg next' p l q := by
  induction l generalizing p with
  | nil => exact h
  | cons a l ih =>
    obtain ⟨rfl, hseg⟩ := h
    refine ⟨rfl, ?_⟩
    rw [hl p List.mem_cons_self]
    exact ih hseg fun b hb ↦ hl b (List.mem_cons_of_mem _ hb)

theorem Seg.next_last {a : α} (h : Seg next p (l ++ [a]) q) : next a = q := by
  obtain ⟨r, -, -, hr⟩ := seg_append.mp h
  exact hr

theorem Seg.relink {a r : α} (h : Seg next p (l ++ [a]) q) (hl : ∀ b ∈ l, next' b = next b)
    (ha : next' a = r) : Seg next' p (l ++ [a]) r := by
  obtain ⟨m, hm, rfl, -⟩ := seg_append.mp h
  exact seg_append.mpr ⟨m, hm.congr hl, rfl, ha⟩

/-! ## Null-terminated chains -/

/-- A segment that ends at `null` and does not meet it before. -/
structure Chain (null : α) (next : α → α) (p : α) (l : List α) : Prop where
  seg : Seg next p l null
  ne_null : ∀ a ∈ l, a ≠ null

namespace Chain

variable {null : α}

theorem nil : Chain null next null [] := ⟨rfl, by simp⟩

theorem cons_iff {a : α} :
    Chain null next p (a :: l) ↔ p = a ∧ a ≠ null ∧ Chain null next (next a) l := by
  constructor
  · rintro ⟨⟨hp, hs⟩, hn⟩
    exact ⟨hp, hn a List.mem_cons_self, hs, fun b hb ↦ hn b (List.mem_cons_of_mem _ hb)⟩
  · rintro ⟨hp, ha, hs, hn⟩
    refine ⟨⟨hp, hs⟩, fun b hb ↦ ?_⟩
    rcases List.mem_cons.mp hb with rfl | hb
    · exact ha
    · exact hn b hb

theorem unique (h : Chain null next p l) (h' : Chain null next p l') : l = l' := by
  induction l generalizing p l' with
  | nil =>
    cases l' with
    | nil => rfl
    | cons b l' => exact absurd (h'.seg.1.symm.trans h.seg) (h'.ne_null b List.mem_cons_self)
  | cons a l ih =>
    obtain ⟨rfl, ha, hc⟩ := cons_iff.mp h
    cases l' with
    | nil => exact absurd h'.seg ha
    | cons b l' =>
      obtain ⟨rfl, -, hc'⟩ := cons_iff.mp h'
      rw [ih hc hc']

theorem eq_nil_iff (h : Chain null next p l) : l = [] ↔ p = null := by
  constructor
  · rintro rfl
    exact h.seg
  · rintro rfl
    exact h.unique nil

theorem exists_cons (h : Chain null next p l) (hp : p ≠ null) : ∃ l', l = p :: l' := by
  cases l with
  | nil => exact absurd h.seg hp
  | cons a l => exact ⟨l, by rw [h.seg.1]⟩

/-- A chain ends, so it does not meet a cell twice: what follows the cell would have two lengths. -/
theorem nodup (h : Chain null next p l) : l.Nodup := by
  induction l generalizing p with
  | nil => exact List.nodup_nil
  | cons a l ih =>
    obtain ⟨rfl, hp, hc⟩ := cons_iff.mp h
    refine List.nodup_cons.mpr ⟨fun hmem ↦ ?_, ih hc⟩
    obtain ⟨x, y, rfl⟩ := List.append_of_mem hmem
    obtain ⟨r, -, rfl, hy⟩ := seg_append.mp hc.seg
    have htail : Chain null next r (r :: y) :=
      ⟨⟨rfl, hy⟩, fun b hb ↦ hc.ne_null b (List.mem_append_right x hb)⟩
    have hlen := congrArg List.length (h.unique htail)
    simp only [List.length_cons, List.length_append] at hlen
    omega

end Chain

/-! ## Doubly linked segments -/

/-- Following `next` from `p` visits the cells of `l` and arrives at `q`; on the way each cell
points back at the one before it, the first one at `b`. The last cell visited, or `b` when there is
none, is `e`. -/
def DSeg (next prev : α → α) : α → α → List α → α → α → Prop
  | b, p, [], e, q => p = q ∧ b = e
  | b, p, a :: l, e, q => p = a ∧ prev a = b ∧ DSeg next prev a (next a) l e q

section DSeg

variable {prev prev' : α → α} {b e : α}

@[simp] theorem dseg_nil : DSeg next prev b p [] e q ↔ p = q ∧ b = e := Iff.rfl

@[simp] theorem dseg_cons {a : α} : DSeg next prev b p (a :: l) e q ↔
    p = a ∧ prev a = b ∧ DSeg next prev a (next a) l e q := Iff.rfl

theorem dseg_append : DSeg next prev b p (l ++ l') e q ↔
    ∃ d r, DSeg next prev b p l d r ∧ DSeg next prev d r l' e q := by
  induction l generalizing b p with
  | nil => simp [and_assoc]
  | cons a l ih => simp [ih, and_assoc]

theorem DSeg.congr (h : DSeg next prev b p l e q)
    (hl : ∀ a ∈ l, next' a = next a ∧ prev' a = prev a) : DSeg next' prev' b p l e q := by
  induction l generalizing b p with
  | nil => exact h
  | cons a l ih =>
    obtain ⟨rfl, hprev, hseg⟩ := h
    obtain ⟨hn, hp⟩ := hl p List.mem_cons_self
    refine ⟨rfl, hp.trans hprev, ?_⟩
    rw [hn]
    exact ih hseg fun c hc ↦ hl c (List.mem_cons_of_mem _ hc)

/-- Another memory may also change where the segment points back to: that is read in its first cell
only. -/
theorem DSeg.rehead {b' : α} (h : DSeg next prev b p l e q) (hnd : l.Nodup)
    (hn : ∀ a ∈ l, next' a = next a) (hp : ∀ a ∈ l, a ≠ p → prev' a = prev a)
    (hb : p ∈ l → prev' p = b') : ∃ e', DSeg next' prev' b' p l e' q := by
  cases l with
  | nil => exact ⟨b', h.1, rfl⟩
  | cons a l =>
    obtain ⟨rfl, -, hseg⟩ := h
    obtain ⟨hnot, -⟩ := List.nodup_cons.mp hnd
    refine ⟨e, rfl, hb List.mem_cons_self, ?_⟩
    rw [hn p List.mem_cons_self]
    refine hseg.congr fun c hc ↦ ⟨hn c (List.mem_cons_of_mem _ hc), ?_⟩
    exact hp c (List.mem_cons_of_mem _ hc) fun hcp ↦ hnot (hcp ▸ hc)

theorem DSeg.ends (h : DSeg next prev b p l e q) : p = l.headD q ∧ e = l.getLastD b := by
  induction l generalizing b p with
  | nil => exact ⟨h.1, h.2.symm⟩
  | cons a l ih =>
    refine ⟨h.1, ?_⟩
    rw [(ih h.2.2).2]
    cases l <;> rfl

theorem DSeg.seg (h : DSeg next prev b p l e q) : Seg next p l q := by
  induction l generalizing b p with
  | nil => exact h.1
  | cons a l ih => exact ⟨h.1, ih h.2.2⟩

end DSeg

/-- A doubly linked list: from `p` along `next` to the null pointer, and the other way along
`prev`. -/
structure DChain (null : α) (next prev : α → α) (p : α) (l : List α) : Prop where
  dseg : ∃ e, DSeg next prev null p l e null
  ne_null : ∀ a ∈ l, a ≠ null

theorem DChain.chain {null : α} {prev : α → α} (h : DChain null next prev p l) :
    Chain null next p l := by
  obtain ⟨e, he⟩ := h.dseg
  exact ⟨he.seg, h.ne_null⟩

theorem DChain.congr {null : α} {prev prev' : α → α} (h : DChain null next prev p l)
    (hl : ∀ a ∈ l, next' a = next a ∧ prev' a = prev a) : DChain null next' prev' p l := by
  obtain ⟨e, he⟩ := h.dseg
  exact ⟨⟨e, he.congr hl⟩, h.ne_null⟩

/-- Replacing the cells `z` between `a` and the rest `y` of a list by the cells `z'`. Apart from the
links inside the new part, only the forward link of `a` and the backward link of the first cell of
`y` may change. -/
theorem DChain.splice [DecidableEq α] {null : α} {prev prev' : α → α} {x y z z' : List α} {a d : α}
    (h : DChain null next prev p (x ++ a :: (z ++ y))) (hy : y.Nodup)
    (hx : ∀ b ∈ x, next' b = next b ∧ prev' b = prev b) (ha : prev' a = prev a)
    (hz : DSeg next' prev' a (next' a) z' d (y.headD null)) (hz' : ∀ b ∈ z', b ≠ null)
    (hn : ∀ b ∈ y, next' b = next b)
    (hp : ∀ b ∈ y, prev' b = if b = y.headD null then d else prev b) :
    DChain null next' prev' p (x ++ a :: (z' ++ y)) := by
  obtain ⟨e, he⟩ := h.dseg
  obtain ⟨b, r, hxs, rfl, hprev, hzy⟩ := dseg_append.mp he
  obtain ⟨_, r', -, hys⟩ := dseg_append.mp hzy
  rw [← hys.ends.1] at hz hp
  have hrest : ∀ b ∈ y, b ≠ r' → prev' b = prev b := fun b hb hne ↦ (hp b hb).trans (if_neg hne)
  have hfirst : r' ∈ y → prev' r' = d := fun hr ↦ (hp r' hr).trans (if_pos rfl)
  obtain ⟨e', he'⟩ := hys.rehead hy hn hrest hfirst
  refine ⟨⟨e', dseg_append.mpr ⟨b, r, hxs.congr hx, rfl, ha.trans hprev, ?_⟩⟩, fun b hb ↦ ?_⟩
  · exact dseg_append.mpr ⟨d, r', hz, he'⟩
  · rw [List.mem_append, List.mem_cons, List.mem_append] at hb
    rcases hb with hb | hb | hb | hb
    · exact h.ne_null b (by simp [hb])
    · exact h.ne_null b (by simp [hb])
    · exact hz' b hb
    · exact h.ne_null b (by simp [hb])

/-! ## Circular lists -/

/-- Two cells that are neighbours. -/
def Linked (next prev : α → α) (a b : α) : Prop := next a = b ∧ prev b = a

/-- A circular doubly linked list. It goes through the cell `h`, which is not counted. -/
structure Circle (h : α) (next prev : α → α) (l : List α) : Prop where
  chain : List.IsChain (Linked next prev) (h :: (l ++ [h]))
  nodup : (h :: l).Nodup

namespace Circle

variable {h b : α} {l x y : List α}

theorem nil (hn : next h = h) (hp : prev h = h) : Circle h next prev [] :=
  ⟨List.isChain_pair.mpr ⟨hn, hp⟩, List.nodup_singleton h⟩

theorem reverse (hc : Circle h next prev l) : Circle h prev next l.reverse := by
  refine ⟨?_, ?_⟩
  · have heq : h :: (l.reverse ++ [h]) = (h :: (l ++ [h])).reverse := by simp
    rw [heq, List.isChain_reverse]
    exact hc.chain.imp fun a b hab ↦ And.symm hab
  · rw [List.nodup_cons, List.mem_reverse, List.nodup_reverse]
    exact List.nodup_cons.mp hc.nodup

theorem seg_of_chain {a q : α} (hc : List.IsChain (Linked next prev) (a :: (l ++ [q]))) :
    Seg next (next a) l q := by
  induction l generalizing a with
  | nil => exact (List.isChain_pair.mp hc).1
  | cons c l ih =>
    obtain ⟨hac, hc⟩ := List.isChain_cons_cons.mp hc
    exact ⟨hac.1, ih hc⟩

theorem seg (hc : Circle h next prev l) : Seg next (next h) l h := seg_of_chain hc.chain

/-- The list and its end, cut at the first cell. -/
theorem exists_first (l : List α) (h : α) : ∃ c z, l ++ [h] = c :: z := by
  cases l with
  | nil => exact ⟨h, [], rfl⟩
  | cons a l => exact ⟨a, l ++ [h], rfl⟩

theorem nodup_end (hc : Circle h next prev l) : (l ++ [h]).Nodup := by
  have hnd := hc.nodup
  rw [← List.nodup_reverse, List.reverse_append, List.reverse_singleton, List.singleton_append,
    List.nodup_cons, List.mem_reverse, List.nodup_reverse]
  exact List.nodup_cons.mp hnd

/-- A new cell behind `h`. -/
theorem pushFront [DecidableEq α] (hc : Circle h next prev l) (hb : b ∉ h :: l) :
    Circle h (Function.update (Function.update next b (next h)) h b)
      (Function.update (Function.update prev b h) (next h) b) (b :: l) := by
  have hnd := hc.nodup_end
  have hchain := hc.chain
  have hb' : b ∉ l ++ [h] := by simpa [and_comm] using hb
  have hbh : b ≠ h := fun heq ↦ hb (heq ▸ List.mem_cons_self)
  obtain ⟨c, z, hcz⟩ := exists_first l h
  rw [hcz] at hnd hchain hb'
  obtain ⟨hfirst, hrest⟩ := List.isChain_cons_cons.mp hchain
  obtain ⟨hcz', -⟩ := List.nodup_cons.mp hnd
  have hbc : b ≠ c := fun heq ↦ hb' (heq ▸ List.mem_cons_self)
  refine ⟨?_, ?_⟩
  · rw [List.cons_append, hcz, hfirst.1]
    refine List.isChain_cons_cons.mpr ⟨⟨Function.update_self .., ?_⟩,
      List.isChain_cons_cons.mpr ⟨⟨?_, Function.update_self ..⟩, ?_⟩⟩
    · rw [Function.update_of_ne hbc, Function.update_self]
    · rw [Function.update_of_ne hbh, Function.update_self]
    · refine hrest.imp_of_mem_tail_imp fun p q hp hq hpq ↦ ?_
      have hqz : q ∈ z := hq
      have hqc : q ≠ c := fun heq ↦ hcz' (heq ▸ hqz)
      have hph : p ≠ h := fun heq ↦ hqc (by rw [← hpq.1, heq, hfirst.1])
      have hpb : p ≠ b := fun heq ↦ hb' (heq ▸ hp)
      have hqb : q ≠ b := fun heq ↦ hb' (heq ▸ List.mem_cons_of_mem _ hqz)
      refine ⟨?_, ?_⟩
      · rw [Function.update_of_ne hph, Function.update_of_ne hpb, hpq.1]
      · rw [Function.update_of_ne hqc, Function.update_of_ne hqb, hpq.2]
  · have hmem := List.nodup_cons.mp hc.nodup
    rw [List.mem_cons, not_or] at hb
    rw [List.nodup_cons, List.mem_cons, not_or, List.nodup_cons]
    exact ⟨⟨hbh.symm, hmem.1⟩, hb.2, hmem.2⟩

/-- The cells beside `b` are all different from it and from each other. -/
theorem apart (hnd : (h :: (x ++ b :: y)).Nodup) :
    (b ∉ x ∧ b ∉ y ∧ b ≠ h ∧ ∀ p ∈ x, p ∉ y ∧ p ≠ h) ∧ (y ++ [h]).Nodup := by
  obtain ⟨hh, hxy⟩ := List.nodup_cons.mp hnd
  obtain ⟨-, hby, hdisj⟩ := List.nodup_append.mp hxy
  obtain ⟨hb, hy⟩ := List.nodup_cons.mp hby
  rw [List.mem_append, List.mem_cons, not_or, not_or] at hh
  refine ⟨⟨fun hx ↦ hdisj b hx b List.mem_cons_self rfl, hb, fun heq ↦ hh.2.1 heq.symm,
    fun p hp ↦ ⟨fun hpy ↦ hdisj p hp p (List.mem_cons_of_mem _ hpy) rfl, fun heq ↦ ?_⟩⟩, ?_⟩
  · exact hh.1 (heq ▸ hp)
  · exact List.nodup_append.mpr ⟨hy, List.nodup_singleton h, fun p hp q hq heq ↦
      hh.2.2 (List.mem_singleton.mp hq ▸ heq ▸ hp)⟩

/-- Taking the cell `b` out. -/
theorem unlink [DecidableEq α] (hc : Circle h next prev (x ++ b :: y)) :
    Circle h (Function.update next (prev b) (next b)) (Function.update prev (next b) (prev b))
      (x ++ y) := by
  have hnd := hc.nodup
  have hchain := hc.chain
  obtain ⟨c, z, hcz⟩ := exists_first y h
  -- the cell before `b`
  obtain ⟨w, d, hwd⟩ : ∃ w d, h :: x = w ++ [d] :=
    ⟨(h :: x).dropLast, (h :: x).getLast (by simp), (List.dropLast_append_getLast _).symm⟩
  have hform : h :: (x ++ b :: y ++ [h]) = w ++ d :: b :: c :: z := by
    rw [List.append_assoc, List.cons_append, hcz, ← List.cons_append, hwd, List.append_assoc]
    rfl
  rw [hform] at hchain
  obtain ⟨hwd', hdb, hbcz⟩ := List.isChain_append_cons_cons.mp hchain
  obtain ⟨hbc, hrest⟩ := List.isChain_cons_cons.mp hbcz
  have hmem : ∀ p, p ∈ c :: z ↔ p ∈ y ∨ p = h := fun p ↦ by
    rw [← hcz, List.mem_append, List.mem_singleton]
  obtain ⟨hbx, hyh⟩ := apart hnd
  have hcz' : c ∉ z := by
    rw [hcz] at hyh
    exact (List.nodup_cons.mp hyh).1
  rw [hdb.2, hbc.1]
  refine ⟨?_, ?_⟩
  · have hform' : h :: (x ++ y ++ [h]) = w ++ d :: c :: z := by
      rw [List.append_assoc, hcz, ← List.cons_append, hwd, List.append_assoc]
      rfl
    rw [hform']
    refine List.isChain_append_cons_cons.mpr ⟨?_,
      ⟨Function.update_self .., Function.update_self ..⟩, ?_⟩
    · -- between `h` and the cell before `b`
      refine hwd'.imp_of_mem_tail_imp fun p q hp hq hpq ↦ ?_
      rw [← hwd] at hq
      have hqx : q ∈ x := hq
      have hpd : p ≠ d := fun heq ↦ hbx.1 (by rwa [← hdb.1, ← heq, hpq.1])
      have hqc : q ≠ c := fun heq ↦ by
        rcases (hmem c).mp List.mem_cons_self with hcy | hch
        · exact (hbx.2.2.2 q hqx).1 (heq ▸ hcy)
        · exact (hbx.2.2.2 q hqx).2 (heq.trans hch)
      exact ⟨by rw [Function.update_of_ne hpd, hpq.1], by rw [Function.update_of_ne hqc, hpq.2]⟩
    · -- behind `b`
      refine hrest.imp_of_mem_tail_imp fun p q hp hq hpq ↦ ?_
      have hqz : q ∈ z := hq
      have hqc : q ≠ c := fun heq ↦ hcz' (heq ▸ hqz)
      have hpd : p ≠ d := fun heq ↦ by
        have hbz : b ∈ c :: z := by
          rw [← hdb.1, ← heq, hpq.1]
          exact List.mem_cons_of_mem _ hqz
        rcases (hmem b).mp hbz with hby | hbh
        · exact hbx.2.1 hby
        · exact hbx.2.2.1 hbh
      exact ⟨by rw [Function.update_of_ne hpd, hpq.1], by rw [Function.update_of_ne hqc, hpq.2]⟩
  · grind [List.nodup_cons, List.nodup_append]

theorem next_ne (hc : Circle h next prev (x ++ b :: y)) : next b ≠ b := by
  have hchain := hc.chain
  have hnd := hc.nodup
  obtain ⟨c, z, hcz⟩ := exists_first y h
  have hform : h :: (x ++ b :: y ++ [h]) = (h :: x) ++ b :: c :: z := by
    rw [List.append_assoc, List.cons_append, hcz, List.cons_append]
  rw [hform] at hchain
  obtain ⟨-, hbc, -⟩ := List.isChain_append_cons_cons.mp hchain
  have hmem : c ∈ y ++ [h] := hcz ▸ List.mem_cons_self
  rw [hbc.1]
  grind [List.nodup_cons, List.nodup_append]

end Circle

end Foundations
