import SistemasOperacionais.Xv6.File.Model

/-!
# References to open files

The count of an entry of `ftable` is the number of descriptors that point to it. A call takes and
drops its references one at a time, and what it has in its local variables is in nobody's
descriptor: `Inv s held` is the invariant with these references `held`. Each procedure of `file.c`
gets one lemma that says how it changes `held`, and the calls are put together from them, on every
path, with nothing held at the end.
-/

namespace SistemasOperacionais.Xv6.File

open Foundations Function

/-! ## Pipes and their ends -/

/-- The end of a pipe that an entry in use is: the page, and whether it is the end for writing. -/
def Entry.side (e : Entry) : Option (ℕ × Bool) :=
  if 0 < e.ref ∧ e.type = .pipe then some (e.pipe, e.writable) else none

def Ends.opened (e : Ends) (writable : Bool) : Bool := if writable then e.writeopen else e.readopen

/-- Each end of a pipe is one entry at most, the flags of a pipe say which ends are left, and a page
is a pipe as long as there is one. -/
structure Pipes (side : Fin nfile → Option (ℕ × Bool)) (pipe : ℕ → Ends) (kallocs kfrees : ℕ → ℕ) :
    Prop where
  unique : ∀ {f g x}, side f = some x → side g = some x → f = g
  opened : ∀ a w, kallocs a ≠ kfrees a → ((pipe a).opened w = true ↔ ∃ f, side f = some (a, w))
  pages : ∀ a, (kallocs a = kfrees a + 1 ∧ ∃ f w, side f = some (a, w)) ∨
    (kallocs a = kfrees a ∧ ∀ f w, side f ≠ some (a, w))

namespace Pipes

variable {ι : Type*} {side : Fin nfile → Option (ℕ × Bool)} {pipe : ℕ → Ends}
  {kallocs kfrees : ℕ → ℕ} {a : ℕ}

theorem fresh (h : Pipes side pipe kallocs kfrees) (ha : kallocs a = kfrees a) (f : Fin nfile)
    (w : Bool) : side f ≠ some (a, w) := by
  obtain ⟨halloc, -⟩ | ⟨-, hnone⟩ := h.pages a
  · omega
  · exact hnone f w

theorem kallocs_eq (h : Pipes side pipe kallocs kfrees) {f : Fin nfile} {w : Bool}
    (hf : side f = some (a, w)) : kallocs a = kfrees a + 1 := by
  obtain ⟨halloc, -⟩ | ⟨-, hnone⟩ := h.pages a
  · exact halloc
  · exact absurd hf (hnone f w)

theorem make (h : Pipes side pipe kallocs kfrees) {f0 f1 : Fin nfile} (hne : f0 ≠ f1)
    (h0 : side f0 = none) (h1 : side f1 = none) (ha : kallocs a = kfrees a) :
    Pipes (update (update side f0 (some (a, false))) f1 (some (a, true)))
      (update pipe a ⟨true, true⟩) (update kallocs a (kallocs a + 1)) kfrees := by
  have hf0 : update (update side f0 (some (a, false))) f1 (some (a, true)) f0 =
      some (a, false) := by rw [update_of_ne hne, update_self]
  have hf1 : update (update side f0 (some (a, false))) f1 (some (a, true)) f1 = some (a, true) :=
    update_self ..
  have hold : ∀ g b w, b ≠ a →
      (update (update side f0 (some (a, false))) f1 (some (a, true)) g = some (b, w) ↔
        side g = some (b, w)) := by
    intro g b w hb
    obtain rfl | hg1 := eq_or_ne g f1
    · simp [h1, hb.symm]
    · obtain rfl | hg0 := eq_or_ne g f0
      · simp [hg1, h0, hb.symm]
      · rw [update_of_ne hg1, update_of_ne hg0]
  have hnew : ∀ g w, update (update side f0 (some (a, false))) f1 (some (a, true)) g =
      some (a, w) → g = if w then f1 else f0 := by
    intro g w hg
    obtain rfl | hg1 := eq_or_ne g f1
    · rw [hf1] at hg
      obtain rfl : true = w := congrArg Prod.snd (Option.some.inj hg)
      rfl
    · obtain rfl | hg0 := eq_or_ne g f0
      · rw [hf0] at hg
        obtain rfl : false = w := congrArg Prod.snd (Option.some.inj hg)
        rfl
      · rw [update_of_ne hg1, update_of_ne hg0] at hg
        exact absurd hg (h.fresh ha g w)
  refine ⟨?_, ?_, ?_⟩
  · rintro g g' ⟨b, w⟩ hg hg'
    by_cases hb : b = a
    · subst hb
      rw [hnew g w hg, hnew g' w hg']
    · exact h.unique ((hold g b w hb).mp hg) ((hold g' b w hb).mp hg')
  · intro b w halloc
    by_cases hb : b = a
    · subst hb
      rw [update_self]
      cases w with
      | true => exact iff_of_true rfl ⟨f1, hf1⟩
      | false => exact iff_of_true rfl ⟨f0, hf0⟩
    · rw [update_of_ne hb] at halloc ⊢
      rw [h.opened b w halloc]
      exact exists_congr fun g ↦ (hold g b w hb).symm
  · intro b
    by_cases hb : b = a
    · subst hb
      rw [update_self, ha]
      exact .inl ⟨rfl, f0, false, hf0⟩
    · rw [update_of_ne hb]
      refine (h.pages b).imp (And.imp_right ?_) (And.imp_right ?_)
      · rintro ⟨g, w, hg⟩
        exact ⟨g, w, (hold g b w hb).mpr hg⟩
      · exact fun hnone g w hg ↦ hnone g w ((hold g b w hb).mp hg)

/-- What `pipeclose` leaves, by whether the other end is open. -/
theorem pipeclose_of_opened (s : State ι) {w : Bool} (h : (s.pipe a).opened (!w) = true) :
    s.pipeclose a w =
      { s with pipe := update s.pipe a (if w then ⟨true, false⟩ else ⟨false, true⟩) } := by
  cases w with
  | true =>
    change (s.pipe a).readopen = true at h
    simp [State.pipeclose, h]
  | false =>
    change (s.pipe a).writeopen = true at h
    simp [State.pipeclose, h]

theorem pipeclose_of_closed (s : State ι) {w : Bool} (h : (s.pipe a).opened (!w) = false) :
    s.pipeclose a w = ({ s with pipe := update s.pipe a ⟨false, false⟩ } : State ι).kfree a := by
  cases w with
  | true =>
    change (s.pipe a).readopen = false at h
    simp [State.pipeclose, h]
  | false =>
    change (s.pipe a).writeopen = false at h
    simp [State.pipeclose, h]

theorem close {s : State ι} (h : Pipes side s.pipe s.kallocs s.kfrees) {f : Fin nfile} {w : Bool}
    (hf : side f = some (a, w)) :
    Pipes (update side f none) (s.pipeclose a w).pipe (s.pipeclose a w).kallocs
      (s.pipeclose a w).kfrees := by
  have hside : ∀ g x, update side f none g = some x ↔ side g = some x ∧ x ≠ (a, w) := by
    intro g x
    obtain rfl | hg := eq_or_ne g f
    · rw [update_self, hf]
      refine iff_of_false (by simp) fun hx ↦ hx.2 (Option.some.inj hx.1).symm
    · rw [update_of_ne hg]
      refine ⟨fun hx ↦ ⟨hx, ?_⟩, And.left⟩
      rintro rfl
      exact hg (h.unique hx hf)
  have halloc := h.kallocs_eq hf
  have hother := h.opened a (!w) (by omega)
  have hunique : ∀ {g g' x}, update side f none g = some x → update side f none g' = some x →
      g = g' := fun hg hg' ↦ h.unique ((hside _ _).mp hg).1 ((hside _ _).mp hg').1
  have hne : ∀ {b w'}, b ≠ a → ((b, w') : ℕ × Bool) ≠ (a, w) :=
    fun hb heq ↦ hb (congrArg Prod.fst heq)
  have hopened : ∀ b w', b ≠ a → s.kallocs b ≠ s.kfrees b →
      ((s.pipe b).opened w' = true ↔ ∃ g, update side f none g = some (b, w')) := by
    intro b w' hb hb'
    rw [h.opened b w' hb']
    exact exists_congr fun g ↦ by rw [hside, and_iff_left (hne hb)]
  have hpages : ∀ b, b ≠ a →
      (s.kallocs b = s.kfrees b + 1 ∧ ∃ g w', update side f none g = some (b, w')) ∨
        (s.kallocs b = s.kfrees b ∧ ∀ g w', update side f none g ≠ some (b, w')) := by
    intro b hb
    refine (h.pages b).imp (And.imp_right ?_) (And.imp_right ?_)
    · rintro ⟨g, w', hg⟩
      exact ⟨g, w', (hside _ _).mpr ⟨hg, hne hb⟩⟩
    · exact fun hnone g w' hg ↦ hnone g w' ((hside _ _).mp hg).1
  cases ho : (s.pipe a).opened (!w) with
  | true =>
    obtain ⟨g, hg⟩ := hother.mp ho
    have hg' : update side f none g = some (a, !w) := (hside _ _).mpr ⟨hg, by simp⟩
    rw [pipeclose_of_opened s ho]
    refine ⟨hunique, fun b w' hb' ↦ ?_, fun b ↦ ?_⟩
    · by_cases hb : b = a
      · subst hb
        simp only [update_self]
        obtain rfl | hw : w' = w ∨ w' = !w := by cases w <;> cases w' <;> simp
        · refine iff_of_false (by cases w' <;> simp [Ends.opened]) ?_
          rintro ⟨g, hg⟩
          exact ((hside _ _).mp hg).2 rfl
        · subst hw
          exact iff_of_true (by cases w <;> rfl) ⟨g, hg'⟩
      · simp only [update_of_ne hb]
        exact hopened b w' hb hb'
    · by_cases hb : b = a
      · subst hb
        exact .inl ⟨halloc, g, !w, hg'⟩
      · exact hpages b hb
  | false =>
    rw [pipeclose_of_closed s ho]
    refine ⟨hunique, fun b w' hb' ↦ ?_, fun b ↦ ?_⟩
    · by_cases hb : b = a
      · subst hb
        exact absurd (by simp only [State.kfree, update_self]; exact halloc) hb'
      · simp only [State.kfree, update_of_ne hb] at hb' ⊢
        exact hopened b w' hb hb'
    · by_cases hb : b = a
      · subst hb
        refine .inr ⟨by simp only [State.kfree, update_self]; exact halloc, fun g w' hg ↦ ?_⟩
        obtain ⟨hg, hne⟩ := (hside _ _).mp hg
        obtain rfl | rfl : w' = w ∨ w' = !w := by cases w <;> cases w' <;> simp
        · exact hne rfl
        · rw [hother.mpr ⟨g, hg⟩] at ho
          cases ho
      · simp only [State.kfree, update_of_ne hb]
        exact hpages b hb

end Pipes

/-! ## The invariant -/

variable {ι : Type*} [Fintype ι]

/-- What is said about the entries, with the references `held` in local variables. -/
structure Counts [DecidableEq ι] (file : Fin nfile → Entry)
    (ofile : ι × Fin nofile → Option (Fin nfile)) (held : List (Fin nfile)) : Prop where
  refs : RefCount (fun f ↦ (file f).ref) ofile held
  unused : ∀ f, (file f).ref = 0 → (file f).type = .none
  sides : ∀ f, (file f).type = .pipe → (file f).readable = !(file f).writable

structure Inv [DecidableEq ι] (s : State ι) (held : List (Fin nfile)) : Prop where
  counts : Counts s.file s.ofile held
  pipes : Pipes (fun f ↦ (s.file f).side) s.pipe s.kallocs s.kfrees

/-- What a procedure called by `p` leaves as it was. -/
structure Change (p : ι) (s s' : State ι) : Prop where
  ofile : ∀ q, q ≠ p → ∀ fd, s'.ofile (q, fd) = s.ofile (q, fd)
  used : s'.used = s.used

namespace Change

variable {p : ι} {s s' s'' : State ι}

omit [Fintype ι] in
theorem refl (p : ι) (s : State ι) : Change p s s := ⟨fun _ _ _ ↦ rfl, rfl⟩

omit [Fintype ι] in
theorem trans (h : Change p s s') (h' : Change p s' s'') : Change p s s'' :=
  ⟨fun q hq fd ↦ (h'.ofile q hq fd).trans (h.ofile q hq fd), h'.used.trans h.used⟩

omit [Fintype ι] in
theorem of_eq (hofile : s'.ofile = s.ofile) (hused : s'.used = s.used) : Change p s s' :=
  ⟨fun _ _ _ ↦ by rw [hofile], hused⟩

end Change

variable [DecidableEq ι] {p : ι} {s s' : State ι} {held : List (Fin nfile)} {f : Fin nfile}

theorem comp_update {β : Type*} (g : Entry → β) (file : Fin nfile → Entry) (f : Fin nfile)
    (e : Entry) : (fun k ↦ g (update file f e k)) = update (fun k ↦ g (file k)) f (g e) := by
  funext k
  obtain rfl | hne := eq_or_ne k f
  · simp
  · simp [hne]

/-- An entry is rewritten, with the count that belongs to the references now held. -/
theorem Counts.update {file : Fin nfile → Entry} {ofile : ι × Fin nofile → Option (Fin nfile)}
    {e : Entry} {held' : List (Fin nfile)} (h : Counts file ofile held)
    (hrefs : RefCount (update (fun g ↦ (file g).ref) f e.ref) ofile held')
    (hunused : e.ref = 0 → e.type = .none) (hsides : e.type = .pipe → e.readable = !e.writable) :
    Counts (update file f e) ofile held' where
  refs := by
    rw [comp_update Entry.ref]
    exact hrefs
  unused g hg := by
    obtain rfl | hne := eq_or_ne g f
    · rw [update_self] at hg ⊢
      exact hunused hg
    · rw [update_of_ne hne] at hg ⊢
      exact h.unused g hg
  sides g hg := by
    obtain rfl | hne := eq_or_ne g f
    · rw [update_self] at hg ⊢
      exact hsides hg
    · rw [update_of_ne hne] at hg ⊢
      exact h.sides g hg

theorem Counts.retype {file : Fin nfile → Entry} {ofile : ι × Fin nofile → Option (Fin nfile)}
    {e : Entry} (h : Counts file ofile held) (hpos : 0 < (file f).ref)
    (hrefs : e.ref = (file f).ref) (hsides : e.type = .pipe → e.readable = !e.writable) :
    Counts (Function.update file f e) ofile held := by
  refine h.update ?_ (fun h0 ↦ absurd (hrefs.symm.trans h0) hpos.ne') hsides
  rw [hrefs, update_eq_self f (fun g ↦ (file g).ref)]
  exact h.refs

omit [Fintype ι] in
theorem Change.setOfile (s : State ι) (p : ι) (fd : Fin nofile) (x : Option (Fin nfile)) :
    Change p s (s.setOfile p fd x) :=
  ⟨fun _ hq _ ↦ update_of_ne (fun heq ↦ hq (congrArg Prod.fst heq)) _ _, rfl⟩

omit [Fintype ι] in
theorem setOfile_of_ne {fd fd' : Fin nofile} (hne : fd' ≠ fd) (x : Option (Fin nfile)) :
    (s.setOfile p fd x).ofile (p, fd') = s.ofile (p, fd') :=
  update_of_ne (fun heq ↦ hne (Prod.mk.inj heq).2) _ _

omit [Fintype ι] in
theorem fdalloc_eq_some {fd : Fin nofile} (h : s.fdalloc p f = some (fd, s')) :
    s.ofile (p, fd) = none ∧ s' = s.setOfile p fd (some f) := by
  obtain ⟨k, hk, heq⟩ := Option.map_eq_some_iff.mp h
  obtain ⟨rfl, rfl⟩ := Prod.mk.inj heq
  exact ⟨by simpa using List.find?_some hk, rfl⟩

section Pipeclose

variable (s) (a : ℕ) (w : Bool)

omit [Fintype ι] [DecidableEq ι]

theorem pipeclose_file : (s.pipeclose a w).file = s.file := by
  unfold State.pipeclose
  simp only
  split_ifs <;> rfl

theorem pipeclose_ofile : (s.pipeclose a w).ofile = s.ofile := by
  unfold State.pipeclose
  simp only
  split_ifs <;> rfl

theorem pipeclose_used : (s.pipeclose a w).used = s.used := by
  unfold State.pipeclose
  simp only
  split_ifs <;> rfl

end Pipeclose

namespace Inv

theorem setFile {e : Entry} {held' : List (Fin nfile)} (h : Inv s held)
    (hcounts : Counts (update s.file f e) s.ofile held') (hside : e.side = (s.file f).side) :
    Inv (s.setFile f e) held' where
  counts := hcounts
  pipes := by
    change Pipes (fun k ↦ (update s.file f e k).side) _ _ _
    rw [comp_update Entry.side, hside, update_eq_self f (fun g ↦ (s.file g).side)]
    exact h.pipes

theorem perm {held' : List (Fin nfile)} (h : Inv s held) (hp : held.Perm held') : Inv s held' :=
  ⟨⟨h.counts.refs.perm hp, h.counts.unused, h.counts.sides⟩, h.pipes⟩

theorem side_eq_none {e : Entry} (h : e.type ≠ .pipe) : e.side = none := if_neg fun hs ↦ h hs.2

/-- An entry that was not in use is taken. -/
structure Fresh (s : State ι) (f : Fin nfile) (s' : State ι) : Prop where
  ref : (s.file f).ref = 0
  type : (s'.file f).type = .none
  file : ∀ g, g ≠ f → s'.file g = s.file g
  ofile : s'.ofile = s.ofile
  used : s'.used = s.used
  kallocs : s'.kallocs = s.kallocs
  kfrees : s'.kfrees = s.kfrees

/-! ### `file.c` -/

/-- What `filealloc` returns: an entry that nobody has, held by the caller. -/
theorem filealloc (h : Inv s held) (hs : s.filealloc = some (f, s')) :
    Inv s' (f :: held) ∧ Fresh s f s' := by
  obtain ⟨g, hg, heq⟩ := Option.map_eq_some_iff.mp hs
  obtain ⟨rfl, rfl⟩ := Prod.mk.inj heq
  have h0 : (s.file g).ref = 0 := by simpa using List.find?_some hg
  have htype := h.counts.unused g h0
  have hrefs := h.counts.refs.acquire (k := g)
  rw [h0] at hrefs
  refine ⟨h.setFile (h.counts.update hrefs (by simp) (h.counts.sides g)) ?_, h0, ?_,
    fun k hk ↦ update_of_ne hk _ _, rfl, rfl, rfl, rfl⟩
  · rw [side_eq_none (by simp [htype]), side_eq_none (by simp [htype])]
  · simp [State.setFile, htype]

theorem filedup (h : Inv s held) (hpos : 0 < (s.file f).ref) :
    ∃ s', s.filedup f = some s' ∧ Inv s' (f :: held) ∧ s'.ofile = s.ofile ∧ s'.used = s.used := by
  have hcounts := h.counts.update (e := { s.file f with ref := (s.file f).ref + 1 })
    h.counts.refs.acquire (by simp) (h.counts.sides f)
  refine ⟨_, if_neg (by omega), h.setFile hcounts ?_, rfl, rfl⟩
  simp [Entry.side, hpos]

theorem fileclose (h : Inv s (f :: held)) :
    ∃ s', s.fileclose f = some s' ∧ Inv s' held ∧ s'.ofile = s.ofile ∧ s'.used = s.used := by
  have hpos := h.counts.refs.pos_of_held
  have hrefs := h.counts.refs.release
  unfold State.fileclose
  simp only
  rw [if_neg (by omega)]
  by_cases hmore : 0 < (s.file f).ref - 1
  · rw [if_pos hmore]
    refine ⟨_, rfl, h.setFile (h.counts.update hrefs (fun h0 ↦ ?_) (h.counts.sides f)) ?_, rfl, rfl⟩
    · exact absurd h0 hmore.ne'
    · simp only [Entry.side, hmore, hpos]
  · rw [if_neg hmore]
    rw [show (s.file f).ref - 1 = 0 by omega] at hrefs
    have hcounts := h.counts.update (e := { s.file f with ref := 0, type := .none }) hrefs
      (by simp) (by simp)
    split_ifs with hpipe
    · -- the last reference to an end of a pipe
      have hside : (s.file f).side = some ((s.file f).pipe, (s.file f).writable) :=
        if_pos ⟨hpos, hpipe⟩
      have hpipes := Pipes.close
        (s := s.setFile f { s.file f with ref := 0, type := .none }) h.pipes hside
      refine ⟨_, rfl, ⟨?_, ?_⟩, pipeclose_ofile .., pipeclose_used ..⟩
      · rw [pipeclose_file, pipeclose_ofile]
        exact hcounts
      · rw [pipeclose_file, State.setFile, comp_update Entry.side]
        exact hpipes
    · refine ⟨_, rfl, h.setFile hcounts ?_, rfl, rfl⟩
      rw [side_eq_none (by simp), side_eq_none hpipe]

/-! ### Descriptors -/

theorem store {fd : Fin nofile} (h : Inv s (f :: held)) (hfd : s.ofile (p, fd) = none) :
    Inv (s.setOfile p fd (some f)) held :=
  ⟨⟨h.counts.refs.store hfd, h.counts.unused, h.counts.sides⟩, h.pipes⟩

theorem fetch {fd : Fin nofile} (h : Inv s held) (hfd : s.ofile (p, fd) = some f) :
    Inv (s.setOfile p fd none) (f :: held) :=
  ⟨⟨h.counts.refs.fetch hfd, h.counts.unused, h.counts.sides⟩, h.pipes⟩

/-! ### Pipes -/

theorem makePipe {a : ℕ} {f0 f1 : Fin nfile} (h : Inv s held) (hne : f0 ≠ f1)
    (ha : s.kallocs a = s.kfrees a) (h0 : 0 < (s.file f0).ref) (h1 : 0 < (s.file f1).ref)
    (ht0 : (s.file f0).type = .none) (ht1 : (s.file f1).type = .none) :
    Inv (s.makePipe a f0 f1) held := by
  have hf1 : update s.file f0
      { s.file f0 with type := .pipe, readable := true, writable := false, pipe := a } f1 =
        s.file f1 := update_of_ne hne.symm _ _
  constructor
  · refine Counts.retype (h.counts.retype h0 rfl fun _ ↦ rfl) ?_ rfl fun _ ↦ rfl
    exact h1.trans_eq (congrArg Entry.ref hf1).symm
  · have hpipes := h.pipes.make hne (side_eq_none (by simp [ht0])) (side_eq_none (by simp [ht1])) ha
    simp only [State.makePipe, State.setFile, comp_update Entry.side, hf1]
    simp only [Entry.side, h0, h1, and_self, if_true]
    exact hpipes

theorem pipealloc {page : Option ℕ} (h : Inv s [])
    (ha : ∀ a, page = some a → s.kallocs a = s.kfrees a) :
    ∃ s' r, s.pipealloc page = some (s', r) ∧ s'.ofile = s.ofile ∧ s'.used = s.used ∧
      match r with
      | none => Inv s' []
      | some (f0, f1) => Inv s' [f0, f1] := by
  unfold State.pipealloc
  cases hf0 : s.filealloc with
  | none => exact ⟨s, none, rfl, rfl, rfl, h⟩
  | some r0 =>
    obtain ⟨f0, s0⟩ := r0
    obtain ⟨h, hfresh0⟩ := h.filealloc hf0
    simp only
    cases hf1 : s0.filealloc with
    | none =>
      obtain ⟨s', hs', hinv, hofile, hused⟩ := h.fileclose
      exact ⟨s', none, by simp only [hs']; rfl, hofile.trans hfresh0.ofile,
        hused.trans hfresh0.used, hinv⟩
    | some r1 =>
      obtain ⟨f1, s1⟩ := r1
      have hpos0 := h.counts.refs.pos_of_held
      obtain ⟨h, hfresh1⟩ := h.filealloc hf1
      have hpos1 := h.counts.refs.pos_of_held
      replace h := h.perm (List.Perm.swap f0 f1 [])
      have hofile := hfresh1.ofile.trans hfresh0.ofile
      have hused := hfresh1.used.trans hfresh0.used
      have hne : f0 ≠ f1 := by
        rintro rfl
        exact hpos0.ne' hfresh1.ref
      simp only
      cases page with
      | none =>
        obtain ⟨s2, hs2, hinv, hofile2, hused2⟩ := h.fileclose
        obtain ⟨s3, hs3, hinv, hofile3, hused3⟩ := hinv.fileclose
        exact ⟨s3, none, by simp only [hs2, Option.bind_some, hs3]; rfl,
          hofile3.trans (hofile2.trans hofile), hused3.trans (hused2.trans hused), hinv⟩
      | some a =>
        have hfree : s1.kallocs a = s1.kfrees a := by
          rw [hfresh1.kallocs, hfresh0.kallocs, hfresh1.kfrees, hfresh0.kfrees]
          exact ha a rfl
        refine ⟨_, some (f0, f1), rfl, hofile, hused, h.makePipe hne hfree ?_ hpos1 ?_ hfresh1.type⟩
        · rw [hfresh1.file f0 hne]
          exact hpos0
        · rw [hfresh1.file f0 hne]
          exact hfresh0.type

end Inv

/-! ## Order of two steps

`dup` and `exit` touch the descriptor and the count in the other order. -/

section Commute

omit [Fintype ι]

variable {fd : Fin nofile} {x : Option (Fin nfile)}

theorem filedup_setOfile : (s.setOfile p fd x).filedup f =
    (s.filedup f).map fun s ↦ s.setOfile p fd x := by
  unfold State.filedup
  split_ifs <;> first | rfl | contradiction

theorem pipeclose_setOfile (s : State ι) (a : ℕ) (w : Bool) :
    (s.setOfile p fd x).pipeclose a w = (s.pipeclose a w).setOfile p fd x := by
  unfold State.pipeclose
  rw [apply_ite (fun s : State ι ↦ s.setOfile p fd x)]
  rfl

theorem fileclose_setOfile : (s.setOfile p fd x).fileclose f =
    (s.fileclose f).map fun s ↦ s.setOfile p fd x := by
  have hfile : (s.setOfile p fd x).file = s.file := rfl
  have hset (v : Entry) :
      (s.setOfile p fd x).setFile f v = (s.setFile f v).setOfile p fd x := rfl
  simp only [State.fileclose, hfile, hset, pipeclose_setOfile]
  by_cases hfree : (s.file f).ref < 1
  · rw [if_pos hfree, if_pos hfree, Option.map_none]
  by_cases hmore : 0 < (s.file f).ref - 1
  · rw [if_neg hfree, if_pos hmore, if_neg hfree, if_pos hmore, Option.map_some]
  · rw [if_neg hfree, if_neg hmore, if_neg hfree, if_neg hmore, Option.map_some,
      apply_ite fun s : State ι ↦ s.setOfile p fd x]

end Commute

/-! ## The calls -/

omit [Fintype ι] [DecidableEq ι] in
theorem argfd_eq_some {fd : ℤ} {k : Fin nofile} (h : s.argfd p fd = some (k, f)) :
    s.ofile (p, k) = some f := by
  unfold State.argfd at h
  split_ifs at h with hfd
  obtain ⟨g, hg, heq⟩ := Option.map_eq_some_iff.mp h
  obtain ⟨rfl, rfl⟩ := Prod.mk.inj heq
  exact hg

/-- The call returns, with the invariant, and has changed only what is the caller's. -/
def Returns (p : ι) (s : State ι) (r : Option (State ι × ℤ)) : Prop :=
  ∃ s' v, r = some (s', v) ∧ Inv s' [] ∧ Change p s s'

namespace Inv

theorem sysDup (h : Inv s []) (p : ι) (fd : ℤ) : Returns p s (s.sysDup p fd) := by
  unfold State.sysDup
  cases harg : s.argfd p fd with
  | none => exact ⟨s, -1, rfl, h, .refl p s⟩
  | some r =>
    obtain ⟨k, f⟩ := r
    simp only
    cases hfd : s.fdalloc p f with
    | none => exact ⟨s, -1, rfl, h, .refl p s⟩
    | some r =>
      obtain ⟨k', s₁⟩ := r
      obtain ⟨hnone, rfl⟩ := fdalloc_eq_some hfd
      obtain ⟨s', hs', hinv, hofile, hused⟩ := h.filedup (h.counts.refs.pos (argfd_eq_some harg))
      refine ⟨s'.setOfile p k' (some f), k', ?_, hinv.store (by rwa [hofile]), ?_⟩
      · simp only [filedup_setOfile, hs']
        rfl
      · exact (Change.of_eq hofile hused).trans (.setOfile ..)

theorem sysClose (h : Inv s []) (p : ι) (fd : ℤ) : Returns p s (s.sysClose p fd) := by
  unfold State.sysClose
  cases harg : s.argfd p fd with
  | none => exact ⟨s, -1, rfl, h, .refl p s⟩
  | some r =>
    obtain ⟨k, f⟩ := r
    obtain ⟨s', hs', hinv, hofile, hused⟩ := (h.fetch (argfd_eq_some harg)).fileclose
    refine ⟨s', 0, by simp only [hs']; rfl, hinv, ?_⟩
    exact (Change.setOfile s p k none).trans (.of_eq hofile hused)

theorem sysOpen (h : Inv s []) (p : ι) (ip : Option ℕ) (omode : ℕ) :
    Returns p s (s.sysOpen p ip omode) := by
  unfold State.sysOpen
  cases ip with
  | none => exact ⟨s, -1, rfl, h, .refl p s⟩
  | some ip =>
    simp only
    cases halloc : s.filealloc with
    | none => exact ⟨s, -1, rfl, h, .refl p s⟩
    | some r =>
      obtain ⟨f, s₁⟩ := r
      obtain ⟨h, hfresh⟩ := h.filealloc halloc
      have hpos := h.counts.refs.pos_of_held
      have hchange : Change p s s₁ := .of_eq hfresh.ofile hfresh.used
      simp only
      cases hfd : s₁.fdalloc p f with
      | none =>
        obtain ⟨s', hs', hinv, hofile, hused⟩ := h.fileclose
        exact ⟨s', -1, by simp only [hs']; rfl, hinv, hchange.trans (.of_eq hofile hused)⟩
      | some r =>
        obtain ⟨k, s₂⟩ := r
        obtain ⟨hnone, rfl⟩ := fdalloc_eq_some hfd
        have hinv := h.store hnone
        refine ⟨_, k, rfl, hinv.setFile ?_ ?_,
          (hchange.trans (.setOfile ..)).trans (.of_eq rfl rfl)⟩
        · exact hinv.counts.retype hpos rfl (by simp)
        · rw [side_eq_none (by simp), side_eq_none]
          exact fun hpipe ↦ absurd (hfresh.type.symm.trans hpipe) (by simp)

theorem sysPipe {page : Option ℕ} (h : Inv s []) (p : ι) (arg : Bool)
    (ha : ∀ a, page = some a → s.kallocs a = s.kfrees a) :
    Returns p s (s.sysPipe p arg page) := by
  unfold State.sysPipe
  split_ifs with harg
  · exact ⟨s, -1, rfl, h, .refl p s⟩
  · obtain ⟨s₁, r, hr, hofile, hused, hinv⟩ := h.pipealloc ha
    have hchange : Change p s s₁ := .of_eq hofile hused
    rw [hr, Option.bind_some]
    cases r with
    | none => exact ⟨s₁, -1, rfl, hinv, hchange⟩
    | some r =>
      obtain ⟨rf, wf⟩ := r
      simp only
      cases hfd0 : s₁.fdalloc p rf with
      | none =>
        obtain ⟨s₂, hs₂, hinv, hofile₂, hused₂⟩ := hinv.fileclose
        obtain ⟨s₃, hs₃, hinv, hofile₃, hused₃⟩ := hinv.fileclose
        refine ⟨s₃, -1, by simp only [hs₂, Option.bind_some, hs₃]; rfl, hinv, hchange.trans ?_⟩
        exact .of_eq (hofile₃.trans hofile₂) (hused₃.trans hused₂)
      | some r =>
        obtain ⟨fd0, s₂⟩ := r
        obtain ⟨hnone, rfl⟩ := fdalloc_eq_some hfd0
        have hstore := hinv.store hnone
        replace hchange := hchange.trans (.setOfile s₁ p fd0 (some rf))
        simp only
        cases hfd1 : (s₁.setOfile p fd0 (some rf)).fdalloc p wf with
        | none =>
          have hself : (s₁.setOfile p fd0 (some rf)).ofile (p, fd0) = some rf := update_self ..
          obtain ⟨s₂, hs₂, hinv, hofile₂, hused₂⟩ := (hstore.fetch hself).fileclose
          obtain ⟨s₃, hs₃, hinv, hofile₃, hused₃⟩ := hinv.fileclose
          refine ⟨s₃, -1, by simp only [hs₂, Option.bind_some, hs₃]; rfl, hinv,
            (hchange.trans (.setOfile _ p fd0 none)).trans ?_⟩
          exact .of_eq (hofile₃.trans hofile₂) (hused₃.trans hused₂)
        | some r =>
          obtain ⟨fd1, s₂⟩ := r
          obtain ⟨hnone, rfl⟩ := fdalloc_eq_some hfd1
          exact ⟨_, 0, rfl, hstore.store hnone, hchange.trans (.setOfile ..)⟩

/-! ### Processes -/

/-- The child gets a reference for each of the parent's descriptors. -/
theorem forkFiles (p np : ι) {l : List (Fin nofile)} (hl : l.Nodup) :
    ∀ {s : State ι}, Inv s [] → (∀ i ∈ l, s.ofile (np, i) = none) →
      ∃ s', s.forkFiles p np l = some s' ∧ Inv s' [] ∧ Change np s s' := by
  induction l with
  | nil => exact fun {s} h _ ↦ ⟨s, rfl, h, .refl np s⟩
  | cons i l ih =>
    intro s h hempty
    rw [State.forkFiles]
    obtain ⟨hi, hl⟩ := List.nodup_cons.mp hl
    cases hf : s.ofile (p, i) with
    | none => exact ih hl h fun k hk ↦ hempty k (List.mem_cons_of_mem _ hk)
    | some f =>
      obtain ⟨s₁, hs₁, hinv, hofile, hused⟩ := h.filedup (h.counts.refs.pos hf)
      have hnone : s₁.ofile (np, i) = none := by
        rw [hofile]
        exact hempty i List.mem_cons_self
      obtain ⟨s', hs', hinv, hchange⟩ := ih hl (hinv.store hnone) fun k hk ↦ by
        rw [setOfile_of_ne (ne_of_mem_of_not_mem hk hi), hofile]
        exact hempty k (List.mem_cons_of_mem _ hk)
      refine ⟨s', by simp only [hs₁]; exact hs', hinv, ?_⟩
      exact ((Change.of_eq hofile hused).trans (.setOfile ..)).trans hchange

theorem closeFiles (p : ι) (l : List (Fin nofile)) :
    ∀ {s : State ι}, Inv s [] → ∃ s', s.closeFiles p l = some s' ∧ Inv s' [] ∧ Change p s s' ∧
      ∀ fd, fd ∈ l ∨ s.ofile (p, fd) = none → s'.ofile (p, fd) = none := by
  induction l with
  | nil => exact fun {s} h ↦ ⟨s, rfl, h, .refl p s, fun fd hfd ↦ by simpa using hfd⟩
  | cons k l ih =>
    intro s h
    rw [State.closeFiles]
    cases hf : s.ofile (p, k) with
    | none =>
      obtain ⟨s', hs', hinv, hchange, hnone⟩ := ih h
      refine ⟨s', hs', hinv, hchange, fun fd hfd ↦ hnone fd ?_⟩
      rcases hfd with hfd | hfd
      · rcases List.mem_cons.mp hfd with rfl | hfd
        · exact .inr hf
        · exact .inl hfd
      · exact .inr hfd
    | some f =>
      obtain ⟨s₂, hs₂, hinv, hofile, hused⟩ := (h.fetch hf).fileclose
      rw [fileclose_setOfile] at hs₂
      obtain ⟨s₁, hs₁, rfl⟩ := Option.map_eq_some_iff.mp hs₂
      obtain ⟨s', hs', hinv, hchange, hnone⟩ := ih hinv
      refine ⟨s', by simp only [hs₁]; exact hs', hinv,
        ((Change.setOfile s p k none).trans (.of_eq hofile hused)).trans hchange, fun fd hfd ↦ ?_⟩
      refine hnone fd (or_iff_not_imp_left.mpr fun hl ↦ ?_)
      rw [hofile]
      obtain rfl | hne := eq_or_ne fd k
      · exact update_self ..
      · rw [setOfile_of_ne hne]
        exact hfd.resolve_left fun hmem ↦ (List.mem_cons.mp hmem).elim hne hl

end Inv

/-! ## Runs -/

/-- A process that is not there has no open files. -/
def Closed (s : State ι) : Prop := ∀ p, s.used p = false → ∀ fd, s.ofile (p, fd) = none

omit [Fintype ι] [DecidableEq ι] in
theorem Closed.of_change (h : Closed s) (hp : s.used p = true) (hchange : Change p s s') :
    Closed s' := by
  intro q hq fd
  rw [hchange.used] at hq
  have hne : q ≠ p := by
    rintro rfl
    rw [hp] at hq
    cases hq
  rw [hchange.ofile q hne fd]
  exact h q hq fd

omit [Fintype ι] [DecidableEq ι] in
theorem used_of_enabled {c : Call ι} (h : s.enabled p c = true) : s.used p = true := by
  cases c with
  | pipe arg page =>
    cases page with
    | none => exact h
    | some a => exact (Bool.and_eq_true_iff.mp h).1
  | fork child =>
    cases child with
    | none => exact h
    | some r => exact (Bool.and_eq_true_iff.mp h).1
  | _ => exact h

namespace Inv

theorem fork (h : Inv s []) (hclosed : Closed s) {child : Option (ι × ℤ)}
    (hchild : ∀ np pid, child = some (np, pid) → s.used np = false) :
    ∃ s' v, s.fork p child = some (s', v) ∧ Inv s' [] ∧ Closed s' := by
  cases child with
  | none => exact ⟨s, -1, rfl, h, hclosed⟩
  | some r =>
    obtain ⟨np, pid⟩ := r
    have hnp := hclosed np (hchild np pid rfl)
    obtain ⟨s', hs', hinv, hchange⟩ :=
      h.forkFiles p np (List.nodup_finRange nofile) fun i _ ↦ hnp i
    refine ⟨{ s' with used := update s'.used np true }, pid, ?_, ⟨hinv.counts, hinv.pipes⟩, ?_⟩
    · rw [State.fork]
      simp only [hs']
      rfl
    · intro q hq fd
      obtain rfl | hne := eq_or_ne q np
      · simp at hq
      · simp only [update_of_ne hne, hchange.used] at hq
        exact (hchange.ofile q hne fd).trans (hclosed q hq fd)

theorem exit (h : Inv s []) (hclosed : Closed s) (p : ι) :
    ∃ s', s.exit p = some s' ∧ Inv s' [] ∧ Closed s' := by
  obtain ⟨s', hs', hinv, hchange, hnone⟩ := h.closeFiles p (List.finRange nofile)
  refine ⟨{ s' with used := update s'.used p false }, ?_, ⟨hinv.counts, hinv.pipes⟩, ?_⟩
  · rw [State.exit, hs']
    rfl
  · intro q hq fd
    obtain rfl | hne := eq_or_ne q p
    · exact hnone fd (.inl (List.mem_finRange fd))
    · simp only [update_of_ne hne, hchange.used] at hq
      exact (hchange.ofile q hne fd).trans (hclosed q hq fd)

theorem call (h : Inv s []) (hclosed : Closed s) {c : Call ι} (hen : s.enabled p c = true) :
    ∃ s' v, s.call p c = some (s', v) ∧ Inv s' [] ∧ Closed s' := by
  have hp := used_of_enabled hen
  have hreturns : ∀ {r}, Returns p s r → ∃ s' v, r = some (s', v) ∧ Inv s' [] ∧ Closed s' := by
    rintro r ⟨s', v, hr, hinv, hchange⟩
    exact ⟨s', v, hr, hinv, hclosed.of_change hp hchange⟩
  cases c with
  | dup fd => exact hreturns (h.sysDup p fd)
  | close fd => exact hreturns (h.sysClose p fd)
  | openFile ip omode => exact hreturns (h.sysOpen p ip omode)
  | pipe arg page =>
    refine hreturns (h.sysPipe p arg ?_)
    rintro a rfl
    exact beq_iff_eq.mp (Bool.and_eq_true_iff.mp hen).2
  | fork child =>
    refine h.fork hclosed ?_
    rintro np pid rfl
    simpa using (Bool.and_eq_true_iff.mp hen).2
  | exit =>
    obtain ⟨s', hs', hinv, hclosed⟩ := h.exit hclosed p
    exact ⟨s', 0, by rw [State.call, hs']; rfl, hinv, hclosed⟩

end Inv

theorem initial_inv (init : ι) : Inv (initial init) [] where
  counts := ⟨.initial, fun _ _ ↦ rfl, fun _ h ↦ by cases h⟩
  pipes := ⟨fun h ↦ by simp [initial, Entry.side] at h, fun _ _ h ↦ absurd rfl h,
    fun _ ↦ .inr ⟨rfl, fun _ _ h ↦ by simp [initial, Entry.side] at h⟩⟩

theorem inv_of_trace {init : ι} {hist : List (State ι × ι × Call ι)}
    (t : Trace Step (initial init) hist s) : Inv s [] ∧ Closed s := by
  refine t.invariant (I := fun s ↦ Inv s [] ∧ Closed s) ⟨initial_inv init, fun _ _ _ ↦ rfl⟩ ?_
  rintro s ⟨p, c⟩ s' ⟨hinv, hclosed⟩ hs
  obtain ⟨hen, hs⟩ := Option.ite_none_right_eq_some.mp hs
  obtain ⟨s'', v, hcall, hinv, hclosed⟩ := hinv.call hclosed hen
  rw [hcall] at hs
  obtain rfl := Option.some.inj hs
  exact ⟨hinv, hclosed⟩

/-! ## The counts in every state -/

structure Counted (s : State ι) : Prop where
  ref : ∀ f, (s.file f).ref = Finset.card {x | s.ofile x = some f}
  unused : ∀ f, (s.file f).ref = 0 → (s.file f).type = .none
  readopen : ∀ a, s.kallocs a ≠ s.kfrees a → ((s.pipe a).readopen = true ↔
    ∃ f, 0 < (s.file f).ref ∧ (s.file f).type = .pipe ∧ (s.file f).pipe = a ∧
      (s.file f).readable = true)
  writeopen : ∀ a, s.kallocs a ≠ s.kfrees a → ((s.pipe a).writeopen = true ↔
    ∃ f, 0 < (s.file f).ref ∧ (s.file f).type = .pipe ∧ (s.file f).pipe = a ∧
      (s.file f).writable = true)
  /-- A page that was handed out for a pipe has been freed once for each time, except the last time
  as long as one of the ends is there. -/
  pages : ∀ a, s.kallocs a = s.kfrees a + 1 ∧ (∃ f, 0 < (s.file f).ref ∧
      (s.file f).type = .pipe ∧ (s.file f).pipe = a) ∨
    s.kallocs a = s.kfrees a ∧ ¬∃ f, 0 < (s.file f).ref ∧ (s.file f).type = .pipe ∧
      (s.file f).pipe = a

theorem side_eq_some_iff {e : Entry} {a : ℕ} {w : Bool} :
    e.side = some (a, w) ↔ 0 < e.ref ∧ e.type = .pipe ∧ e.pipe = a ∧ e.writable = w := by
  unfold Entry.side
  split_ifs with h
  · simp [h]
  · simpa using fun hpos htype ↦ absurd ⟨hpos, htype⟩ h

theorem Inv.counted (h : Inv s []) : Counted s where
  ref f := by
    have hcount := h.counts.refs.count f
    simp only [tally, decide_eq_true_eq, List.count_nil, Nat.add_zero] at hcount
    exact hcount
  unused := h.counts.unused
  readopen a ha := by
    refine (h.pipes.opened a false ha).trans (exists_congr fun f ↦ ?_)
    rw [side_eq_some_iff]
    refine and_congr_right fun _ ↦ and_congr_right fun htype ↦ and_congr_right fun _ ↦ ?_
    rw [h.counts.sides f htype]
    simp
  writeopen a ha :=
    (h.pipes.opened a true ha).trans (exists_congr fun f ↦ side_eq_some_iff)
  pages a := by
    have hside : ∀ f, (∃ w, (s.file f).side = some (a, w)) ↔
        0 < (s.file f).ref ∧ (s.file f).type = .pipe ∧ (s.file f).pipe = a := by
      intro f
      simp [side_eq_some_iff]
    refine (h.pipes.pages a).imp (And.imp_right ?_) (And.imp_right ?_)
    · rintro ⟨f, w, hf⟩
      exact ⟨f, (hside f).mp ⟨w, hf⟩⟩
    · rintro hnone ⟨f, hf⟩
      obtain ⟨w, hw⟩ := (hside f).mpr hf
      exact hnone f w hw

/-- **Reference counts of open files.** After every sequence of calls the counts are right, and no
call panics. -/
theorem counted_of_trace {init : ι} {hist : List (State ι × ι × Call ι)}
    (t : Trace Step (initial init) hist s) :
    Counted s ∧ ∀ p c, s.enabled p c = true → ∃ r, s.call p c = some r := by
  obtain ⟨hinv, hclosed⟩ := inv_of_trace t
  refine ⟨hinv.counted, fun p c hen ↦ ?_⟩
  obtain ⟨s', v, hcall, -⟩ := hinv.call hclosed hen
  exact ⟨(s', v), hcall⟩

/-- A pipe between a process and its child, each of which closes an end; then the child exits, and
the parent closes the other end. -/
def pipeToChild : List (Bool × Call Bool) :=
  [(false, .pipe true (some 7)), (false, .fork (some (true, 2))), (true, .close 1),
    (false, .close 0), (false, .dup 1), (true, .exit), (false, .close 1), (false, .close 0)]

theorem counted_of_trace_pipeToChild : ∃ hist s, Trace Step (initial false) hist s ∧
    hist.map Prod.snd = pipeToChild ∧ s.kallocs 7 = 1 ∧ s.kfrees 7 = 1 ∧ Counted s := by
  have hrun : (execute State.exec (initial false) pipeToChild).map
      (fun s ↦ (s.kallocs 7, s.kfrees 7)) = some (1, 1) := by decide +kernel
  obtain ⟨hist, s, t, hlab, hend⟩ : ∃ hist s, Trace Step _ hist s ∧ _ :=
    exists_trace_of_execute_map (fun _ _ _ ↦ id) hrun
  obtain ⟨hallocs, hfrees⟩ := Prod.mk.inj hend
  exact ⟨hist, s, t, hlab, hallocs, hfrees, (counted_of_trace t).1⟩

end SistemasOperacionais.Xv6.File
