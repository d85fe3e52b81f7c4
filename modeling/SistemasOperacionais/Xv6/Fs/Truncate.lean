import SistemasOperacionais.Xv6.Fs.Ownership

/-!
# Freeing an inode

`itrunc` clears the bits of the blocks of one file. No other inode stores these blocks, so its
blocks stay marked; the inode itself stores none of them any more when it is written back.
-/

namespace SistemasOperacionais.Xv6.Fs

open Foundations Function

/-! ## `itrunc` -/

/-- Blocks of `B` have been freed, and their numbers erased from the copy of inode `i`. -/
structure Freed (B : Set ℕ) (s s' : State) (i : Fin ninode) : Prop where
  sb : s'.sb = s.sb
  cache : ∀ j, j ≠ i → s'.icache j = s.icache j
  self : ∃ addrs, s'.icache i = (s.icache i).withDin ((s.icache i).din.withAddrs addrs) ∧
    ∀ j, addrs j = 0 ∨ addrs j = (s.icache i).din.addrs j
  disk : ∀ k, k < s.sb.bmapstart.toNat ∨ datastart s.sb ≤ k → s'.disk k = s.disk k
  used : ∀ b, b ∉ B → used s.sb s'.disk b = used s.sb s.disk b

section Freed

variable {B : Set ℕ} {s s₁ s' : State} {i : Fin ninode} {j : Fin 13} {b : ℕ} {a : UInt32}

namespace Freed

theorem refl : Freed B s s i :=
  ⟨rfl, fun _ _ ↦ rfl, ⟨_, rfl, fun _ ↦ Or.inr rfl⟩, fun _ _ ↦ rfl, fun _ _ ↦ rfl⟩

theorem trans (h : Freed B s s₁ i) (h' : Freed B s₁ s' i) : Freed B s s' i := by
  refine ⟨h'.sb.trans h.sb, fun j hj ↦ (h'.cache j hj).trans (h.cache j hj), ?_,
    fun k hk ↦ (h'.disk k (by rwa [h.sb])).trans (h.disk k hk), fun b hb ↦ ?_⟩
  · obtain ⟨a, ha, hz⟩ := h.self
    obtain ⟨a', ha', hz'⟩ := h'.self
    rw [ha] at ha' hz'
    refine ⟨a', ha', fun j ↦ (hz' j).elim Or.inl fun heq ↦ ?_⟩
    rw [heq]
    exact hz j
  · have hused := h'.used b hb
    rw [h.sb] at hused
    exact hused.trans (h.used b hb)

theorem addrs (h : Freed B s s' i) (j : Fin 13) :
    (s'.icache i).din.addrs j = 0 ∨ (s'.icache i).din.addrs j = (s.icache i).din.addrs j := by
  obtain ⟨a, ha, hz⟩ := h.self
  rw [ha]
  exact hz j

theorem super (h : Freed B s s' i) (hg : Geometry s.sb) : s'.disk 1 = s.disk 1 :=
  h.disk 1 (Or.inl hg.one_lt_bmapstart)

theorem ino_eq (h : Freed B s s' i) (hg : Geometry s.sb) {n : ℕ} (hn : n < s.sb.ninodes.toNat) :
    s'.ino n = s.ino n := by
  rw [State.ino, State.ino, inodeAt, inodeAt, h.sb, h.disk _ (Or.inl (hg.iblock_lt hn))]

theorem of_bfree (hsuper : readsb s.disk = s.sb) (hb : b ∈ B) (hlt : b < s.sb.size.toNat)
    (hs : s.bfree b = some s') : Freed B s s' i := by
  have hrefresh : s.refresh = s := by rw [State.refresh, hsuper]
  rw [State.bfree, hrefresh, Option.ite_none_right_eq_some] at hs
  obtain rfl := Option.some.inj hs.2
  refine ⟨rfl, fun _ _ ↦ rfl, ⟨_, rfl, fun _ ↦ Or.inr rfl⟩, fun k hk ↦ ?_, fun c hc ↦ ?_⟩
  · have hlo := le_bblock s.sb b
    have hhi := bblock_lt hlt
    exact update_of_ne (by omega) ..
  · have hne : c ≠ b := fun heq ↦ hc (heq ▸ hb)
    refine used_clear.trans ?_
    rw [decide_eq_false hne, Bool.not_false, Bool.true_and]

theorem of_setAddr : Freed B s (s.setAddr i j 0) i := by
  refine ⟨rfl, fun k hk ↦ update_of_ne hk .., ⟨_, update_self .., fun k ↦ ?_⟩, fun _ _ ↦ rfl,
    fun _ _ ↦ rfl⟩
  obtain rfl | hne := eq_or_ne k j
  · exact Or.inl (update_self ..)
  · exact Or.inr (update_of_ne hne ..)

end Freed

theorem State.icache_bfree (hs : s.bfree b = some s') : s'.icache = s.icache := by
  rw [State.bfree, Option.ite_none_right_eq_some] at hs
  obtain rfl := Option.some.inj hs.2
  rfl

/-- The blocks of the file of inode `i`. -/
def State.fileBlocks (s : State) (i : Fin ninode) : Set ℕ :=
  { b | ∃ p, own s.sb s.disk (s.view i) ((s.icache i).inum, p) = some b }

theorem Open.mem_fileBlocks (h : Open s i) {p : Pos} (h0 : addr s.disk (s.icache i).din p ≠ 0) :
    (addr s.disk (s.icache i).din p).toNat ∈ s.fileBlocks i := by
  refine ⟨p, ?_⟩
  rw [own_eq_some, s.view_self]
  exact ⟨h.inum, h.type, h0, rfl⟩

theorem Open.marked_of_mem (h : Open s i) (hb : b ∈ s.fileBlocks i) : b ∈ Marked s.sb s.disk := by
  obtain ⟨p, hp⟩ := hb
  exact h.owned.exclusive.mem hp

variable (h : Open s i) (hsuper : readsb s.disk = s.sb) (hf : Freed (s.fileBlocks i) s s₁ i)

include h hsuper hf

theorem Open.bfree (hb : b ∈ s.fileBlocks i) (hs : s₁.bfree b = some s') :
    Freed (s.fileBlocks i) s₁ s' i := by
  have hsuper₁ : readsb s₁.disk = s₁.sb := by
    rw [readsb, hf.super h.geometry, hf.sb]
    exact hsuper
  refine .of_bfree hsuper₁ hb ?_ hs
  rw [hf.sb]
  exact (h.marked_of_mem hb).2.2

theorem Open.freeDirect {js : List (Fin 13)} (hs : State.freeDirect i js s₁ = some s') :
    Freed (s.fileBlocks i) s₁ s' i := by
  induction js generalizing s₁ with
  | nil =>
    obtain rfl := Option.some.inj hs
    exact .refl
  | cons j js ih =>
    rw [State.freeDirect] at hs
    split_ifs at hs with h0
    · exact ih hf hs
    · obtain ⟨s₂, hs₂, hs⟩ := Option.bind_eq_some_iff.mp hs
      have heq := (hf.addrs j).resolve_left h0
      rw [heq] at h0 hs₂
      have hf₂ := h.bfree hsuper hf (h.mem_fileBlocks (p := .direct j) h0) hs₂
      have hf₃ : Freed (s.fileBlocks i) s₁ (s₂.setAddr i j 0) i := hf₂.trans .of_setAddr
      exact hf₃.trans (ih (hf.trans hf₃) hs)

theorem Open.freeEntries {js : List (Fin 128)} (ha : (s.icache i).din.addrs last = a) (h0 : a ≠ 0)
    (hs : State.freeEntries a js s₁ = some s') :
    Freed (s.fileBlocks i) s₁ s' i ∧ s'.icache = s₁.icache := by
  have hne : addr s.disk (s.icache i).din (.direct last) ≠ 0 := by rwa [addr, ha]
  have hmem : a.toNat ∈ Marked s.sb s.disk := ha ▸ h.marked_of_mem (h.mem_fileBlocks hne)
  induction js generalizing s₁ with
  | nil =>
    obtain rfl := Option.some.inj hs
    exact ⟨.refl, rfl⟩
  | cons j js ih =>
    have hword : Block.word (s₁.disk a.toNat) j = addr s.disk (s.icache i).din (.entry j) := by
      rw [addr, ha, if_neg h0, hf.disk _ (Or.inr hmem.2.1)]
    rw [State.freeEntries, hword] at hs
    split_ifs at hs with hz
    · exact ih hf hs
    · obtain ⟨s₂, hs₂, hs⟩ := Option.bind_eq_some_iff.mp hs
      have hf₂ := h.bfree hsuper hf (h.mem_fileBlocks hz) hs₂
      obtain ⟨hf', hcache⟩ := ih (hf.trans hf₂) hs
      exact ⟨hf₂.trans hf', hcache.trans (State.icache_bfree hs₂)⟩

theorem Open.freeIndirect (hs : s₁.freeIndirect i = some s') :
    Freed (s.fileBlocks i) s₁ s' i := by
  rw [State.freeIndirect] at hs
  split_ifs at hs with h0
  · obtain rfl := Option.some.inj hs
    exact .refl
  · obtain ⟨s₂, hs₂, hs⟩ := Option.bind_eq_some_iff.mp hs
    obtain ⟨s₃, hs₃, rfl⟩ := Option.map_eq_some_iff.mp hs
    have heq := (hf.addrs last).resolve_left h0
    obtain ⟨hf₂, hcache⟩ := h.freeEntries hsuper hf heq.symm h0 hs₂
    rw [hcache, heq] at hs₃
    rw [heq] at h0
    have hf₃ := h.bfree hsuper (hf.trans hf₂) (h.mem_fileBlocks (p := .direct last) h0) hs₃
    exact (hf₂.trans hf₃).trans .of_setAddr

end Freed

/-! ## `iput` -/

section Put

variable {s s₁ s' t : State} {i : Fin ninode} {x : Dinode}

theorem Back.trans {y : Dinode} (h : Back s s₁ i x) (h' : Back s₁ t i y) : Back s t i y := by
  have hinum : (s₁.icache i).inum = (s.icache i).inum := by rw [h.icache, update_self]; rfl
  refine ⟨⟨h'.sb.trans h.sb, ?_, fun k hk ↦ ?_⟩, ?_⟩
  · rw [h'.ino, h.ino, hinum, update_idem]
  · rw [h'.disk k (by rwa [h.sb]), h.disk k hk]
  · rw [h'.icache, h.icache, update_idem, update_self]
    rfl

/-- `itrunc` is followed by `iupdate` twice. -/
theorem Open.free (h : Open s i) (hsuper : readsb s.disk = s.sb) (hs : s.free i = some s') :
    ∃ s₁ t x, Freed (s.fileBlocks i) s s₁ i ∧ Back s₁ t i x ∧ x.type = 0 ∧
      s' = t.invalidate i := by
  obtain ⟨t₁, htrunc, rfl⟩ := Option.map_eq_some_iff.mp hs
  obtain ⟨s₁, hs₁, htrunc⟩ := Option.bind_eq_some_iff.mp htrunc
  obtain ⟨s₂, hs₂, rfl⟩ := Option.map_eq_some_iff.mp htrunc
  have hf₁ := h.freeDirect hsuper .refl hs₁
  have hf := hf₁.trans (h.freeIndirect hsuper hf₁ hs₂)
  obtain ⟨a, ha, -⟩ := hf.self
  have hgeo : Geometry s₂.sb := by rw [hf.sb]; exact h.geometry
  have hinum : (s₂.icache i).inum < s₂.sb.ninodes.toNat := by
    rw [hf.sb, ha]
    exact h.inum
  set t₁ := (s₂.setDin i ((s₂.icache i).din.withSize 0)).iupdate i with ht₁
  have hb₁ : Back s₂ t₁ i ((s₂.icache i).din.withSize 0) := .of_iupdate hgeo hinum
  have hb₂ : Back t₁ (t₁.setType i 0) i ((t₁.icache i).din.withType 0) := by
    refine .of_iupdate (by rw [hb₁.sb]; exact hgeo) ?_
    rw [hb₁.sb, hb₁.icache, update_self]
    exact hinum
  exact ⟨s₂, _, _, hf, hb₁.trans hb₂, rfl, rfl⟩

theorem Open.owned_of_freed (h : Open s i) (hf : Freed (s.fileBlocks i) s s₁ i) (hx : x.type = 0) :
    Owned s₁.sb s₁.disk (update s₁.ino (s.icache i).inum x) := by
  have hkeep {b : ℕ} (hb : b ∉ s.fileBlocks i) : used s₁.sb s₁.disk b = used s.sb s.disk b := by
    rw [hf.sb]
    exact hf.used b hb
  have hsub (n : ℕ) (p : Pos) (b : ℕ)
      (hn : own s₁.sb s₁.disk (update s₁.ino (s.icache i).inum x) (n, p) = some b) :
      own s.sb s.disk (s.view i) (n, p) = some b ∧ n ≠ (s.icache i).inum := by
    obtain ⟨hlt, htype, h0, hb⟩ := own_eq_some.mp hn
    obtain rfl | hne := eq_or_ne n (s.icache i).inum
    · rw [update_self] at htype
      exact absurd hx htype
    · rw [hf.sb] at hlt
      have hino : update s₁.ino (s.icache i).inum x n = s.view i n := by
        rw [update_of_ne hne, State.view, update_of_ne hne, hf.ino_eq h.geometry hlt]
      rw [hino] at htype h0 hb
      have haddr : addr s₁.disk (s.view i n) = addr s.disk (s.view i n) :=
        addr_congr fun hlast ↦ hf.disk _ (Or.inr (h.owned.exclusive.mem (k := (n, .direct last))
          (own_eq_some.mpr ⟨hlt, htype, hlast, rfl⟩)).2.1)
      rw [haddr] at h0 hb
      exact ⟨own_eq_some.mpr ⟨hlt, htype, h0, hb⟩, hne⟩
  refine ⟨fun b hb ↦ ?_, fun {k b} hk ↦ ?_, fun {k k' b} hk hk' ↦ ?_⟩
  · rw [hf.sb] at hb
    have hnot : b ∉ s.fileBlocks i := fun hmem ↦ hb.not_ge (h.marked_of_mem hmem).2.1
    rw [hkeep hnot]
    exact h.owned.metadata b hb
  · obtain ⟨hown, hne⟩ := hsub k.1 k.2 b hk
    have hnot : b ∉ s.fileBlocks i := by
      rintro ⟨q, hq⟩
      exact hne (congrArg Prod.fst (h.owned.exclusive.inj hown hq))
    have hmem := h.owned.exclusive.mem hown
    rw [Marked, Set.mem_ofPred_eq, hkeep hnot, hf.sb]
    exact hmem
  · exact h.owned.exclusive.inj (hsub k.1 k.2 b hk).1 (hsub k'.1 k'.2 b hk').1

theorem Inv.free (h : Inv s) (href : (s.icache i).ref = 1) (hv : (s.icache i).valid = true)
    (hs : s.free i = some s') :
    Inv (s'.deref i) ∧ (s'.deref i).sb = s.sb ∧
      ∀ k, k ≠ i → (s'.deref i).icache k = s.icache k := by
  have hpos : 0 < (s.icache i).ref := by omega
  have hopen := h.open hpos hv
  obtain ⟨s₁, t, x, hf, hb, hx, rfl⟩ := hopen.free h.super hs
  obtain ⟨a, ha, -⟩ := hf.self
  have hinum : (s₁.icache i).inum = (s.icache i).inum := by rw [ha]; rfl
  set t' := (t.invalidate i).deref i with ht'
  have hsb : t'.sb = s.sb := hb.sb.trans hf.sb
  have hcache (k : Fin ninode) (hk : k ≠ i) : t'.icache k = s.icache k := by
    refine (update_of_ne hk ..).trans ((update_of_ne hk ..).trans ?_)
    rw [hb.icache, update_of_ne hk, hf.cache k hk]
  have hti : t'.icache i = ((t.icache i).withValid false).withRef ((t.icache i).ref - 1) := by
    rw [ht', State.deref, State.setCache, State.invalidate, State.setCache]
    simp only [update_self, Inode.withValid]
  have htref : (t.icache i).ref = 1 ∧ (t.icache i).inum = (s.icache i).inum := by
    rw [hb.icache, update_self]
    exact ⟨by rw [ha]; exact href, hinum⟩
  have hino : t'.ino = update s₁.ino (s.icache i).inum x := by
    rw [← hinum]
    exact hb.ino
  have hdisk (k : ℕ) (hk : k = 1 ∨ datastart s.sb ≤ k) : t'.disk k = s.disk k := by
    have hreg : k = 1 ∨ s₁.sb.bmapstart.toNat ≤ k := by
      rw [hf.sb]
      exact hk.imp_right (bmapstart_lt_datastart s.sb).le.trans
    have hlt := hopen.geometry.one_lt_bmapstart
    exact (hb.disk k hreg).trans (hf.disk k (by omega))
  have hown (n : ℕ) (p : Pos) (hn : n < s.sb.ninodes.toNat) (htype : (s.ino n).type ≠ 0)
      (hp : addr s.disk (s.ino n) p ≠ 0) :
      t'.disk (addr s.disk (s.ino n) p).toNat = s.disk (addr s.disk (s.ino n) p).toNat :=
    hdisk _ (Or.inr (h.owned.exclusive.mem (k := (n, p))
      (own_eq_some.mpr ⟨hn, htype, hp, rfl⟩)).2.1)
  obtain ⟨hc, hself, hother⟩ := h.cache_of_update (d := x) hpos hcache (by rw [hti]; exact htref.2)
    fun hgt ↦ by
      rw [hti] at hgt
      have heq : (t.icache i).ref - 1 = 0 := by omega
      exact absurd (heq ▸ hgt) (lt_irrefl 0)
  have hr : Replaced s t' (s.icache i).inum x := by
    refine ⟨hsb, hc, hself, hother, fun n hn ↦ ?_, hdisk 1 (Or.inl rfl),
      fun n hn _ htype ↦ addr_congr fun h0 ↦ hown n (.direct last) hn htype h0,
      fun n hn _ htype p hp ↦ hown n p hn htype hp⟩
    rw [hino]
    obtain rfl | hne := eq_or_ne n (s.icache i).inum
    · rw [update_self, update_self]
    · rw [update_of_ne hne, update_of_ne hne, hf.ino_eq h.geometry hn]
  have ho : Owned t'.sb t'.disk t'.ino := by
    refine hb.owned ?_
    rw [hb.ino, hinum]
    exact hopen.owned_of_freed hf hx
  have hne : ¬(x.type = tDir ∨ x.type = tFile) := fun ht ↦ ne_zero_of_type ht hx
  exact ⟨h.replaced hr ho (Or.inl hx) (fun ht ↦ absurd ht hne) fun ht ↦ absurd (Or.inl ht) hne,
    hsb, hcache⟩

theorem Inv.of_cache (h : Inv s) (hsb : t.sb = s.sb) (hdisk : t.disk = s.disk)
    (hinum : ∀ j, 0 < (t.icache j).ref → (t.icache j).inum < s.sb.ninodes.toNat)
    (hdistinct : ∀ j k, 0 < (t.icache j).ref → 0 < (t.icache k).ref →
      (t.icache j).inum = (t.icache k).inum → j = k)
    (hcopy : ∀ j, 0 < (t.icache j).ref → (t.icache j).valid = true →
      (t.icache j).din = s.ino (t.icache j).inum ∧ (t.icache j).din.type ≠ 0) : Inv t := by
  have hino : t.ino = s.ino := by rw [State.ino, State.ino, hsb, hdisk]
  refine ⟨⟨by rw [hsb]; exact h.geometry, by rw [hdisk, hsb]; exact h.super, ?_, ?_, ?_, hdistinct,
    ?_⟩, ?_, ?_⟩
  · rw [hsb, hino]
    exact h.types
  · rw [hsb, hino, hdisk]
    exact h.entries
  · rw [hsb]
    exact hinum
  · rw [hino]
    exact hcopy
  · rw [hsb, hdisk, hino]
    exact h.owned
  · rw [hsb, hino, hdisk]
    exact h.filled

theorem Inv.deref (h : Inv s) : Inv (s.deref i) := by
  have hcache (k : Fin ninode) : 0 < ((s.deref i).icache k).ref → 0 < (s.icache k).ref ∧
      ((s.deref i).icache k).inum = (s.icache k).inum ∧
      ((s.deref i).icache k).valid = (s.icache k).valid ∧
      ((s.deref i).icache k).din = (s.icache k).din := by
    obtain rfl | hne := eq_or_ne k i
    · have hk : (s.deref k).icache k = (s.icache k).withRef ((s.icache k).ref - 1) :=
        update_self ..
      rw [hk]
      exact fun hpos ↦ ⟨hpos.trans_le (Nat.sub_le ..), rfl, rfl, rfl⟩
    · have hk : (s.deref i).icache k = s.icache k := update_of_ne hne ..
      rw [hk]
      exact fun hpos ↦ ⟨hpos, rfl, rfl, rfl⟩
  refine h.of_cache rfl rfl (fun j hj ↦ ?_) (fun j k hj hk heq ↦ ?_) fun j hj hv ↦ ?_
  · obtain ⟨hj', hinum, -⟩ := hcache j hj
    rw [hinum]
    exact h.inum j hj'
  · obtain ⟨hj', hinum, -⟩ := hcache j hj
    obtain ⟨hk', hinum', -⟩ := hcache k hk
    rw [hinum, hinum'] at heq
    exact h.distinct j k hj' hk' heq
  · obtain ⟨hj', hinum, hvalid, hdin⟩ := hcache j hj
    rw [hvalid] at hv
    rw [hdin, hinum]
    exact h.copy j hj' hv

theorem Inv.iput (h : Inv s) (hs : s.iput i = some s') : Inv s' ∧ s'.sb = s.sb ∧
    (∀ k, k ≠ i → s'.icache k = s.icache k) ∧
    (1 < (s.icache i).ref → s'.icache i = (s.icache i).withRef ((s.icache i).ref - 1)) := by
  rw [State.iput] at hs
  split_ifs at hs with hfree
  · obtain ⟨href, hv, -⟩ := hfree
    obtain ⟨s₁, hs₁, rfl⟩ := Option.map_eq_some_iff.mp hs
    obtain ⟨hinv, hsb, hcache⟩ := h.free href hv hs₁
    exact ⟨hinv, hsb, hcache, fun hgt ↦ absurd href hgt.ne'⟩
  · obtain rfl := Option.some.inj hs
    exact ⟨h.deref, rfl, fun k hk ↦ update_of_ne hk .., fun _ ↦ update_self ..⟩

end Put

end SistemasOperacionais.Xv6.Fs
