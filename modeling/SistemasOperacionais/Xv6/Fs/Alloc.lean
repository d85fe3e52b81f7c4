import SistemasOperacionais.Xv6.Fs.Files
import SistemasOperacionais.Xv6.Fs.Model

/-!
# Allocation

What `balloc`, `bmap` and `bfree` do to the owners of the blocks. While a file grows, the copy of
its inode in the cache is ahead of the inode on the disk, so the owners are those that the copy
gives.
-/

namespace SistemasOperacionais.Xv6.Fs

open Foundations Function

namespace State

def ino (s : State) : ℕ → Dinode := inodeAt s.sb s.disk

/-- The inodes, that of `i` from the cache. -/
def view (s : State) (i : Fin ninode) : ℕ → Dinode :=
  update s.ino (s.icache i).inum (s.icache i).din

end State

/-! ## `balloc` -/

/-- Block `b` has been allocated, and is empty. -/
structure Alloc (s : State) (b : ℕ) (s' : State) : Prop where
  sb : s'.sb = s.sb
  icache : s'.icache = s.icache
  fresh : used s.sb s.disk b = false
  le : datastart s.sb ≤ b
  lt : b < s.sb.size.toNat
  used : ∀ c < s.sb.size.toNat, used s.sb s'.disk c = (decide (c = b) || used s.sb s.disk c)
  zero : s'.disk b = fun _ ↦ 0
  other : ∀ k, k ≠ b → k < s.sb.bmapstart.toNat ∨ datastart s.sb ≤ k → s'.disk k = s.disk k

section Alloc

variable {s s' : State} {b k n : ℕ} {i : Fin ninode} {ino : ℕ → Dinode}

theorem Alloc.of_balloc (hm : ∀ b < datastart s.sb, Fs.used s.sb s.disk b = true)
    (hs : s.balloc = some (b, s')) : Alloc s b s' := by
  obtain ⟨b', hfind, heq⟩ := Option.map_eq_some_iff.mp hs
  obtain ⟨rfl, rfl⟩ := Prod.mk.inj heq
  have hfree : Fs.used s.sb s.disk b' = false := by simpa using List.find?_some hfind
  have hlt : b' < s.sb.size.toNat := List.mem_range.mp (List.mem_of_find?_eq_some hfind)
  have hle : datastart s.sb ≤ b' := by
    by_contra hlt'
    rw [hm b' (by omega)] at hfree
    cases hfree
  refine ⟨rfl, rfl, hfree, hle, hlt, fun c hc ↦ ?_, update_self .., fun k hk hreg ↦ ?_⟩
  · have hne : bblock s.sb c ≠ b' := by
      have := bblock_lt hc
      omega
    exact (used_update_of_ne hne).trans used_mark
  · have hne : k ≠ bblock s.sb b' := by
      have hlo := le_bblock s.sb b'
      have hhi := bblock_lt hlt
      omega
    refine (update_of_ne hk ..).trans (update_of_ne hne ..)

namespace Alloc

variable (h : Alloc s b s')

include h

theorem toNat : (UInt32.ofNat b).toNat = b := by
  have hlt := h.lt
  have hsize := s.sb.size.toNat_lt
  exact UInt32.toNat_ofNat_of_lt' (hlt.trans hsize)

theorem ofNat_ne_zero : UInt32.ofNat b ≠ 0 := by
  intro h0
  have hb := h.toNat
  have hle := h.le
  rw [h0] at hb
  have hdata := bmapstart_lt_datastart s.sb
  change 0 = b at hb
  omega

theorem marked : Marked s'.sb s'.disk = insert b (Marked s.sb s.disk) := by
  ext c
  rw [h.sb, Set.mem_insert_iff]
  simp only [Marked, Set.mem_ofPred_eq]
  have hle := h.le
  have hlt := h.lt
  constructor
  · rintro ⟨hu, hlo, hhi⟩
    rw [h.used c hhi, Bool.or_eq_true, decide_eq_true_eq] at hu
    exact hu.imp id fun hu ↦ ⟨hu, hlo, hhi⟩
  · rintro (rfl | ⟨hu, hlo, hhi⟩)
    · exact ⟨by rw [h.used c hlt, decide_eq_true rfl, Bool.true_or], hle, hlt⟩
    · exact ⟨by rw [h.used c hhi, hu, Bool.or_true], hlo, hhi⟩

theorem metadata (hg : Geometry s.sb) (hm : ∀ b < datastart s.sb, Fs.used s.sb s.disk b = true) :
    ∀ b < datastart s'.sb, Fs.used s'.sb s'.disk b = true := by
  rw [h.sb]
  intro c hc
  rw [h.used c (hc.trans_le hg.data), hm c hc, Bool.or_true]

theorem notMem : b ∉ Marked s.sb s.disk := fun hb ↦ by
  cases hb.1.symm.trans h.fresh

theorem disk_eq (hk : k ∈ Marked s.sb s.disk) : s'.disk k = s.disk k :=
  h.other k (fun heq ↦ h.notMem (heq ▸ hk)) (Or.inr hk.2.1)

theorem ino_eq (hg : Geometry s.sb) (hn : n < s.sb.ninodes.toNat) : s'.ino n = s.ino n := by
  have hlt := hg.iblock_lt hn
  have hle := h.le
  have hdata := bmapstart_lt_datastart s.sb
  rw [State.ino, State.ino, inodeAt, inodeAt, h.sb, h.other _ (by omega) (Or.inl hlt)]

theorem super_eq (hg : Geometry s.sb) : s'.disk 1 = s.disk 1 := by
  have hlt := hg.one_lt_bmapstart
  have hdata := bmapstart_lt_datastart s.sb
  have hle := h.le
  exact h.other 1 (by omega) (Or.inl hlt)

theorem addr_eq (ho : Owned s.sb s.disk ino) (hn : n < s.sb.ninodes.toNat)
    (ht : (ino n).type ≠ 0) : addr s'.disk (ino n) = addr s.disk (ino n) :=
  addr_congr fun h0 ↦ h.disk_eq
    (ho.exclusive.mem (k := (n, .direct last)) (own_eq_some.mpr ⟨hn, ht, h0, rfl⟩))

end Alloc

end Alloc

/-! ## `bmap` -/

/-- The owners of the blocks while the copy of inode `i` may be ahead of the disk. -/
structure Open (s : State) (i : Fin ninode) : Prop where
  geometry : Geometry s.sb
  inum : (s.icache i).inum < s.sb.ninodes.toNat
  type : (s.icache i).din.type ≠ 0
  disk : (s.ino (s.icache i).inum).type ≠ 0
  owned : Owned s.sb s.disk (s.view i)

/-- The file of `i` may have grown; the blocks at the positions in `P` are as they were. -/
structure Grown (P : ℕ × Pos → Prop) (s s' : State) (i : Fin ninode) : Prop where
  sb : s'.sb = s.sb
  cache : ∀ j, j ≠ i → s'.icache j = s.icache j
  self : ∃ addrs, s'.icache i = (s.icache i).withDin ((s.icache i).din.withAddrs addrs)
  ino : ∀ n < s.sb.ninodes.toNat, s'.ino n = s.ino n
  super : s'.disk 1 = s.disk 1
  sub : ∀ x k, own s.sb s.disk (s.view i) x = some k → own s'.sb s'.disk (s'.view i) x = some k
  keep : ∀ x k, P x → own s.sb s.disk (s.view i) x = some k → s'.disk k = s.disk k

namespace Grown

variable {P Q : ℕ × Pos → Prop} {s s₁ s' : State} {i : Fin ninode}

theorem refl : Grown P s s i :=
  ⟨rfl, fun _ _ ↦ rfl, ⟨_, rfl⟩, fun _ _ ↦ rfl, rfl, fun _ _ ↦ id, fun _ _ _ _ ↦ rfl⟩

theorem trans (h : Grown P s s₁ i) (h' : Grown P s₁ s' i) : Grown P s s' i := by
  refine ⟨h'.sb.trans h.sb, fun j hj ↦ (h'.cache j hj).trans (h.cache j hj), ?_,
    fun n hn ↦ (h'.ino n (by rwa [h.sb])).trans (h.ino n hn), h'.super.trans h.super,
    fun x k hx ↦ h'.sub x k (h.sub x k hx),
    fun x k hP hx ↦ (h'.keep x k hP (h.sub x k hx)).trans (h.keep x k hP hx)⟩
  obtain ⟨a, ha⟩ := h.self
  obtain ⟨a', ha'⟩ := h'.self
  exact ⟨a', by rw [ha', ha]; rfl⟩

theorem mono (h : Grown P s s' i) (hPQ : ∀ x, Q x → P x) : Grown Q s s' i :=
  ⟨h.sb, h.cache, h.self, h.ino, h.super, h.sub, fun x k hx ↦ h.keep x k (hPQ x hx)⟩

theorem inum_eq (h : Grown P s s' i) : (s'.icache i).inum = (s.icache i).inum := by
  obtain ⟨a, ha⟩ := h.self
  rw [ha]
  rfl

end Grown

/-! ### Writes to data blocks -/

section DataBlock

variable {s : State} {k n : ℕ} {x : Block}

theorem State.ino_logWrite (hg : Geometry s.sb) (hk : datastart s.sb ≤ k)
    (hn : n < s.sb.ninodes.toNat) : (s.logWrite k x).ino n = s.ino n := by
  have hlt := hg.iblock_lt hn
  have hdata := bmapstart_lt_datastart s.sb
  have hne : iblock s.sb n ≠ k := by omega
  exact inodeAt_update_of_ne hne

theorem State.used_logWrite (hk : datastart s.sb ≤ k) (hn : n < s.sb.size.toNat) :
    used s.sb (s.logWrite k x).disk n = used s.sb s.disk n :=
  used_update_of_ne (Nat.ne_of_lt ((bblock_lt hn).trans_le hk))

theorem State.super_logWrite (hg : Geometry s.sb) (hk : datastart s.sb ≤ k) :
    (s.logWrite k x).disk 1 = s.disk 1 := by
  have hlt := hg.one_lt_bmapstart
  have hdata := bmapstart_lt_datastart s.sb
  exact update_of_ne (Nat.ne_of_lt (by omega)) ..

end DataBlock

section Bmap

variable {s s₁ s' : State} {i : Fin ninode} {b k n : ℕ} {a : UInt32} {j : Fin 13} {e : Fin 128}

theorem State.view_self (s : State) (i : Fin ninode) :
    s.view i (s.icache i).inum = (s.icache i).din :=
  update_self ..

theorem Open.assign {p : Pos} {din : Dinode} (h : Open s i) (hb : Alloc s b s₁)
    (hsb : s'.sb = s.sb) (hcache : s'.icache = update s.icache i ((s.icache i).withDin din))
    (htype : din.type = (s.icache i).din.type)
    (hino : ∀ n < s.sb.ninodes.toNat, s'.ino n = s.ino n)
    (hself : addr s'.disk din = update (addr s.disk (s.icache i).din) p (.ofNat b))
    (hother : ∀ n, n ≠ (s.icache i).inum → (s.view i n).type ≠ 0 → n < s.sb.ninodes.toNat →
      addr s'.disk (s.view i n) = addr s.disk (s.view i n))
    (hused : ∀ c < s.sb.size.toNat, used s'.sb s'.disk c = used s₁.sb s₁.disk c) :
    Open s' i ∧ own s'.sb s'.disk (s'.view i) =
      update (own s.sb s.disk (s.view i)) ((s.icache i).inum, p) (some b) := by
  have hinum : (s'.icache i).inum = (s.icache i).inum := by rw [hcache, update_self]; rfl
  have hdin : (s'.icache i).din = din := by rw [hcache, update_self]; rfl
  have hview (n : ℕ) (hn : n < s.sb.ninodes.toNat) :
      s'.view i n = update (s.view i) (s.icache i).inum din n := by
    rw [State.view, State.view, hinum, hdin]
    obtain rfl | hne := eq_or_ne n (s.icache i).inum
    · rw [update_self, update_self]
    · rw [update_of_ne hne, update_of_ne hne, update_of_ne hne, hino n hn]
  have htype' : din.type ≠ 0 := by
    rw [htype]
    exact h.type
  have hown : own s'.sb s'.disk (s'.view i) =
      update (own s.sb s.disk (s.view i)) ((s.icache i).inum, p) (some b) := by
    rw [hsb, ← hb.toNat]
    refine own_update h.inum ?_ ?_ hb.ofNat_ne_zero ?_
      fun n hne hn ↦ ⟨?_, fun ht ↦ hother n hne ht hn⟩
    · rw [s.view_self]
      exact h.type
    · rwa [hview _ h.inum, update_self]
    · rw [hview _ h.inum, update_self, s.view_self, hself]
    · rw [hview n hn, update_of_ne hne]
  have hmarked : Marked s'.sb s'.disk = insert b (Marked s.sb s.disk) := by
    rw [← hb.marked]
    ext c
    simp only [Marked, Set.mem_ofPred_eq, hsb, hb.sb]
    refine and_congr_left fun hc ↦ ?_
    rw [← hsb, hused c hc.2, hb.sb, hsb]
  refine ⟨⟨by rw [hsb]; exact h.geometry, ?_, ?_, ?_, ?_, ?_⟩, hown⟩
  · rw [hinum, hsb]
    exact h.inum
  · rwa [hdin]
  · rw [hinum, hino _ h.inum]
    exact h.disk
  · intro c hc
    rw [hused c ?_]
    · exact hb.metadata h.geometry h.owned.metadata c (by rwa [hb.sb, ← hsb])
    · rw [hsb] at hc
      exact hc.trans_le h.geometry.data
  · rw [hmarked, hown]
    exact h.owned.exclusive.assign hb.notMem

theorem Open.direct (h : Open s i) (hs : s.direct i j = some (a, s')) :
    Open s' i ∧ Grown (fun _ ↦ True) s s' i ∧ a ≠ 0 ∧
      addr s'.disk (s'.icache i).din = update (addr s.disk (s.icache i).din) (.direct j) a := by
  rw [State.direct] at hs
  split_ifs at hs with h0
  · obtain ⟨⟨b, s₁⟩, hb, heq⟩ := Option.map_eq_some_iff.mp hs
    obtain ⟨rfl, rfl⟩ := Prod.mk.inj heq
    have hb := Alloc.of_balloc h.owned.metadata hb
    have hcache : (s₁.setAddr i j (.ofNat b)).icache = update s.icache i ((s.icache i).withDin
        ((s.icache i).din.withAddrs (update (s.icache i).din.addrs j (.ofNat b)))) := by
      simp only [State.setAddr, State.setDin, State.setCache, hb.icache]
    have hold := hb.addr_eq h.owned h.inum (by rw [s.view_self]; exact h.type)
    rw [s.view_self] at hold
    have hself : addr s₁.disk
        ((s.icache i).din.withAddrs (update (s.icache i).din.addrs j (.ofNat b))) =
          update (addr s.disk (s.icache i).din) (.direct j) (.ofNat b) := by
      rw [← hold]
      refine addr_direct fun hj ↦ ⟨hj ▸ h0, ?_⟩
      rw [hb.toNat, hb.zero]
    have hsb : (s₁.setAddr i j (.ofNat b)).sb = s.sb := hb.sb
    have hino (n : ℕ) (hn : n < s.sb.ninodes.toNat) :
        (s₁.setAddr i j (.ofNat b)).ino n = s.ino n := hb.ino_eq h.geometry hn
    obtain ⟨hopen, hown⟩ := h.assign hb hsb hcache rfl hino hself
      (fun n _ ht hn ↦ hb.addr_eq h.owned hn ht) fun _ _ ↦ rfl
    refine ⟨hopen, ⟨hsb, fun j hj ↦ ?_, ⟨update (s.icache i).din.addrs j (.ofNat b), ?_⟩, hino,
      hb.super_eq h.geometry, fun x k hx ↦ ?_, fun x k _ hx ↦ ?_⟩, hb.ofNat_ne_zero, ?_⟩
    · rw [hcache, update_of_ne hj]
    · rw [hcache, update_self]
    · rw [hown, update_of_ne ?_, hx]
      rintro rfl
      rw [own_eq_some, s.view_self] at hx
      exact hx.2.2.1 h0
    · exact hb.disk_eq (h.owned.exclusive.mem hx)
    · rw [hcache, update_self]
      exact hself
  · obtain ⟨rfl, rfl⟩ := Prod.mk.inj (Option.some.inj hs)
    exact ⟨h, .refl, h0, (update_eq_self (Pos.direct j) _).symm⟩

theorem Open.last_mem (h : Open s i) (h0 : (s.icache i).din.addrs last ≠ 0) :
    own s.sb s.disk (s.view i) ((s.icache i).inum, .direct last) =
      some ((s.icache i).din.addrs last).toNat := by
  rw [own_eq_some, s.view_self]
  exact ⟨h.inum, h.type, h0, rfl⟩

theorem Open.entry (h : Open s i) (h0 : (s.icache i).din.addrs last ≠ 0)
    (hs : s.entry ((s.icache i).din.addrs last) e = some (a, s')) :
    Open s' i ∧ Grown (· ≠ ((s.icache i).inum, .direct last)) s s' i ∧ a ≠ 0 ∧
      addr s'.disk (s'.icache i).din = update (addr s.disk (s.icache i).din) (.entry e) a := by
  have haddr : addr s.disk (s.icache i).din (.entry e) =
      Block.word (s.disk ((s.icache i).din.addrs last).toNat) e := if_neg h0
  rw [State.entry, ← haddr] at hs
  split_ifs at hs with hzero
  · obtain ⟨⟨b, s₁⟩, hb, heq⟩ := Option.map_eq_some_iff.mp hs
    obtain ⟨rfl, rfl⟩ := Prod.mk.inj heq
    have hb := Alloc.of_balloc h.owned.metadata hb
    have hlast := h.last_mem h0
    have hmark := h.owned.exclusive.mem hlast
    set c := ((s.icache i).din.addrs last).toNat with hc
    set t := s₁.logWrite c (Block.setWord (s₁.disk c) e (.ofNat b)) with ht
    have hcache : t.icache = s.icache := hb.icache
    have hsb : t.sb = s.sb := hb.sb
    have hdisk (k : ℕ) (hk : k ≠ c) : t.disk k = s₁.disk k := update_of_ne hk ..
    have hle : datastart s₁.sb ≤ c := hb.sb ▸ hmark.2.1
    have hino (n : ℕ) (hn : n < s.sb.ninodes.toNat) : t.ino n = s.ino n := by
      rw [← hb.ino_eq h.geometry hn]
      exact State.ino_logWrite (by rw [hb.sb]; exact h.geometry) hle (by rwa [hb.sb])
    have hself : addr t.disk (s.icache i).din =
        update (addr s.disk (s.icache i).din) (.entry e) (.ofNat b) := by
      have hold := hb.addr_eq h.owned h.inum (by rw [s.view_self]; exact h.type)
      rw [s.view_self] at hold
      rw [← hold]
      exact addr_entry h0
    have hother (n : ℕ) (hne : n ≠ (s.icache i).inum) (htype : (s.view i n).type ≠ 0)
        (hn : n < s.sb.ninodes.toNat) : addr t.disk (s.view i n) = addr s.disk (s.view i n) := by
      rw [← hb.addr_eq h.owned hn htype]
      refine addr_congr fun hl ↦ hdisk _ fun heq ↦ hne ?_
      have hown : own s.sb s.disk (s.view i) (n, .direct last) = some c :=
        own_eq_some.mpr ⟨hn, htype, hl, heq⟩
      exact (Prod.mk.inj (h.owned.exclusive.inj hown hlast)).1
    have hused (k : ℕ) (hk : k < s.sb.size.toNat) : used t.sb t.disk k = used s₁.sb s₁.disk k :=
      State.used_logWrite hle (by rwa [hb.sb])
    obtain ⟨hopen, hown⟩ := h.assign hb hsb (by rw [hcache]; exact (update_eq_self i _).symm) rfl
      hino hself hother hused
    refine ⟨hopen, ⟨hsb, fun j _ ↦ by rw [hcache], ⟨(s.icache i).din.addrs, by rw [hcache]; rfl⟩,
      hino, ?_, fun x k hx ↦ ?_, fun x k hP hx ↦ ?_⟩, hb.ofNat_ne_zero, by rw [hcache]; exact hself⟩
    · rw [← hb.super_eq h.geometry]
      exact State.super_logWrite (by rw [hb.sb]; exact h.geometry) hle
    · rw [hown, update_of_ne ?_, hx]
      rintro rfl
      rw [own_eq_some, s.view_self] at hx
      exact hx.2.2.1 hzero
    · rw [hdisk k ?_, hb.disk_eq (h.owned.exclusive.mem hx)]
      rintro rfl
      exact hP (h.owned.exclusive.inj hx hlast)
  · obtain ⟨rfl, rfl⟩ := Prod.mk.inj (Option.some.inj hs)
    exact ⟨h, .refl, hzero, (update_eq_self (Pos.entry e) _).symm⟩

theorem State.direct_of_ne (h0 : (s.icache i).din.addrs j ≠ 0) :
    s.direct i j = some ((s.icache i).din.addrs j, s) := if_neg h0

theorem State.bmap_of_filled (hf : Filled (addr s.disk (s.icache i).din) n) (hk : k < n) :
    s.bmap i k = some (addr s.disk (s.icache i).din (pos k), s) := by
  have hmax : k < maxfile := hk.trans_le hf.le
  have hne := (hf.block k hmax).mpr hk
  rw [State.bmap]
  split_ifs with hlt hlt'
  · rw [pos_of_lt hlt] at hne ⊢
    exact State.direct_of_ne hne
  · have hle : ndirect ≤ k := not_lt.mp hlt
    have hlast : (s.icache i).din.addrs last ≠ 0 := hf.indirect.mpr (by omega)
    rw [pos_of_le hle hmax] at hne ⊢
    rw [State.direct_of_ne hlast]
    simp only [addr, if_neg hlast] at hne ⊢
    exact if_neg hne
  · rw [maxfile] at hmax
    omega

theorem Open.bmap (h : Open s i) (hf : Filled (addr s.disk (s.icache i).din) n) (hk : k ≤ n)
    (hs : s.bmap i k = some (a, s')) :
    Open s' i ∧ Grown (· ≠ ((s.icache i).inum, .direct last)) s s' i ∧ a ≠ 0 ∧ k < maxfile ∧
      addr s'.disk (s'.icache i).din (pos k) = a ∧
      Filled (addr s'.disk (s'.icache i).din) (max n (k + 1)) := by
  obtain hkn | rfl := hk.lt_or_eq
  · rw [State.bmap_of_filled hf hkn] at hs
    obtain ⟨rfl, rfl⟩ := Prod.mk.inj (Option.some.inj hs)
    have hmax : k < maxfile := hkn.trans_le hf.le
    rw [max_eq_left hkn]
    exact ⟨h, .refl, (hf.block k hmax).mpr hkn, hmax, rfl, hf⟩
  · rw [max_eq_right (Nat.le_succ k)]
    rw [State.bmap] at hs
    split_ifs at hs with hlt hlt'
    · have hmax : k < maxfile := hlt.trans (by decide)
      obtain ⟨hopen, hgrown, ha, haddr⟩ := h.direct hs
      rw [← pos_of_lt hlt] at haddr
      refine ⟨hopen, hgrown.mono fun _ _ ↦ trivial, ha, hmax, ?_, ?_⟩
      · rw [haddr, update_self]
      · rw [haddr]
        exact hf.push hmax (by omega) ha
    · have hle : ndirect ≤ k := not_lt.mp hlt
      have hmax : k < maxfile := by
        rw [maxfile]
        omega
      obtain ⟨⟨c, s₁⟩, hs₁, hs⟩ := Option.bind_eq_some_iff.mp hs
      obtain ⟨hopen, hgrown, hc, haddr⟩ := h.direct hs₁
      have hlast : c = (s₁.icache i).din.addrs last := by
        have heq := congrFun haddr (.direct last)
        rw [update_self] at heq
        exact heq.symm
      have hs : s₁.entry ((s₁.icache i).din.addrs last) ⟨k - ndirect, hlt'⟩ = some (a, s') :=
        hlast ▸ hs
      obtain ⟨hopen', hgrown', ha, haddr'⟩ := hopen.entry (hlast ▸ hc) hs
      rw [hgrown.inum_eq] at hgrown'
      rw [← pos_of_le hle hmax] at haddr'
      refine ⟨hopen', (hgrown.mono fun _ _ ↦ trivial).trans hgrown', ha, hmax, ?_, ?_⟩
      · rw [haddr', update_self]
      · rw [haddr']
        obtain hn | rfl := hle.lt_or_eq
        · -- the indirect block is there
          rw [State.direct_of_ne (hf.indirect.mpr hn)] at hs₁
          obtain ⟨rfl, rfl⟩ := Prod.mk.inj (Option.some.inj hs₁)
          exact hf.push hmax (by omega) ha
        · rw [haddr]
          exact hf.push_indirect ha hc

end Bmap

end SistemasOperacionais.Xv6.Fs
