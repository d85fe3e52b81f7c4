import SistemasOperacionais.Xv6.Fs.Contents

/-!
# Block ownership

Between two calls of the file system the inodes in the cache agree with the disk, the metadata is
marked in use, no block has two owners, and a file has just the blocks that its size needs.
-/

namespace SistemasOperacionais.Xv6.Fs

open Foundations Function

/-- The kernel relies on the super block in memory, on the directories and on the cache. -/
structure Consistent (s : State) : Prop where
  geometry : Geometry s.sb
  super : readsb s.disk = s.sb
  types : ∀ n < s.sb.ninodes.toNat, (s.ino n).type = 0 ∨ (s.ino n).type = tDir ∨
    (s.ino n).type = tFile ∨ (s.ino n).type = tDev
  /-- Directories name inodes. -/
  entries : ∀ n < s.sb.ninodes.toNat, (s.ino n).type = tDir →
    ∀ off < (s.ino n).size.toNat, off % 16 = 0 →
      (direntAt s.disk (addr s.disk (s.ino n)) off).inum.toNat < s.sb.ninodes.toNat
  inum : ∀ i, 0 < (s.icache i).ref → (s.icache i).inum < s.sb.ninodes.toNat
  distinct : ∀ i j, 0 < (s.icache i).ref → 0 < (s.icache j).ref →
    (s.icache i).inum = (s.icache j).inum → i = j
  copy : ∀ i, 0 < (s.icache i).ref → (s.icache i).valid = true →
    (s.icache i).din = s.ino (s.icache i).inum ∧ (s.icache i).din.type ≠ 0

/-- What the file system keeps between its calls. -/
structure Inv (s : State) : Prop extends Consistent s where
  owned : Owned s.sb s.disk s.ino
  filled : ∀ n < s.sb.ninodes.toNat, (s.ino n).type = tDir ∨ (s.ino n).type = tFile →
    Filled (addr s.disk (s.ino n)) (blocks (s.ino n).size.toNat)

/-- Inode `m` is replaced by `d`; the files of the others are as they were. -/
structure Replaced (s t : State) (m : ℕ) (d : Dinode) : Prop where
  sb : t.sb = s.sb
  cache : ∀ j, 0 < (t.icache j).ref →
    0 < (s.icache j).ref ∧ (t.icache j).inum = (s.icache j).inum
  self : ∀ j, 0 < (t.icache j).ref → (t.icache j).valid = true → (t.icache j).inum = m →
    (t.icache j).din = d ∧ d.type ≠ 0
  other : ∀ j, 0 < (t.icache j).ref → (t.icache j).valid = true → (t.icache j).inum ≠ m →
    (s.icache j).valid = true ∧ (t.icache j).din = (s.icache j).din
  ino : ∀ n < s.sb.ninodes.toNat, t.ino n = update s.ino m d n
  super : t.disk 1 = s.disk 1
  addr : ∀ n < s.sb.ninodes.toNat, n ≠ m → (s.ino n).type ≠ 0 →
    addr t.disk (s.ino n) = addr s.disk (s.ino n)
  keep : ∀ n < s.sb.ninodes.toNat, n ≠ m → (s.ino n).type ≠ 0 →
    ∀ p, Fs.addr s.disk (s.ino n) p ≠ 0 →
      t.disk (Fs.addr s.disk (s.ino n) p).toNat = s.disk (Fs.addr s.disk (s.ino n) p).toNat

section Replace

variable {s t : State} {i : Fin ninode} {d : Dinode} {m n off : ℕ}

theorem div_entry (hoff : off % 16 = 0) {x : ℕ} (hx : x < 16) :
    (off + x) / bsize = off / bsize := by
  rw [bsize]
  omega

theorem direntAt_congr {d d' : Disk} {f : Pos → UInt32} (hoff : off % 16 = 0)
    (h : d' (f (pos (off / bsize))).toNat = d (f (pos (off / bsize))).toNat) :
    direntAt d' f off = direntAt d f off := by
  rw [direntAt, direntAt]
  congr 1
  refine List.map_congr_left fun x hx ↦ ?_
  rw [byteAt, byteAt, div_entry hoff (List.mem_range.mp hx), h]

theorem ne_zero_of_type (h : d.type = tDir ∨ d.type = tFile) : d.type ≠ 0 := by
  rcases h with h | h
  · rw [h]
    decide
  · rw [h]
    decide

theorem Inv.replaced (h : Inv s) (hr : Replaced s t m d) (ho : Owned t.sb t.disk t.ino)
    (htype : d.type = 0 ∨ d.type = tDir ∨ d.type = tFile ∨ d.type = tDev)
    (hfilled : d.type = tDir ∨ d.type = tFile → Filled (addr t.disk d) (blocks d.size.toNat))
    (hentries : d.type = tDir → ∀ off < d.size.toNat, off % 16 = 0 →
      (direntAt t.disk (addr t.disk d) off).inum.toNat < s.sb.ninodes.toNat) : Inv t := by
  have hself (hm : m < s.sb.ninodes.toNat) : t.ino m = d := by rw [hr.ino m hm, update_self]
  have hother {n : ℕ} (hn : n < s.sb.ninodes.toNat) (hne : n ≠ m) : t.ino n = s.ino n := by
    rw [hr.ino n hn, update_of_ne hne]
  refine ⟨⟨by rw [hr.sb]; exact h.geometry, ?_, ?_, ?_, ?_, ?_, ?_⟩, ho, ?_⟩
  · have hread : readsb t.disk = readsb s.disk := by rw [readsb, readsb, hr.super]
    rw [hread, hr.sb, h.super]
  · rw [hr.sb]
    intro n hn
    obtain rfl | hne := eq_or_ne n m
    · rwa [hself hn]
    · rw [hother hn hne]
      exact h.types n hn
  · rw [hr.sb]
    intro n hn ht off hoff hmod
    obtain rfl | hne := eq_or_ne n m
    · rw [hself hn] at ht hoff ⊢
      exact hentries ht off hoff hmod
    · rw [hother hn hne] at ht hoff ⊢
      have h0 := ne_zero_of_type (Or.inl ht)
      have hf := h.filled n hn (Or.inl ht)
      have hlt : off / bsize < blocks (s.ino n).size.toNat := lt_blocks hoff
      have hp := (hf.block _ (hlt.trans_le hf.le)).mpr hlt
      rw [hr.addr n hn hne h0, direntAt_congr hmod (hr.keep n hn hne h0 _ hp)]
      exact h.entries n hn ht off hoff hmod
  · intro j hj
    rw [hr.sb, (hr.cache j hj).2]
    exact h.inum j (hr.cache j hj).1
  · intro j k hj hk heq
    rw [(hr.cache j hj).2, (hr.cache k hk).2] at heq
    exact h.distinct j k (hr.cache j hj).1 (hr.cache k hk).1 heq
  · intro j hj hv
    obtain ⟨hj', hinum⟩ := hr.cache j hj
    have hlt := h.inum j hj'
    rw [← hinum] at hlt
    obtain rfl | hne := eq_or_ne (t.icache j).inum m
    · obtain ⟨hdin, h0⟩ := hr.self j hj hv rfl
      rw [hself hlt, hdin]
      exact ⟨rfl, h0⟩
    · obtain ⟨hv', hdin⟩ := hr.other j hj hv hne
      rw [hother hlt hne, hdin, hinum]
      exact h.copy j hj' hv'
  · rw [hr.sb]
    intro n hn ht
    obtain rfl | hne := eq_or_ne n m
    · rw [hself hn] at ht ⊢
      exact hfilled ht
    · rw [hother hn hne] at ht ⊢
      rw [hr.addr n hn hne (ne_zero_of_type ht)]
      exact h.filled n hn ht

theorem Inv.cache_of_update (h : Inv s) (href : 0 < (s.icache i).ref)
    (hc : ∀ j, j ≠ i → t.icache j = s.icache j) (hinum : (t.icache i).inum = (s.icache i).inum)
    (hself : 0 < (t.icache i).ref → (t.icache i).valid = true →
      (t.icache i).din = d ∧ d.type ≠ 0) :
    (∀ j, 0 < (t.icache j).ref → 0 < (s.icache j).ref ∧ (t.icache j).inum = (s.icache j).inum) ∧
    (∀ j, 0 < (t.icache j).ref → (t.icache j).valid = true →
      (t.icache j).inum = (s.icache i).inum → (t.icache j).din = d ∧ d.type ≠ 0) ∧
    ∀ j, 0 < (t.icache j).ref → (t.icache j).valid = true →
      (t.icache j).inum ≠ (s.icache i).inum →
        (s.icache j).valid = true ∧ (t.icache j).din = (s.icache j).din := by
  refine ⟨fun j hj ↦ ?_, fun j hj hv heq ↦ ?_, fun j hj hv hne ↦ ?_⟩
  · obtain rfl | hne := eq_or_ne j i
    · exact ⟨href, hinum⟩
    · rw [hc j hne] at hj ⊢
      exact ⟨hj, rfl⟩
  · obtain rfl | hne := eq_or_ne j i
    · exact hself hj hv
    · rw [hc j hne] at hj heq
      exact absurd (h.distinct j i hj href heq) hne
  · obtain rfl | hji := eq_or_ne j i
    · exact absurd hinum hne
    · rw [hc j hji] at hv ⊢
      exact ⟨hv, rfl⟩

end Replace

/-! ## Inodes that are written back -/

section Update

variable {s s₁ t : State} {i : Fin ninode} {x : Dinode} {m n k : ℕ}

theorem Geometry.ne_iblock {sb : Superblock} (hg : Geometry sb) (hn : n < sb.ninodes.toNat)
    (hk : k = 1 ∨ sb.bmapstart.toNat ≤ k) : k ≠ iblock sb n := by
  have hlt := hg.iblock_lt hn
  have hone := hg.one_lt_iblock (i := n)
  omega

/-- Inode `n` is written to the disk as `x`. -/
structure Wrote (s t : State) (n : ℕ) (x : Dinode) : Prop where
  sb : t.sb = s.sb
  ino : t.ino = update s.ino n x
  disk : ∀ k, k = 1 ∨ s.sb.bmapstart.toNat ≤ k → t.disk k = s.disk k

/-- Inode `i` of the cache is written back as `x`. -/
structure Back (s t : State) (i : Fin ninode) (x : Dinode) : Prop
    extends Wrote s t (s.icache i).inum x where
  icache : t.icache = update s.icache i ((s.icache i).withDin x)

theorem Wrote.of_setInode (hg : Geometry s.sb) (hn : n < s.sb.ninodes.toNat) :
    Wrote s (s.setInode n x) n x :=
  ⟨rfl, inodeAt_set, fun _ hk ↦ update_of_ne (hg.ne_iblock hn hk) ..⟩

theorem Back.of_iupdate (hg : Geometry s.sb) (hn : (s.icache i).inum < s.sb.ninodes.toNat) :
    Back s ((s.setDin i x).iupdate i) i x := by
  have heq : (s.setDin i x).iupdate i = (s.setInode (s.icache i).inum x).setDin i x := by
    simp only [State.iupdate, State.setDin, State.setCache, State.setInode, State.logWrite,
      update_self, Inode.withDin]
  rw [heq]
  obtain ⟨hsb, hino, hdisk⟩ := Wrote.of_setInode (x := x) hg hn
  exact ⟨⟨hsb, hino, hdisk⟩, rfl⟩

theorem Back.refl (hino : s.ino (s.icache i).inum = (s.icache i).din) :
    Back s s i (s.icache i).din :=
  ⟨⟨rfl, by rw [← hino, update_eq_self], fun _ _ ↦ rfl⟩, (update_eq_self i _).symm⟩

namespace Wrote

variable {ino : ℕ → Dinode} (hw : Wrote s t m x)

include hw

theorem disk_of_mem (hk : k ∈ Marked s.sb s.disk) : t.disk k = s.disk k :=
  hw.disk k (Or.inr ((bmapstart_lt_datastart s.sb).le.trans hk.2.1))

theorem addr_eq (ho : Owned s.sb s.disk ino) (hn : n < s.sb.ninodes.toNat)
    (ht : (ino n).type ≠ 0) : addr t.disk (ino n) = addr s.disk (ino n) :=
  addr_congr fun h0 ↦ hw.disk_of_mem
    (ho.exclusive.mem (k := (n, .direct last)) (own_eq_some.mpr ⟨hn, ht, h0, rfl⟩))

theorem owned (ho : Owned s.sb s.disk t.ino) : Owned t.sb t.disk t.ino := by
  have hused (b : ℕ) : used s.sb t.disk b = used s.sb s.disk b := by
    rw [used, used, hw.disk _ (Or.inr (le_bblock ..))]
  rw [hw.sb]
  refine ⟨fun b hlt ↦ (hused b).trans (ho.metadata b hlt), ?_⟩
  rw [own_congr fun m hm ↦ ⟨rfl, hw.addr_eq ho hm⟩, marked_congr fun b _ ↦ hused b]
  exact ho.exclusive

end Wrote

theorem addr_of_addrs {d : Disk} {a : Dinode} (h : x.addrs = a.addrs) : addr d x = addr d a := by
  funext p
  cases p with
  | direct j => exact congrFun h j
  | entry e => rw [addr, addr, h]

theorem Open.back (h : Open s i) (hb : Back s t i x) (htype : x.type = (s.icache i).din.type)
    (haddrs : x.addrs = (s.icache i).din.addrs) :
    Owned s.sb s.disk t.ino ∧ t.ino (s.icache i).inum = x ∧
      addr t.disk x = addr s.disk (s.icache i).din := by
  have hview : t.ino = update (s.view i) (s.icache i).inum x := by
    rw [hb.ino, State.view, update_idem]
  have hself : t.ino (s.icache i).inum = x := by rw [hview, update_self]
  have haddr : addr s.disk x = addr s.disk (s.icache i).din := addr_of_addrs haddrs
  have hown : own s.sb s.disk t.ino = own s.sb s.disk (s.view i) := by
    refine own_congr fun n _ ↦ ?_
    obtain rfl | hne := eq_or_ne n (s.icache i).inum
    · rw [hself, s.view_self]
      exact ⟨htype, fun _ ↦ haddr⟩
    · rw [hview, update_of_ne hne]
      exact ⟨rfl, fun _ ↦ rfl⟩
  have ho : Owned s.sb s.disk t.ino := ⟨h.owned.metadata, hown ▸ h.owned.exclusive⟩
  refine ⟨ho, hself, ?_⟩
  have heq := hb.addr_eq ho h.inum (by rw [hself, htype]; exact h.type)
  rwa [hself, haddr] at heq

theorem Open.of_back (h : Open s i) (hb : Back s t i x) (htype : x.type = (s.icache i).din.type)
    (haddrs : x.addrs = (s.icache i).din.addrs) : Open t i := by
  obtain ⟨ho, hself, -⟩ := h.back hb htype haddrs
  have hti : t.icache i = (s.icache i).withDin x := by rw [hb.icache, update_self]
  have hinum : (t.icache i).inum = (s.icache i).inum := by rw [hti]; rfl
  have hdin : (t.icache i).din = x := by rw [hti]; rfl
  have hx : x.type ≠ 0 := by
    rw [htype]
    exact h.type
  have hview : t.view i = t.ino := by rw [State.view, hinum, hdin, ← hself, update_eq_self]
  refine ⟨by rw [hb.sb]; exact h.geometry, by rw [hb.sb, hinum]; exact h.inum, by rwa [hdin],
    by rwa [hinum, hself], ?_⟩
  rw [hview]
  exact hb.owned ho

section Valid

variable (h : Inv s) (href : 0 < (s.icache i).ref) (hv : (s.icache i).valid = true)
include h href hv

theorem Inv.view_eq : s.view i = s.ino := by
  rw [State.view, (h.copy i href hv).1, update_eq_self]

theorem Inv.open : Open s i := by
  obtain ⟨hdin, h0⟩ := h.copy i href hv
  refine ⟨h.geometry, h.inum i href, h0, hdin ▸ h0, ?_⟩
  rw [h.view_eq href hv]
  exact h.owned

theorem Inv.filled_of_valid (ht : (s.icache i).din.type = tDir ∨ (s.icache i).din.type = tFile) :
    Filled (addr s.disk (s.icache i).din) (blocks (s.icache i).din.size.toNat) := by
  have hlt := h.inum i href
  rw [(h.copy i href hv).1] at ht ⊢
  exact h.filled _ hlt ht

theorem Inv.type_of_valid (hdev : (s.icache i).din.type ≠ tDev) :
    (s.icache i).din.type = tDir ∨ (s.icache i).din.type = tFile := by
  obtain ⟨hdin, h0⟩ := h.copy i href hv
  have htypes := h.types _ (h.inum i href)
  rw [← hdin] at htypes
  tauto

theorem Inv.replaced_of_grown (hg : Grown (·.1 ≠ (s.icache i).inum) s s₁ i)
    (hb : Back s₁ t i x) (hx : x.type ≠ 0) : Replaced s t (s.icache i).inum x := by
  have hinum : (s₁.icache i).inum = (s.icache i).inum := hg.inum_eq
  have hti : t.icache i = (s₁.icache i).withDin x := by rw [hb.icache, update_self]
  have htj (j : Fin ninode) (hj : j ≠ i) : t.icache j = s.icache j := by
    rw [hb.icache, update_of_ne hj, hg.cache j hj]
  have hown (n : ℕ) (p : Pos) (hn : n < s.sb.ninodes.toNat) (htype : (s.ino n).type ≠ 0)
      (hp : addr s.disk (s.ino n) p ≠ 0) (hne : n ≠ (s.icache i).inum) :
      t.disk (addr s.disk (s.ino n) p).toNat = s.disk (addr s.disk (s.ino n) p).toNat := by
    have hsome : own s.sb s.disk s.ino (n, p) = some (addr s.disk (s.ino n) p).toNat :=
      own_eq_some.mpr ⟨hn, htype, hp, rfl⟩
    have hmark := h.owned.exclusive.mem hsome
    rw [hb.disk _ (Or.inr (hg.sb ▸ (bmapstart_lt_datastart s.sb).le.trans hmark.2.1))]
    exact hg.keep (n, p) _ hne (by rwa [h.view_eq href hv])
  obtain ⟨hcache, hself, hother⟩ := h.cache_of_update (d := x) href htj
    (by rw [hti]; exact hinum) fun _ _ ↦ ⟨by rw [hti]; rfl, hx⟩
  refine ⟨hb.sb.trans hg.sb, hcache, hself, hother, fun n hn ↦ ?_,
    (hb.disk 1 (Or.inl rfl)).trans hg.super,
    fun n hn hne htype ↦ addr_congr fun h0 ↦ hown n (.direct last) hn htype h0 hne,
    fun n hn hne htype p hp ↦ hown n p hn htype hp hne⟩
  rw [hb.ino, hinum]
  obtain rfl | hne := eq_or_ne n (s.icache i).inum
  · rw [update_self, update_self]
  · rw [update_of_ne hne, update_of_ne hne, hg.ino n hn]

theorem Inv.grow (hopen : Open s₁ i) (hg : Grown (·.1 ≠ (s.icache i).inum) s s₁ i)
    (hb : Back s₁ t i x)
    (htype : x.type = (s₁.icache i).din.type) (haddrs : x.addrs = (s₁.icache i).din.addrs)
    (hfilled : x.type = tDir ∨ x.type = tFile →
      Filled (addr s₁.disk (s₁.icache i).din) (blocks x.size.toNat))
    (hentries : x.type = tDir → ∀ off < x.size.toNat, off % 16 = 0 →
      (direntAt s₁.disk (addr s₁.disk (s₁.icache i).din) off).inum.toNat < s.sb.ninodes.toNat) :
    Inv t := by
  have hx : x.type ≠ 0 := by
    rw [htype]
    exact hopen.type
  obtain ⟨ho, -, haddr'⟩ := hopen.back hb htype haddrs
  have htypes : x.type = 0 ∨ x.type = tDir ∨ x.type = tFile ∨ x.type = tDev := by
    obtain ⟨a, ha⟩ := hg.self
    have hdin : x.type = (s.icache i).din.type := by rw [htype, ha]; rfl
    rw [hdin, (h.copy i href hv).1]
    exact h.types _ (h.inum i href)
  refine h.replaced (h.replaced_of_grown href hv hg hb hx) (hb.owned ho) htypes ?_ ?_
  · rw [haddr']
    exact hfilled
  · intro hdir off hoff hmod
    have hf := hfilled (Or.inl hdir)
    have hlt : off / bsize < blocks x.size.toNat := lt_blocks hoff
    have hp := (hf.block _ (hlt.trans_le hf.le)).mpr hlt
    have hmem := hopen.owned.exclusive.mem (k := ((s₁.icache i).inum, pos (off / bsize)))
      (own_eq_some.mpr (by rw [s₁.view_self]; exact ⟨hopen.inum, hopen.type, hp, rfl⟩))
    rw [haddr', direntAt_congr hmod (hb.disk_of_mem hmem)]
    exact hentries hdir off hoff hmod

end Valid

end Update

/-! ## Calls that keep the references -/

/-- Who had an inode in the cache still has it there. -/
structure Held (s s' : State) : Prop where
  sb : s'.sb = s.sb
  ref : ∀ k, 0 < (s.icache k).ref → (s.icache k).ref ≤ (s'.icache k).ref
  inum : ∀ k, 0 < (s.icache k).ref → (s'.icache k).inum = (s.icache k).inum
  valid : ∀ k, 0 < (s.icache k).ref → (s.icache k).valid = true → (s'.icache k).valid = true
  type : ∀ k, 0 < (s.icache k).ref → (s.icache k).valid = true →
    (s'.icache k).din.type = (s.icache k).din.type

section Calls

variable {s s₁ s' : State} {i : Fin ninode} {x : Dinode} {dev : Devsw} {src : List UInt8}
  {off n : ℕ} {r : Option ℕ} {e : Dirent}

theorem State.setCache_self {y : Inode} : (s.setCache i y).icache i = y := update_self ..

theorem State.setCache_of_ne {y : Inode} {k : Fin ninode} (hk : k ≠ i) :
    (s.setCache i y).icache k = s.icache k := update_of_ne hk ..

namespace Held

theorem refl : Held s s := ⟨rfl, fun _ _ ↦ le_rfl, fun _ _ ↦ rfl, fun _ _ ↦ id, fun _ _ _ ↦ rfl⟩

theorem trans (h : Held s s₁) (h' : Held s₁ s') : Held s s' := by
  have hpos (k : Fin ninode) (hk : 0 < (s.icache k).ref) : 0 < (s₁.icache k).ref :=
    hk.trans_le (h.ref k hk)
  exact ⟨h'.sb.trans h.sb, fun k hk ↦ (h.ref k hk).trans (h'.ref k (hpos k hk)),
    fun k hk ↦ (h'.inum k (hpos k hk)).trans (h.inum k hk),
    fun k hk hv ↦ h'.valid k (hpos k hk) (h.valid k hk hv),
    fun k hk hv ↦ (h'.type k (hpos k hk) (h.valid k hk hv)).trans (h.type k hk hv)⟩

theorem of_update {y : Inode} (hsb : s'.sb = s.sb) (hc : s'.icache = update s.icache i y)
    (hy : 0 < (s.icache i).ref → (s.icache i).ref ≤ y.ref ∧ y.inum = (s.icache i).inum ∧
      ((s.icache i).valid = true → y.valid = true ∧ y.din.type = (s.icache i).din.type)) :
    Held s s' := by
  have hself : s'.icache i = y := by rw [hc, update_self]
  have hother (k : Fin ninode) (hk : k ≠ i) : s'.icache k = s.icache k := by
    rw [hc, update_of_ne hk]
  refine ⟨hsb, fun k hk ↦ ?_, fun k hk ↦ ?_, fun k hk hv ↦ ?_, fun k hk hv ↦ ?_⟩ <;>
    obtain rfl | hne := eq_or_ne k i
  · rw [hself]
    exact (hy hk).1
  · rw [hother k hne]
  · rw [hself]
    exact (hy hk).2.1
  · rw [hother k hne]
  · rw [hself]
    exact ((hy hk).2.2 hv).1
  · rwa [hother k hne]
  · rw [hself]
    exact ((hy hk).2.2 hv).2
  · rw [hother k hne]

theorem of_back (hb : Back s s' i x) (htype : x.type = (s.icache i).din.type) : Held s s' :=
  .of_update hb.sb hb.icache fun _ ↦ ⟨le_rfl, rfl, fun hv ↦ ⟨hv, htype⟩⟩

end Held

theorem Grown.held {P : ℕ × Pos → Prop} (h : Grown P s s' i) : Held s s' := by
  obtain ⟨a, ha⟩ := h.self
  refine .of_update (i := i) (y := s'.icache i) h.sb (funext fun k ↦ ?_) fun _ ↦ ?_
  · obtain rfl | hne := eq_or_ne k i
    · rw [update_self]
    · rw [update_of_ne hne, h.cache k hne]
  · rw [ha]
    exact ⟨le_rfl, rfl, fun hv ↦ ⟨hv, rfl⟩⟩

theorem toDirent_ofDirent (e : Dirent) : State.toDirent (State.ofDirent e) = e := by
  have hget : (fun j : Fin 16 ↦ (State.ofDirent e).getD j 0) = dirent.enc e := by
    funext j
    rw [State.ofDirent, List.getD_eq_getElem _ _ (by rw [List.length_ofFn]; exact j.isLt),
      List.getElem_ofFn]
  rw [State.toDirent, hget, dirent.dec_enc]

@[simp] theorem length_ofDirent (e : Dirent) : (State.ofDirent e).length = 16 := List.length_ofFn

theorem direntAt_write {d d' : Disk} {f f' : Pos → UInt32} {y : ℕ} (hoff : off % 16 = 0)
    (hy : y % 16 = 0) (hn : y ≠ off → y + 16 ≤ n)
    (h : ∀ z, z < n ∨ off ≤ z ∧ z < off + 16 → byteAt d' f' z =
      if off ≤ z ∧ z < off + 16 then (State.ofDirent e).getD (z - off) 0 else byteAt d f z) :
    direntAt d' f' y = if y = off then e else direntAt d f y := by
  split_ifs with heq
  · subst heq
    have hbytes : bytes d' f' y 16 = State.ofDirent e := by
      refine List.ext_getElem (by rw [length_bytes, length_ofDirent]) fun x hx hx' ↦ ?_
      have hlt : x < 16 := length_bytes (m := 16) ▸ hx
      simp only [bytes, List.getElem_map, List.getElem_range]
      rw [h (y + x) (by omega), if_pos (by omega), Nat.add_sub_cancel_left,
        List.getD_eq_getElem _ _ hx']
    rw [direntAt, hbytes, toDirent_ofDirent]
  · have hle := hn heq
    rw [direntAt, direntAt]
    congr 1
    refine List.map_congr_left fun x hx ↦ ?_
    have hlt := List.mem_range.mp hx
    rw [h (y + x) (by omega), if_neg (by omega)]

variable (h : Inv s) (href : 0 < (s.icache i).ref) (hv : (s.icache i).valid = true)
include h href hv

/-- The size is written back if the file has grown. Otherwise the inode is on the disk already. -/
theorem Inv.back_of_extend (hopen : Open s₁ i) (hg : Grown (·.1 ≠ (s.icache i).inum) s s₁ i)
    (hoff : off ≤ (s.icache i).din.size.toNat) (hlt : off + n < 2 ^ 32)
    (hsame : off + n ≤ (s.icache i).din.size.toNat → s₁.icache = s.icache) :
    ∃ x, Back s₁ (s₁.extend i (off + n) n) i x ∧ x.type = (s₁.icache i).din.type ∧
      x.addrs = (s₁.icache i).din.addrs ∧
      x.size.toNat = max (s.icache i).din.size.toNat (off + n) := by
  obtain ⟨a, ha⟩ := hg.self
  have hsize : (s₁.icache i).din.size = (s.icache i).din.size := by rw [ha]; rfl
  rw [State.extend]
  split_ifs with hext
  · rw [hsize] at hext
    refine ⟨_, .of_iupdate hopen.geometry hopen.inum, rfl, rfl, ?_⟩
    rw [max_eq_right hext.2.le]
    exact UInt32.toNat_ofNat_of_lt' hlt
  · have hfit : off + n ≤ (s.icache i).din.size.toNat := by
      rw [hsize] at hext
      omega
    refine ⟨_, .refl ?_, rfl, rfl, by rw [hsize, max_eq_left hfit]⟩
    rw [hsame hfit, hg.ino _ (h.inum i href), (h.copy i href hv).1]

theorem Inv.writei (hdir : (s.icache i).din.type = tDir → off % 16 = 0 ∧
      ∃ e : Dirent, e.inum.toNat < s.sb.ninodes.toNat ∧ src = State.ofDirent e)
    (hs : s.writei dev i src off = some (r, s')) : Inv s' ∧ Held s s' := by
  rw [State.writei] at hs
  split_ifs at hs with hdev hmajor hrange hmax
  · obtain ⟨-, rfl⟩ := Prod.mk.inj (Option.some.inj hs)
    exact ⟨h, .refl⟩
  · obtain ⟨-, rfl⟩ := Prod.mk.inj (Option.some.inj hs)
    exact ⟨h, .refl⟩
  · obtain ⟨-, rfl⟩ := Prod.mk.inj (Option.some.inj hs)
    exact ⟨h, .refl⟩
  · obtain ⟨-, rfl⟩ := Prod.mk.inj (Option.some.inj hs)
    exact ⟨h, .refl⟩
  · obtain ⟨s₁, hloop, heq⟩ := Option.map_eq_some_iff.mp hs
    obtain ⟨-, rfl⟩ := Prod.mk.inj heq
    obtain ⟨hdin, h0⟩ := h.copy i href hv
    have hf := h.filled_of_valid href hv (h.type_of_valid href hv hdev)
    have hle := le_blocks_mul (s.icache i).din.size.toNat
    have hoff : off ≤ (s.icache i).din.size.toNat := by omega
    obtain ⟨hopen, hgrown, hfilled, hbytes, hsame⟩ :=
      (h.open href hv).writeLoop hf (hoff.trans hle) le_rfl hloop
    obtain ⟨a, ha⟩ := hgrown.self
    have htype₁ : (s₁.icache i).din.type = (s.icache i).din.type := by rw [ha]; rfl
    -- the entries below the new end
    have hentries (hd : (s.icache i).din.type = tDir) (y : ℕ)
        (hy : y < max (s.icache i).din.size.toNat (off + src.length)) (hmod : y % 16 = 0) :
        (direntAt s₁.disk (addr s₁.disk (s₁.icache i).din) y).inum.toNat < s.sb.ninodes.toNat := by
      obtain ⟨hoff', e, he, rfl⟩ := hdir hd
      rw [length_ofDirent] at hbytes hy
      have hblocks : y ≠ off → y + 16 ≤ blocks (s.icache i).din.size.toNat * bsize := by
        intro hne
        have hmul : 16 ∣ blocks (s.icache i).din.size.toNat * bsize :=
          Dvd.dvd.mul_left (by decide) _
        omega
      rw [direntAt_write hoff' hmod hblocks hbytes]
      split_ifs with heq
      · exact he
      · rw [hdin]
        exact h.entries _ (h.inum i href) (hdin ▸ hd) y (by rw [← hdin]; omega) hmod
    obtain ⟨x, hb, htype, haddrs, hsize⟩ := h.back_of_extend href hv hopen hgrown hoff (by omega)
      fun hfit ↦ hsame (hfit.trans hle)
    refine ⟨h.grow href hv hopen hgrown hb htype haddrs (fun _ ↦ ?_) fun hd ↦ ?_,
      hgrown.held.trans (.of_back hb htype)⟩
    · rwa [hsize, blocks_max]
    · rw [hsize]
      exact hentries (by rw [← htype₁, ← htype, hd])

/-- An inode is written back with other data than its type, its size and its blocks. -/
theorem Inv.iupdate (htype : x.type = (s.icache i).din.type)
    (hsize : x.size = (s.icache i).din.size) (haddrs : x.addrs = (s.icache i).din.addrs) :
    Inv ((s.setDin i x).iupdate i) ∧ Held s ((s.setDin i x).iupdate i) := by
  have hopen := h.open href hv
  have hb := Back.of_iupdate (x := x) hopen.geometry hopen.inum
  refine ⟨h.grow href hv hopen .refl hb htype haddrs (fun ht ↦ ?_) fun hd ↦ ?_, .of_back hb htype⟩
  · rw [htype] at ht
    rw [hsize]
    exact h.filled_of_valid href hv ht
  · obtain ⟨hdin, -⟩ := h.copy i href hv
    rw [htype, hdin] at hd
    rw [hsize, hdin]
    exact h.entries _ (h.inum i href) hd

end Calls

end SistemasOperacionais.Xv6.Fs
