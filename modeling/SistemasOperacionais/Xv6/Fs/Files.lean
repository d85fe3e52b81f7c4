import SistemasOperacionais.Foundations.Ownership
import SistemasOperacionais.Xv6.Fs.Layout

/-!
# Files on the disk

What the inodes, the indirect blocks and the free map say together, apart from who writes them: the
blocks of a file by their positions, who owns a block, and the regions of the disk. The kernel and
`mkfs` change a file in the same few ways, and each of them changes one position.
-/

namespace SistemasOperacionais.Xv6.Fs

open Foundations Function Codec

/-! ## Regions -/

section Regions

variable (sb : Superblock)

def datastart : ℕ := sb.bmapstart.toNat + (sb.size.toNat / bpb + 1)

/-- The inode blocks come before the free map, and the free map before the data. -/
structure Geometry : Prop where
  super : 1 < sb.inodestart.toNat
  inodes : sb.inodestart.toNat + (sb.ninodes.toNat / ipb + 1) ≤ sb.bmapstart.toNat
  data : datastart sb ≤ sb.size.toNat

variable {sb} {d : Disk} {i j b c k : ℕ} {x : Block}

theorem Geometry.iblock_lt (h : Geometry sb) (hi : i < sb.ninodes.toNat) :
    iblock sb i < sb.bmapstart.toNat := by
  have hdiv : i / ipb ≤ sb.ninodes.toNat / ipb := Nat.div_le_div_right hi.le
  have hfit := h.inodes
  rw [iblock]
  omega

theorem Geometry.one_lt_bmapstart (h : Geometry sb) : 1 < sb.bmapstart.toNat :=
  h.super.trans_le ((Nat.le_add_right ..).trans h.inodes)

theorem bmapstart_lt_datastart (sb : Superblock) : sb.bmapstart.toNat < datastart sb :=
  Nat.lt_add_of_pos_right (Nat.succ_pos _)

theorem Geometry.one_lt_iblock (h : Geometry sb) : 1 < iblock sb i :=
  h.super.trans_le (Nat.le_add_left ..)

theorem le_bblock (sb : Superblock) (b : ℕ) : sb.bmapstart.toNat ≤ bblock sb b := Nat.le_add_left ..

theorem bblock_lt (hb : b < sb.size.toNat) : bblock sb b < datastart sb := by
  have hdiv : b / bpb ≤ sb.size.toNat / bpb := Nat.div_le_div_right hb.le
  rw [bblock, datastart]
  omega

/-! ### Inodes -/

theorem inodeAt_update_of_ne (h : iblock sb i ≠ k) :
    inodeAt sb (update d k x) i = inodeAt sb d i := by
  rw [inodeAt, update_of_ne h, inodeAt]

theorem eq_of_iblock (hb : iblock sb j = iblock sb i) (hs : islot j = islot i) : j = i := by
  have hdiv : j / ipb = i / ipb := Nat.add_right_cancel hb
  have hmod : j % ipb = i % ipb := Fin.mk.inj hs
  rw [← Nat.div_add_mod j ipb, hdiv, hmod, Nat.div_add_mod]

theorem inodeAt_set {y : Dinode} :
    inodeAt sb (update d (iblock sb i) (Block.setInode (d (iblock sb i)) (islot i) y)) =
      update (inodeAt sb d) i y := by
  funext j
  obtain rfl | hne := eq_or_ne j i
  · rw [update_self, inodeAt, update_self, Block.inode_setInode, update_self]
  · rw [update_of_ne hne, inodeAt]
    obtain hb | hb := eq_or_ne (iblock sb j) (iblock sb i)
    · rw [hb, update_self, Block.inode_setInode,
        update_of_ne fun hs ↦ hne (eq_of_iblock hb hs), inodeAt, hb]
    · rw [update_of_ne hb, inodeAt]

/-! ### The free map -/

theorem used_update_of_ne (h : bblock sb b ≠ k) : used sb (update d k x) b = used sb d b := by
  rw [used, update_of_ne h, used]

theorem eq_of_bblock (hb : bblock sb c = bblock sb b) (hs : bslot c = bslot b) : c = b := by
  have hdiv : c / bpb = b / bpb := Nat.add_right_cancel hb
  have hmod : c % bpb = b % bpb := Fin.mk.inj hs
  rw [← Nat.div_add_mod c bpb, hdiv, hmod, Nat.div_add_mod]

theorem used_mark :
    used sb (update d (bblock sb b) (Bitmap.mark (d (bblock sb b)) (bslot b))) c =
      (decide (c = b) || used sb d c) := by
  rw [used]
  obtain hb | hb := eq_or_ne (bblock sb c) (bblock sb b)
  · rw [hb, update_self, Bitmap.test_mark, used, hb]
    congr 1
    exact decide_eq_decide.mpr ⟨fun hs ↦ eq_of_bblock hb hs, fun h ↦ by rw [h]⟩
  · have hne : c ≠ b := fun h ↦ hb (by rw [h])
    rw [update_of_ne hb, used, decide_eq_false hne, Bool.false_or]

theorem used_clear :
    used sb (update d (bblock sb b) (Bitmap.clear (d (bblock sb b)) (bslot b))) c =
      (!decide (c = b) && used sb d c) := by
  rw [used]
  obtain hb | hb := eq_or_ne (bblock sb c) (bblock sb b)
  · rw [hb, update_self, Bitmap.test_clear, used, hb]
    congr 2
    exact decide_eq_decide.mpr ⟨fun hs ↦ eq_of_bblock hb hs, fun h ↦ by rw [h]⟩
  · have hne : c ≠ b := fun h ↦ hb (by rw [h])
    rw [update_of_ne hb, used, decide_eq_false hne, Bool.not_false, Bool.true_and]

end Regions

/-! ## Positions -/

/-- The places where block numbers of a file are stored. -/
inductive Pos
  | direct (j : Fin 13)
  | entry (j : Fin 128)
deriving DecidableEq

/-- The position of the `n`th block of a file. -/
def pos (n : ℕ) : Pos :=
  if h : n < ndirect then .direct (place n h)
  else .entry ⟨(n - ndirect) % nindirect, Nat.mod_lt _ (by decide)⟩

/-- The block numbers that an inode and its indirect block store. -/
def addr (d : Disk) (a : Dinode) : Pos → UInt32
  | .direct j => a.addrs j
  | .entry j => if a.addrs last = 0 then 0 else Block.word (d (a.addrs last).toNat) j

/-- The file has the blocks below `n`, and no others. -/
structure Filled (f : Pos → UInt32) (n : ℕ) : Prop where
  le : n ≤ maxfile
  block : ∀ m < maxfile, f (pos m) ≠ 0 ↔ m < n
  indirect : f (.direct last) ≠ 0 ↔ ndirect < n

section Positions

variable {d d' : Disk} {a : Dinode} {f : Pos → UInt32} {j : Fin 13} {e : Fin 128} {b : UInt32}
  {m n k : ℕ} {x : Block}

theorem pos_of_lt (h : n < ndirect) : pos n = .direct (place n h) := dif_pos h

theorem pos_of_le (h : ndirect ≤ n) (hn : n < maxfile) :
    pos n = .entry ⟨n - ndirect, Nat.sub_lt_left_of_lt_add h hn⟩ := by
  have hmod : (n - ndirect) % nindirect = n - ndirect :=
    Nat.mod_eq_of_lt (Nat.sub_lt_left_of_lt_add h hn)
  rw [pos, dif_neg (not_lt.mpr h)]
  simp only [hmod]

theorem pos_inj (hm : m < maxfile) (hn : n < maxfile) (h : pos m = pos n) : m = n := by
  obtain hm' | hm' := lt_or_ge m ndirect
  · obtain hn' | hn' := lt_or_ge n ndirect
    · rw [pos_of_lt hm', pos_of_lt hn'] at h
      exact Fin.mk.inj (Pos.direct.inj h)
    · rw [pos_of_lt hm', pos_of_le hn' hn] at h
      cases h
  · obtain hn' | hn' := lt_or_ge n ndirect
    · rw [pos_of_le hm' hm, pos_of_lt hn'] at h
      cases h
    · rw [pos_of_le hm' hm, pos_of_le hn' hn] at h
      have heq := Fin.mk.inj (Pos.entry.inj h)
      omega

theorem pos_ne_last (n : ℕ) : pos n ≠ .direct last := by
  rw [pos]
  split_ifs with h
  · intro heq
    have := Fin.mk.inj (Pos.direct.inj heq)
    omega
  · nofun

theorem addr_congr (h : a.addrs last ≠ 0 → d' (a.addrs last).toNat = d (a.addrs last).toNat) :
    addr d' a = addr d a := by
  funext p
  cases p with
  | direct j => rfl
  | entry e =>
    rw [addr, addr]
    split_ifs with h0
    · rfl
    · rw [h h0]

/-- A block number is stored in the inode. The indirect block is empty at first. -/
theorem addr_direct (hlast : j = last → a.addrs last = 0 ∧ d b.toNat = fun _ ↦ 0) :
    addr d (a.withAddrs (update a.addrs j b)) = update (addr d a) (.direct j) b := by
  funext p
  cases p with
  | direct i =>
    obtain rfl | hne := eq_or_ne i j
    · rw [update_self]
      exact update_self ..
    · rw [update_of_ne fun h ↦ hne (Pos.direct.inj h)]
      exact update_of_ne hne ..
  | entry e =>
    have hp : Pos.entry e ≠ .direct j := nofun
    rw [update_of_ne hp, addr, addr]
    obtain rfl | hne := eq_or_ne j last
    · obtain ⟨h0, hd⟩ := hlast rfl
      simp only [Dinode.withAddrs, update_self, h0, if_true, hd, Block.word_zero, ite_self]
    · simp only [Dinode.withAddrs, update_of_ne hne.symm]

theorem addr_entry (h0 : a.addrs last ≠ 0) :
    addr (update d (a.addrs last).toNat (Block.setWord (d (a.addrs last).toNat) e b)) a =
      update (addr d a) (.entry e) b := by
  funext p
  cases p with
  | direct i =>
    have hp : Pos.direct i ≠ .entry e := nofun
    rw [update_of_ne hp, addr, addr]
  | entry i =>
    rw [addr, if_neg h0, update_self, Block.word_setWord]
    obtain rfl | hne := eq_or_ne i e
    · rw [update_self, update_self]
    · rw [update_of_ne hne, update_of_ne fun h ↦ hne (Pos.entry.inj h), addr, if_neg h0]

theorem Filled.push (h : Filled f n) (hn : n < maxfile) (hne : n ≠ ndirect) (hb : b ≠ 0) :
    Filled (update f (pos n) b) (n + 1) := by
  refine ⟨hn, fun m hm ↦ ?_, ?_⟩
  · obtain rfl | hmn := eq_or_ne m n
    · rw [update_self]
      exact ⟨fun _ ↦ Nat.lt_succ_self m, fun _ ↦ hb⟩
    · rw [update_of_ne fun heq ↦ hmn (pos_inj hm hn heq), h.block m hm]
      omega
  · rw [update_of_ne (pos_ne_last n).symm, h.indirect]
    omega

theorem Filled.push_indirect {c : UInt32} (h : Filled f ndirect) (hb : b ≠ 0) (hc : c ≠ 0) :
    Filled (update (update f (.direct last) c) (pos ndirect) b) (ndirect + 1) := by
  refine ⟨by decide, fun m hm ↦ ?_, ?_⟩
  · obtain rfl | hmn := eq_or_ne m ndirect
    · rw [update_self]
      exact ⟨fun _ ↦ Nat.lt_succ_self _, fun _ ↦ hb⟩
    · rw [update_of_ne fun heq ↦ hmn (pos_inj hm (by decide) heq), update_of_ne (pos_ne_last m),
        h.block m hm]
      omega
  · rw [update_of_ne (pos_ne_last _).symm, update_self]
    exact ⟨fun _ ↦ Nat.lt_succ_self _, fun _ ↦ hc⟩

end Positions

/-! ### How many blocks a file takes -/

/-- The blocks of a file of `n` data blocks, with the indirect block. -/
def need (n : ℕ) : ℕ := if ndirect < n then n + 1 else n

theorem need_succ (n : ℕ) : need (n + 1) = need n + if n = ndirect then 2 else 1 := by
  rw [need, need]
  split_ifs <;> omega

theorem need_mono {m n : ℕ} (h : m ≤ n) : need m ≤ need n := by
  rw [need, need]
  split_ifs <;> omega

/-! ## Owners -/

section Owners

variable (sb : Superblock) (d : Disk) (ino : ℕ → Dinode)

/-- The data blocks that are marked in use. -/
def Marked : Set ℕ := { b | used sb d b = true ∧ datastart sb ≤ b ∧ b < sb.size.toNat }

/-- The block that an allocated inode stores at a position. -/
def own (x : ℕ × Pos) : Option ℕ :=
  if x.1 < sb.ninodes.toNat ∧ (ino x.1).type ≠ 0 ∧ addr d (ino x.1) x.2 ≠ 0 then
    some (addr d (ino x.1) x.2).toNat
  else none

/-- The metadata is marked, and no block has two owners. -/
structure Owned : Prop where
  metadata : ∀ b < datastart sb, used sb d b = true
  exclusive : Exclusive (Marked sb d) (own sb d ino)

variable {sb d ino} {d' : Disk} {ino' : ℕ → Dinode} {i : ℕ} {p : Pos} {b : UInt32} {k : ℕ}

theorem own_eq_some : own sb d ino (i, p) = some k ↔ i < sb.ninodes.toNat ∧
    (ino i).type ≠ 0 ∧ addr d (ino i) p ≠ 0 ∧ (addr d (ino i) p).toNat = k := by
  rw [own, Option.ite_none_right_eq_some, Option.some.injEq]
  tauto

theorem own_congr (h : ∀ n < sb.ninodes.toNat, (ino' n).type = (ino n).type ∧
    ((ino n).type ≠ 0 → addr d' (ino' n) = addr d (ino n))) : own sb d' ino' = own sb d ino := by
  funext ⟨n, q⟩
  rw [own, own]
  by_cases hlt : n < sb.ninodes.toNat ∧ (ino n).type ≠ 0
  · obtain ⟨heq, haddr⟩ := h n hlt.1
    simp only [heq, haddr hlt.2]
  · rw [if_neg fun hn ↦ ?_, if_neg fun hn ↦ hlt ⟨hn.1, hn.2.1⟩]
    exact hlt ⟨hn.1, (h n hn.1).1 ▸ hn.2.1⟩

theorem marked_congr (h : ∀ c < sb.size.toNat, used sb d' c = used sb d c) :
    Marked sb d' = Marked sb d := by
  ext c
  simp only [Marked, Set.mem_ofPred_eq]
  exact and_congr_left fun hc ↦ by rw [h c hc.2]

theorem own_update (hi : i < sb.ninodes.toNat) (htype : (ino i).type ≠ 0)
    (htype' : (ino' i).type ≠ 0) (hb : b ≠ 0)
    (hself : addr d' (ino' i) = update (addr d (ino i)) p b)
    (hother : ∀ i', i' ≠ i → i' < sb.ninodes.toNat → ino' i' = ino i' ∧
      ((ino i').type ≠ 0 → addr d' (ino i') = addr d (ino i'))) :
    own sb d' ino' = update (own sb d ino) (i, p) (some b.toNat) := by
  funext ⟨i', q⟩
  obtain rfl | hne := eq_or_ne i' i
  · obtain rfl | hpq := eq_or_ne q p
    · rw [update_self, own_eq_some, hself, update_self]
      exact ⟨hi, htype', hb, rfl⟩
    · rw [update_of_ne fun h ↦ hpq (Prod.mk.inj h).2, own, own]
      simp only [hself, update_of_ne hpq, ne_eq, htype, htype', not_false_eq_true, true_and]
  · rw [update_of_ne fun h ↦ hne (Prod.mk.inj h).1, own, own]
    by_cases hlt : i' < sb.ninodes.toNat ∧ (ino i').type ≠ 0
    · obtain ⟨heq, haddr⟩ := hother i' hne hlt.1
      simp only [heq, haddr hlt.2]
    · rw [if_neg fun h ↦ ?_, if_neg fun h ↦ hlt ⟨h.1, h.2.1⟩]
      exact hlt ⟨h.1, (hother i' hne h.1).1 ▸ h.2.1⟩

end Owners

end SistemasOperacionais.Xv6.Fs
