import SistemasOperacionais.Xv6.Fs.ByteArrays
import SistemasOperacionais.Xv6.Mkfs.Model

/-!
# Appending to a file

`iappend` allocates blocks in the order of their numbers, and so does the kernel on a disk whose
free map marks the blocks below `freeblock`. So `iappend` puts into the image what `writei` of the
kernel would put there if `mkfs` had written the free map already, and what is known of `writei`
holds for `iappend`. The two differ in when they notice that the disk is full.
-/

namespace SistemasOperacionais.Xv6.Mkfs

open Foundations Function Fs

theorem geometry_sb : Geometry sb := ⟨by decide, by decide, by decide⟩

theorem size_sb : sb.size.toNat = fssize := by decide

theorem bmapstart_lt_nmeta : sb.bmapstart.toNat < nmeta := by decide

/-- The image if `mkfs` wrote the free map now. -/
def State.sealed (s : State) : Disk :=
  update s.sect sb.bmapstart.toNat (State.bitmap s.freeblock.toNat)

/-! ## Sectors and the free map -/

section Sectors

variable {s : State} {x : UInt32} {b n : ℕ}

theorem sector_eq (h : x.toNat < 2 ^ 23) : sector x = x.toNat := by
  have hb : (UInt32.ofNat bsize).toNat = bsize := by decide
  have hmul : x.toNat * bsize < 2 ^ 32 := by
    rw [bsize]
    omega
  rw [sector, UInt32.toNat_mul, hb, Nat.mod_eq_of_lt hmul, Nat.mul_div_cancel _ (by decide)]

theorem State.rsect_eq (hlen : s.len = fssize) (hx : x.toNat ≤ fssize) :
    s.rsect x = if x.toNat < fssize then some (s.sect x.toNat) else none := by
  rw [State.rsect, sector_eq (hx.trans_lt (by decide)), hlen]

theorem State.wsect_eq {buf : Block} (hlen : s.len = fssize) (hx : x.toNat < fssize) :
    s.wsect x buf = { s with sect := update s.sect x.toNat buf } := by
  rw [State.wsect, sector_eq (hx.trans (by decide)), max_eq_left (by omega)]

theorem bitmap_succ : State.bitmap (n + 1) = Bitmap.mark (State.bitmap n) (bslot n) := by
  rw [State.bitmap, List.range_succ, List.foldl_append]
  rfl

theorem test_bitmap (hn : n ≤ bpb) (hb : b < bpb) :
    Bitmap.test (State.bitmap n) (bslot b) = decide (b < n) := by
  induction n with
  | zero =>
    rw [decide_eq_false (Nat.not_lt_zero b)]
    simp [Bitmap.test, State.bitmap]
  | succ n ih =>
    have hslot : bslot b = bslot n ↔ b = n := by
      refine ⟨fun heq ↦ ?_, fun heq ↦ by rw [heq]⟩
      have hmod : b % bpb = n % bpb := congrArg Fin.val heq
      rwa [Nat.mod_eq_of_lt hb, Nat.mod_eq_of_lt hn] at hmod
    rw [bitmap_succ, Bitmap.test_mark, ih (by omega), ← Bool.decide_or]
    exact decide_eq_decide.mpr (by rw [hslot]; omega)

theorem State.sealed_of_ne (hb : b ≠ sb.bmapstart.toNat) : s.sealed b = s.sect b :=
  update_of_ne hb ..

theorem bblock_sb (hb : b < fssize) : bblock sb b = sb.bmapstart.toNat := by
  rw [bblock, Nat.div_eq_of_lt (hb.trans (by decide)), Nat.zero_add]

theorem State.used_sealed (hle : s.freeblock.toNat ≤ fssize) (hb : b < fssize) :
    used sb s.sealed b = decide (b < s.freeblock.toNat) := by
  rw [used, bblock_sb hb, State.sealed, update_self]
  exact test_bitmap (hle.trans (by decide)) (hb.trans (by decide))

end Sectors

/-! ## `mkfs` and the kernel -/

theorem entry_ne_direct (e : Fin 128) (j : Fin 13) : Pos.entry e ≠ .direct j := by
  intro h
  cases h

theorem zero_lt_ninode : 0 < ninode := by decide

/-- The entry of the inode cache that the kernel uses. -/
def slot : Fin ninode := ⟨0, zero_lt_ninode⟩

/-- `mkfs` with the inode `inum` in `din`, and the kernel with the same in its cache. -/
structure Sim (s : State) (inum : ℕ) (din : Dinode) (k : Fs.State) : Prop where
  len : s.len = fssize
  le : s.freeblock.toNat ≤ fssize
  ge : nmeta ≤ s.freeblock.toNat
  /-- Blocks that are not allocated are empty. -/
  zero : ∀ b, s.freeblock.toNat ≤ b → s.sect b = fun _ ↦ 0
  super : k.sb = sb
  disk : k.disk = s.sealed
  self : k.icache slot = ⟨inum, 1, true, din⟩

namespace Sim

variable {s s' : State} {inum fbn n : ℕ} {din din' : Dinode} {k : Fs.State} {p : Pos} {j : Fin 13}
  {e : Fin 128} {x a : UInt32} {buf : Block}

theorem din_eq (h : Sim s inum din k) : (k.icache slot).din = din := by rw [h.self]

/-- A block of the file is a data block below `freeblock`. -/
theorem mem (h : Sim s inum din k) (ho : Open k slot) (h0 : addr k.disk din p ≠ 0) :
    nmeta ≤ (addr k.disk din p).toNat ∧ (addr k.disk din p).toNat < s.freeblock.toNat := by
  have hown : own k.sb k.disk (k.view slot) ((k.icache slot).inum, p) =
      some (addr k.disk din p).toNat := by
    rw [own_eq_some, k.view_self]
    refine ⟨ho.inum, ho.type, ?_⟩
    rw [h.din_eq]
    exact ⟨h0, rfl⟩
  obtain ⟨hused, hge, hlt⟩ := ho.owned.exclusive.mem hown
  rw [h.super] at hge hlt hused
  have hsealed := State.used_sealed h.le hlt
  rw [← h.disk, hused] at hsealed
  exact ⟨hge, of_decide_eq_true hsealed.symm⟩

theorem disk_eq (h : Sim s inum din k) {b : ℕ} (hb : nmeta ≤ b) : k.disk b = s.sect b := by
  have hlt := bmapstart_lt_nmeta
  rw [h.disk, State.sealed_of_ne (by omega)]

theorem toNat_bump (h : Sim s inum din k) : s.bump.freeblock.toNat = s.freeblock.toNat + 1 := by
  have hle := h.le
  have hone : (1 : UInt32).toNat = 1 := rfl
  rw [fssize] at hle
  rw [State.bump, UInt32.toNat_add, hone]
  exact Nat.mod_eq_of_lt (by omega)

/-- `balloc` of the kernel takes the block that is next. -/
theorem balloc (h : Sim s inum din k) (hlt : s.freeblock.toNat < fssize) :
    ∃ k', k.balloc = some (s.freeblock.toNat, k') ∧ Sim s.bump inum din k' := by
  have hfind : (List.range k.sb.size.toNat).find? (fun b ↦ !used k.sb k.disk b) =
      some s.freeblock.toNat := by
    rw [h.super, h.disk, size_sb, List.find?_range_eq_some]
    refine ⟨?_, List.mem_range.mpr hlt, fun b hb ↦ ?_⟩
    · rw [State.used_sealed h.le hlt, decide_eq_false (lt_irrefl _)]
      rfl
    · rw [State.used_sealed h.le (hb.trans hlt), decide_eq_true hb]
      rfl
  have hbump := h.toNat_bump
  have hge := h.ge
  have hmeta := bmapstart_lt_nmeta
  rw [Fs.State.balloc, hfind]
  refine ⟨_, rfl, h.len, hbump ▸ hlt, by omega, fun b hb ↦ h.zero b (by omega), h.super, ?_, h.self⟩
  have hbit : k.disk (bblock k.sb s.freeblock.toNat) = State.bitmap s.freeblock.toNat := by
    rw [h.super, bblock_sb hlt, h.disk, State.sealed, update_self]
  funext b
  change update (update k.disk (bblock k.sb s.freeblock.toNat) _) s.freeblock.toNat _ b = _
  rw [hbit, h.super, bblock_sb hlt]
  obtain rfl | hb := eq_or_ne b s.freeblock.toNat
  · rw [update_self, State.sealed_of_ne (by omega)]
    exact (h.zero _ le_rfl).symm
  · rw [update_of_ne hb, State.sealed, hbump, bitmap_succ, h.disk, State.sealed, update_idem]
    rfl

theorem write (buf : Block) (h : Sim s inum din k) (hge : nmeta ≤ x.toNat)
    (hlt : x.toNat < s.freeblock.toNat) :
    Sim (s.wsect x buf) inum din (k.logWrite x.toNat buf) := by
  have hle := h.le
  have hmeta := bmapstart_lt_nmeta
  rw [State.wsect_eq h.len (by omega)]
  refine ⟨h.len, h.le, h.ge, fun b hb ↦ ?_, h.super, ?_, h.self⟩
  · have hb' : s.freeblock.toNat ≤ b := hb
    exact (update_of_ne (by omega) ..).trans (h.zero b hb)
  · change update k.disk x.toNat buf = update (update s.sect x.toNat buf) _ _
    rw [h.disk, State.sealed, update_comm (by omega)]

theorem direct_of_eq (h0 : din.addrs j = 0) :
    (s.direct din j).1.addrs j = s.freeblock ∧ (s.direct din j).2 = s.bump := by
  rw [State.direct, if_pos h0]
  exact ⟨update_self .., rfl⟩

theorem direct (h : Sim s inum din k) (hlt : din.addrs j = 0 → s.freeblock.toNat < fssize) :
    ∃ k', k.direct slot j = some ((s.direct din j).1.addrs j, k') ∧
      Sim (s.direct din j).2 inum (s.direct din j).1 k' ∧
      (s.direct din j).2.freeblock.toNat =
        s.freeblock.toNat + if din.addrs j = 0 then 1 else 0 := by
  obtain h0 | h0 := eq_or_ne (din.addrs j) 0
  · obtain ⟨k', halloc, hsim⟩ := h.balloc (hlt h0)
    obtain ⟨haddr, hbump⟩ := direct_of_eq (s := s) h0
    have hk : k.direct slot j = some (s.freeblock, k'.setAddr slot j s.freeblock) := by
      rw [Fs.State.direct, h.din_eq, if_pos h0, halloc]
      simp only [Option.map_some, UInt32.ofNat_toNat]
    rw [haddr, hbump, if_pos h0]
    refine ⟨_, hk, ⟨hsim.len, hsim.le, hsim.ge, hsim.zero, hsim.super, hsim.disk, ?_⟩, h.toNat_bump⟩
    rw [Fs.State.setAddr, Fs.State.setDin, Fs.State.setCache_self, hsim.self, State.direct,
      if_pos h0]
    rfl
  · have hs : s.direct din j = (din, s) := if_neg h0
    rw [hs, if_neg h0]
    exact ⟨k, by rw [Fs.State.direct, h.din_eq, if_neg h0], h, rfl⟩

theorem entry (h : Sim s inum din k) (hge : nmeta ≤ a.toNat) (ha : a.toNat < s.freeblock.toNat)
    (hlt : Block.word (k.disk a.toNat) e = 0 → s.freeblock.toNat < fssize) :
    ∃ x s' k', s.entry a e = some (x, s') ∧ k.entry a e = some (x, k') ∧ Sim s' inum din k' ∧
      s'.freeblock.toNat =
        s.freeblock.toNat + if Block.word (k.disk a.toNat) e = 0 then 1 else 0 := by
  have hle := h.le
  rw [State.entry, State.rsect_eq h.len (by omega), if_pos (by omega), ← h.disk_eq hge,
    Option.map_some, Fs.State.entry]
  split_ifs with h0
  · obtain ⟨k', halloc, hsim⟩ := h.balloc (hlt h0)
    have hbump := h.toNat_bump
    have hkeep : k'.disk a.toNat = k.disk a.toNat := by
      rw [hsim.disk_eq hge, h.disk_eq hge]
      rfl
    refine ⟨_, _, _, rfl, ?_, hsim.write (Block.setWord (k.disk a.toNat) e s.freeblock) hge
      (by omega), hbump⟩
    rw [halloc]
    simp only [Option.map_some, UInt32.ofNat_toNat, hkeep]
  · exact ⟨_, _, k, rfl, rfl, h, rfl⟩

/-- The indirect block, with the number of block `fbn` in it. -/
theorem indirect (h : Sim s inum din k) (ho : Open k slot) (hge : ndirect ≤ fbn)
    (hmax : fbn < maxfile) (hlt : fbn - ndirect < nindirect)
    (hroom : din.addrs last = 0 → s.freeblock.toNat < fssize) :
    ∃ k', k.direct slot last = some ((s.direct din last).1.addrs last, k') ∧
      Sim (s.direct din last).2 inum (s.direct din last).1 k' ∧
      (s.direct din last).2.freeblock.toNat =
        s.freeblock.toNat + (if din.addrs last = 0 then 1 else 0) ∧
      nmeta ≤ ((s.direct din last).1.addrs last).toNat ∧
      ((s.direct din last).1.addrs last).toNat < (s.direct din last).2.freeblock.toNat ∧
      Block.word (k'.disk ((s.direct din last).1.addrs last).toNat) ⟨fbn - ndirect, hlt⟩ =
        addr k.disk din (pos fbn) := by
  obtain ⟨k', hk', hsim, hcount⟩ := h.direct hroom
  obtain ⟨ho', -, ha, haddr⟩ := ho.direct hk'
  rw [hsim.din_eq, h.din_eq] at haddr
  obtain ⟨hge', hlt'⟩ := hsim.mem ho' (p := .direct last) ha
  refine ⟨k', hk', hsim, hcount, hge', hlt', ?_⟩
  have heq := congrFun haddr (.entry ⟨fbn - ndirect, hlt⟩)
  rw [update_of_ne (entry_ne_direct _ _), ← pos_of_le hge hmax] at heq
  rw [← heq, pos_of_le hge hmax, addr, if_neg ha]

/-- The block `fbn` of the file, which is there or comes next, if there is room for it. -/
theorem place (h : Sim s inum din k) (ho : Open k slot) (hf : Filled (addr k.disk din) n)
    (hle : fbn ≤ n) (hmax : fbn < maxfile)
    (hroom : s.freeblock.toNat + need (max n (fbn + 1)) ≤ fssize + need n) :
    ∃ x din' s' k', s.place din fbn = some (x, din', s') ∧ k.bmap slot fbn = some (x, k') ∧
      Sim s' inum din' k' ∧
      s'.freeblock.toNat + need n = s.freeblock.toNat + need (max n (fbn + 1)) := by
  have hblock := hf.block fbn hmax
  have hneed (hz : ¬fbn < n) : fbn = n ∧ need (max n (fbn + 1)) = need (n + 1) := by
    obtain rfl : fbn = n := by omega
    rw [max_eq_right (Nat.le_succ _)]
    exact ⟨rfl, rfl⟩
  have hsucc := need_succ n
  rw [State.place, Fs.State.bmap]
  split_ifs with hlt hlt'
  · -- a direct block
    rw [pos_of_lt hlt] at hblock
    have hzero : din.addrs (Fs.place fbn hlt) = 0 ↔ ¬fbn < n := by
      rw [← hblock, not_not]
      rfl
    have hnd (hz : ¬fbn < n) : need (max n (fbn + 1)) = need n + 1 := by
      obtain ⟨rfl, heq⟩ := hneed hz
      rw [heq, hsucc, if_neg (by omega)]
    obtain ⟨k', hk, hsim, hcount⟩ := h.direct (j := Fs.place fbn hlt) fun h0 ↦ by
      have := hnd (hzero.mp h0)
      omega
    refine ⟨_, (s.direct din (Fs.place fbn hlt)).1, (s.direct din (Fs.place fbn hlt)).2, k', rfl,
      hk, hsim, ?_⟩
    rw [hcount]
    by_cases hz : fbn < n
    · rw [if_neg fun h0 ↦ hzero.mp h0 hz, max_eq_left hz]
      rfl
    · rw [if_pos (hzero.mpr hz), hnd hz]
      omega
  · -- a block behind the indirect block
    have hge : ndirect ≤ fbn := not_lt.mp hlt
    have hzero : din.addrs last = 0 ↔ ¬ndirect < n := by
      rw [← hf.indirect, not_not]
      rfl
    have hnd (hz : ¬fbn < n) :
        need (max n (fbn + 1)) = need n + 1 + if din.addrs last = 0 then 1 else 0 := by
      obtain ⟨rfl, heq⟩ := hneed hz
      rw [heq, hsucc, Nat.add_assoc]
      congr 1
      simp only [hzero]
      split_ifs <;> omega
    have hnl (h0 : din.addrs last = 0) : ¬fbn < n := by
      have := hzero.mp h0
      omega
    obtain ⟨k₁, hk₁, hsim₁, hcount₁, hge', hlt'', heq⟩ := h.indirect ho hge hmax hlt' fun h0 ↦ by
      have := hnd (hnl h0)
      rw [if_pos h0] at this
      omega
    have hword : Block.word (k₁.disk ((s.direct din last).1.addrs last).toNat) ⟨fbn - ndirect, hlt'⟩
        = 0 ↔ ¬fbn < n := by rw [← hblock, heq, not_not]
    obtain ⟨x, s', k', hs', hk', hsim, hcount⟩ := hsim₁.entry hge' hlt'' fun h0 ↦ by
      have := hnd (hword.mp h0)
      omega
    refine ⟨x, _, s', k', ?_, ?_, hsim, ?_⟩
    · rw [hs']
      rfl
    · rw [hk₁, Option.bind_some]
      exact hk'
    · rw [hcount, hcount₁]
      by_cases hz : fbn < n
      · have hn : ¬din.addrs last = 0 := fun h0 ↦ hnl h0 hz
        rw [if_neg fun h0 ↦ hword.mp h0 hz, if_neg hn, max_eq_left hz]
        rfl
      · rw [if_pos (hword.mpr hz), hnd hz]
        omega
  · rw [maxfile] at hmax
    omega

theorem lt_of_rsect (h : Sim s inum din k) (hs : s'.len = fssize)
    (hr : s'.rsect s.freeblock = some buf) : s.freeblock.toNat < fssize := by
  rw [State.rsect_eq hs h.le] at hr
  by_contra hlt
  rw [if_neg hlt] at hr
  cases hr

theorem room_of_entry (h : Sim s inum din k) (hge : nmeta ≤ a.toNat)
    (ha : a.toNat < s.freeblock.toNat) (h0 : Block.word (k.disk a.toNat) e = 0)
    (hs : s.entry a e = some (x, s')) (hr : s'.rsect x = some buf) :
    s.freeblock.toNat < fssize := by
  have hle := h.le
  rw [State.entry, State.rsect_eq h.len (by omega), if_pos (by omega), ← h.disk_eq hge,
    Option.map_some, if_pos h0] at hs
  obtain ⟨rfl, rfl⟩ := Prod.mk.inj (Option.some.inj hs)
  have hlen : s.bump.len = fssize := h.len
  refine h.lt_of_rsect ?_ hr
  rw [State.wsect_eq hlen (by omega)]
  exact hlen

theorem room_of_place (h : Sim s inum din k) (ho : Open k slot) (hf : Filled (addr k.disk din) n)
    (hle : fbn ≤ n) (hs : s.place din fbn = some (x, din', s')) (hr : s'.rsect x = some buf) :
    fbn < maxfile ∧ s.freeblock.toNat + need (max n (fbn + 1)) ≤ fssize + need n := by
  rw [State.place] at hs
  obtain hlt | rfl := hle.lt_or_eq
  · rw [max_eq_left hlt]
    exact ⟨hlt.trans_le hf.le, Nat.add_le_add_right h.le _⟩
  rw [max_eq_right (Nat.le_succ fbn), need_succ]
  have hlen : s.bump.len = fssize := h.len
  have hblock (hmax : fbn < maxfile) : addr k.disk din (pos fbn) = 0 := by
    by_contra h0
    exact lt_irrefl _ ((hf.block fbn hmax).mp h0)
  split_ifs at hs with hlt hlt'
  · have hmax : fbn < maxfile := hlt.trans (by decide)
    have h0 := hblock hmax
    rw [pos_of_lt hlt] at h0
    obtain ⟨haddr, hbump⟩ := direct_of_eq (s := s) h0
    obtain ⟨rfl, heq⟩ := Prod.mk.inj (Option.some.inj hs)
    obtain rfl : s.bump = s' := hbump.symm.trans (Prod.mk.inj heq).2
    rw [haddr] at hr
    have hroom := h.lt_of_rsect hlen hr
    rw [if_neg (by omega)]
    exact ⟨hmax, by omega⟩
  · have hge : ndirect ≤ fbn := not_lt.mp hlt
    have hmax : fbn < maxfile := by
      rw [maxfile]
      omega
    obtain ⟨⟨y, s₁⟩, hentry, heq⟩ := Option.map_eq_some_iff.mp hs
    obtain ⟨rfl, heq'⟩ := Prod.mk.inj heq
    obtain ⟨rfl, rfl⟩ := Prod.mk.inj heq'
    have hzero : din.addrs last = 0 ↔ ¬ndirect < fbn := by
      rw [← hf.indirect, not_not]
      rfl
    -- the indirect block can be read
    have hlast (h0 : din.addrs last = 0) : s.freeblock.toNat < fssize := by
      obtain ⟨haddr, hbump⟩ := direct_of_eq (s := s) h0
      rw [haddr, hbump, State.entry] at hentry
      obtain ⟨indirect, hread, -⟩ := Option.map_eq_some_iff.mp hentry
      exact h.lt_of_rsect hlen hread
    obtain ⟨k₁, -, hsim₁, hcount₁, hge', hlt'', hword⟩ := h.indirect ho hge hmax hlt' hlast
    have hroom := hsim₁.room_of_entry hge' hlt'' (hword.trans (hblock hmax)) hentry hr
    rw [hcount₁] at hroom
    refine ⟨hmax, ?_⟩
    split_ifs with heq
    · rw [if_pos (hzero.mpr (by omega))] at hroom
      omega
    · rw [if_neg fun h0 ↦ hzero.mp h0 (by omega)] at hroom
      omega

/-! ### The loop -/

variable {off fuel off' : ℕ} {src : List UInt8}

theorem room_eq (off n : ℕ) : State.room off n = Fs.State.span off n := by
  have hoff := Nat.div_add_mod off bsize
  rw [State.room, Fs.State.span, Nat.add_mul, Nat.one_mul, Nat.mul_comm]
  congr 1
  omega

theorem sub_div_mul (off : ℕ) : off - off / bsize * bsize = off % bsize := by
  have hoff := Nat.div_add_mod off bsize
  rw [Nat.mul_comm]
  omega

/-- What the kernel has after a round of its loop. -/
def round (k : Fs.State) (x : UInt32) (off : ℕ) (src : List UInt8) : Fs.State :=
  k.logWrite x.toNat (Fs.State.splice (k.disk x.toNat) (off % bsize)
    (src.take (Fs.State.span off src.length)))

/-- A round of the loop of `iappend` is a round of the loop of `writei`. -/
theorem step (src : List UInt8) (h : Sim s inum din k) (ho : Open k slot)
    (hf : Filled (addr k.disk din) n) (hoff : off ≤ n * bsize) (hmax : off / bsize < maxfile)
    (hroom : s.freeblock.toNat + need (max n (off / bsize + 1)) ≤ fssize + need n) :
    ∃ x din' s' k' buf, s.place din (off / bsize) = some (x, din', s') ∧ s'.rsect x = some buf ∧
      k.bmap slot (off / bsize) = some (x, k') ∧
      Sim (s'.wsect x (Fs.State.splice buf (off - off / bsize * bsize)
        (src.take (Fs.State.span off src.length)))) inum din' (round k' x off src) ∧
      Open (round k' x off src) slot ∧
      Filled (addr (round k' x off src).disk din') (max n (off / bsize + 1)) ∧
      s'.freeblock.toNat + need n = s.freeblock.toNat + need (max n (off / bsize + 1)) := by
  have hle : off / bsize ≤ n := Nat.div_le_of_le_mul (by rwa [Nat.mul_comm])
  obtain ⟨x, din', s', k', hs', hk', hsim, hcount⟩ := h.place ho hf hle hmax hroom
  rw [← h.din_eq] at hf
  obtain ⟨ho', -, hx, -, haddr, -⟩ := ho.bmap hf hle hk'
  rw [hsim.din_eq] at haddr
  obtain ⟨hge, hlt⟩ := hsim.mem ho' (p := pos (off / bsize)) (by rwa [haddr])
  rw [haddr] at hge hlt
  have hle' := hsim.le
  have hround : round k' x off src = k'.logWrite x.toNat (Fs.State.splice (k'.disk x.toNat)
    (off % bsize) (src.take (Fs.State.span off src.length))) := rfl
  obtain ⟨hopen, -, hfilled, -⟩ := ho.round hf hoff rfl hk' hround
  have hw : Sim (s'.wsect x (Fs.State.splice (s'.sect x.toNat) (off - off / bsize * bsize)
      (src.take (Fs.State.span off src.length)))) inum din' (round k' x off src) := by
    rw [sub_div_mul, ← hsim.disk_eq hge]
    exact hsim.write _ hge hlt
  refine ⟨x, din', s', k', s'.sect x.toNat, hs', ?_, hk', hw, hopen, ?_, hcount⟩
  · rw [State.rsect_eq hsim.len (by omega), if_pos (by omega)]
  · rw [← hw.din_eq]
    exact hfilled

/-- The loop of `iappend` is the loop of `writei`, if there is room. -/
theorem appendLoop (h : Sim s inum din k) (ho : Open k slot) (hf : Filled (addr k.disk din) n)
    (hoff : off ≤ n * bsize) (hfuel : src.length ≤ fuel)
    (hmax : off + src.length ≤ maxfile * bsize)
    (hroom : s.freeblock.toNat + need (max n (blocks (off + src.length))) ≤ fssize + need n) :
    ∃ din' s' k', State.appendLoop fuel off src din s = some (off + src.length, din', s') ∧
      Fs.State.writeLoop slot fuel off src k = some k' ∧ Sim s' inum din' k' ∧
      s'.freeblock.toNat + need n =
        s.freeblock.toNat + need (max n (blocks (off + src.length))) := by
  induction fuel generalizing off src din s k n with
  | zero =>
    obtain rfl : src = [] := List.length_eq_zero_iff.mp (Nat.le_zero.mp hfuel)
    refine ⟨din, s, k, rfl, rfl, h, ?_⟩
    rw [List.length_nil, Nat.add_zero, max_eq_left (blocks_le_of_le hoff)]
  | succ fuel ih =>
    rw [State.appendLoop, Fs.State.writeLoop, room_eq]
    split_ifs with hsrc
    · subst hsrc
      refine ⟨din, s, k, rfl, rfl, h, ?_⟩
      rw [List.length_nil, Nat.add_zero, max_eq_left (blocks_le_of_le hoff)]
    · obtain ⟨⟨hpos, hle⟩, hend, hsum, hblocks⟩ := span_round n off hsrc
      have hdiv : off / bsize < maxfile :=
        Nat.div_lt_of_lt_mul (by rw [Nat.mul_comm]; omega)
      have hneed := need_mono (max_le_max_left n hblocks)
      obtain ⟨x, din₁, s₁, k₁, buf, hs₁, hr, hk₁, hsim, hopen, hfilled, hcount⟩ :=
        h.step src ho hf hoff hdiv (by omega)
      have heq : max (max n (off / bsize + 1)) (blocks (off + src.length)) =
          max n (blocks (off + src.length)) := by rw [max_assoc, max_eq_right hblocks]
      have hfuel' : (src.drop (Fs.State.span off src.length)).length ≤ fuel := by omega
      obtain ⟨din', s', k', hs', hk', hsim', hcount'⟩ := ih hsim hopen hfilled hend hfuel'
        (by rwa [hsum]) (by rw [hsum, heq]; change s₁.freeblock.toNat + _ ≤ _; omega)
      rw [hsum] at hs' hcount'
      rw [heq] at hcount'
      refine ⟨din', s', k', ?_, ?_, hsim', ?_⟩
      · rw [hs₁, Option.bind_some]
        simp only
        rw [hr, Option.bind_some, hs']
      · rwa [hk₁, Option.bind_some]
      · change s'.freeblock.toNat + _ = s₁.freeblock.toNat + _ at hcount'
        omega

theorem room_of_appendLoop (h : Sim s inum din k) (ho : Open k slot)
    (hf : Filled (addr k.disk din) n) (hoff : off ≤ n * bsize) (hfuel : src.length ≤ fuel)
    (hs : State.appendLoop fuel off src din s = some (off', din', s')) :
    off + src.length ≤ maxfile * bsize ∧
      s.freeblock.toNat + need (max n (blocks (off + src.length))) ≤ fssize + need n := by
  have hnil {s : State} {din : Dinode} {k : Fs.State} {n off : ℕ} (h : Sim s inum din k)
      (hf : Filled (addr k.disk din) n) (hoff : off ≤ n * bsize) : off + 0 ≤ maxfile * bsize ∧
      s.freeblock.toNat + need (max n (blocks (off + 0))) ≤ fssize + need n := by
    rw [Nat.add_zero, max_eq_left (blocks_le_of_le hoff)]
    exact ⟨hoff.trans (Nat.mul_le_mul_right _ hf.le), Nat.add_le_add_right h.le _⟩
  induction fuel generalizing off src din s k n with
  | zero =>
    obtain rfl : src = [] := List.length_eq_zero_iff.mp (Nat.le_zero.mp hfuel)
    exact hnil h hf hoff
  | succ fuel ih =>
    rw [State.appendLoop, room_eq] at hs
    split_ifs at hs with hsrc
    · subst hsrc
      exact hnil h hf hoff
    · obtain ⟨⟨x, din₁, s₁⟩, hplace, hs⟩ := Option.bind_eq_some_iff.mp hs
      obtain ⟨buf, hr, hs⟩ := Option.bind_eq_some_iff.mp hs
      have hle : off / bsize ≤ n := Nat.div_le_of_le_mul (by rwa [Nat.mul_comm])
      obtain ⟨hmax, hroom⟩ := h.room_of_place ho hf hle hplace hr
      obtain ⟨x', din₁', s₁', k₁, buf', hs₁, hr', hk₁, hsim, hopen, hfilled, hcount⟩ :=
        h.step src ho hf hoff hmax hroom
      rw [hplace, Option.some.injEq, Prod.mk.injEq, Prod.mk.injEq] at hs₁
      obtain ⟨rfl, rfl, rfl⟩ := hs₁
      obtain rfl := Option.some.inj (hr.symm.trans hr')
      obtain ⟨⟨hpos, hle'⟩, hend, hsum, hblocks⟩ := span_round n off hsrc
      obtain ⟨hmax', hroom'⟩ := ih hsim hopen hfilled hend (by omega) hs
      rw [hsum] at hmax' hroom'
      rw [max_assoc, max_eq_right hblocks] at hroom'
      change s₁.freeblock.toNat + _ ≤ _ at hroom'
      exact ⟨hmax', by omega⟩

end Sim

end SistemasOperacionais.Xv6.Mkfs
