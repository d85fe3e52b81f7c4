import SistemasOperacionais.Xv6.Fs.Calls

/-!
# Files are byte arrays

To the callers of `readi` and `writei` an inode is an array of bytes, and the blocks cannot be seen.
That no block has two owners keeps the arrays apart. The only thing that can go wrong is `balloc`,
which panics when there is no free block; a write that is given the blocks it needs gets through.
-/

namespace SistemasOperacionais.Xv6.Fs

open Foundations Function

/-! ## Room for the blocks -/

def State.freeBlocks (s : State) : Finset ℕ :=
  {b ∈ Finset.range s.sb.size.toNat | used s.sb s.disk b = false}

section Room

variable {s s' : State} {i : Fin ninode} {b k n off : ℕ} {j : Fin 13} {e : Fin 128}

theorem State.mem_freeBlocks :
    b ∈ s.freeBlocks ↔ b < s.sb.size.toNat ∧ used s.sb s.disk b = false := by
  rw [State.freeBlocks, Finset.mem_filter, Finset.mem_range]

theorem State.freeBlocks_congr (hsb : s'.sb = s.sb)
    (hused : ∀ c < s.sb.size.toNat, used s.sb s'.disk c = used s.sb s.disk c) :
    s'.freeBlocks = s.freeBlocks := by
  ext c
  rw [State.mem_freeBlocks, State.mem_freeBlocks, hsb]
  exact and_congr_right fun hc ↦ by rw [hused c hc]

theorem State.freeBlocks_logWrite {x : Block} (hk : datastart s.sb ≤ k) :
    (s.logWrite k x).freeBlocks = s.freeBlocks :=
  State.freeBlocks_congr rfl fun _ hc ↦ State.used_logWrite hk hc

theorem Alloc.freeBlocks (h : Alloc s b s') : s'.freeBlocks = s.freeBlocks.erase b := by
  ext c
  rw [Finset.mem_erase, State.mem_freeBlocks, State.mem_freeBlocks, h.sb]
  constructor
  · rintro ⟨hc, hused⟩
    rw [h.used c hc, Bool.or_eq_false_iff, decide_eq_false_iff_not] at hused
    exact ⟨hused.1, hc, hused.2⟩
  · rintro ⟨hne, hc, hused⟩
    rw [h.used c hc, hused, decide_eq_false hne]
    exact ⟨hc, rfl⟩

theorem Alloc.card_freeBlocks (h : Alloc s b s') :
    s'.freeBlocks.card + 1 = s.freeBlocks.card := by
  rw [h.freeBlocks]
  exact Finset.card_erase_add_one (State.mem_freeBlocks.mpr ⟨h.lt, h.fresh⟩)

theorem State.exists_balloc (h : 0 < s.freeBlocks.card) : ∃ b s', s.balloc = some (b, s') := by
  obtain ⟨b, hb⟩ := Finset.card_pos.mp h
  rw [State.mem_freeBlocks] at hb
  obtain ⟨c, hc⟩ : ∃ c, (List.range s.sb.size.toNat).find? (fun b ↦ !used s.sb s.disk b) =
      some c := by
    rw [← Option.isSome_iff_exists, List.find?_isSome]
    exact ⟨b, List.mem_range.mpr hb.1, by rw [hb.2]; rfl⟩
  exact ⟨c, _, by rw [State.balloc, hc, Option.map_some]⟩

theorem Open.exists_direct (h : Open s i)
    (hroom : (s.icache i).din.addrs j = 0 → 0 < s.freeBlocks.card) :
    ∃ a s', s.direct i j = some (a, s') ∧
      s'.freeBlocks.card + (if (s.icache i).din.addrs j = 0 then 1 else 0) =
        s.freeBlocks.card := by
  rw [State.direct]
  split_ifs with h0
  · obtain ⟨b, s₁, hs₁⟩ := State.exists_balloc (hroom h0)
    have hb := Alloc.of_balloc h.owned.metadata hs₁
    rw [hs₁]
    exact ⟨_, _, rfl, hb.card_freeBlocks⟩
  · exact ⟨_, s, rfl, rfl⟩

theorem Open.exists_entry (h : Open s i) (h0 : (s.icache i).din.addrs last ≠ 0)
    (hroom : addr s.disk (s.icache i).din (.entry e) = 0 → 0 < s.freeBlocks.card) :
    ∃ a s', s.entry ((s.icache i).din.addrs last) e = some (a, s') ∧
      s'.freeBlocks.card + (if addr s.disk (s.icache i).din (.entry e) = 0 then 1 else 0) =
        s.freeBlocks.card := by
  have haddr : addr s.disk (s.icache i).din (.entry e) =
      Block.word (s.disk ((s.icache i).din.addrs last).toNat) e := if_neg h0
  rw [haddr] at hroom ⊢
  rw [State.entry]
  split_ifs with hzero
  · obtain ⟨b, s₁, hs₁⟩ := State.exists_balloc (hroom hzero)
    have hb := Alloc.of_balloc h.owned.metadata hs₁
    have hmark := h.owned.exclusive.mem (h.last_mem h0)
    rw [hs₁]
    refine ⟨_, _, rfl, ?_⟩
    rw [State.freeBlocks_logWrite (hb.sb.symm ▸ hmark.2.1)]
    exact hb.card_freeBlocks
  · exact ⟨_, s, rfl, rfl⟩

theorem Open.exists_bmap (h : Open s i) (hf : Filled (addr s.disk (s.icache i).din) n)
    (hk : k ≤ n) (hmax : k < maxfile)
    (hroom : need (max n (k + 1)) ≤ need n + s.freeBlocks.card) :
    ∃ a s', s.bmap i k = some (a, s') ∧
      s'.freeBlocks.card + need (max n (k + 1)) = s.freeBlocks.card + need n := by
  obtain hkn | rfl := hk.lt_or_eq
  · rw [State.bmap_of_filled hf hkn, max_eq_left hkn]
    exact ⟨_, s, rfl, rfl⟩
  · have hzero : addr s.disk (s.icache i).din (pos k) = 0 :=
      not_not.mp fun h0 ↦ lt_irrefl k ((hf.block k hmax).mp h0)
    rw [max_eq_right (Nat.le_succ k), need_succ] at hroom ⊢
    obtain hlt | hle := lt_or_ge k ndirect
    · -- a direct block
      rw [if_neg hlt.ne] at hroom ⊢
      rw [pos_of_lt hlt, addr] at hzero
      obtain ⟨a, s', hs', hcard⟩ := h.exists_direct (j := place k hlt) fun _ ↦ by omega
      rw [if_pos hzero] at hcard
      exact ⟨a, s', by rw [State.bmap, dif_pos hlt, hs'], by omega⟩
    · -- a block behind the indirect block, which comes with the first of them
      have hlt : k - ndirect < nindirect := Nat.sub_lt_left_of_lt_add hle hmax
      have hlast : (s.icache i).din.addrs last = 0 ↔ k = ndirect :=
        not_iff_not.mp (hf.indirect.trans ⟨fun h ↦ h.ne', fun h ↦ lt_of_le_of_ne hle (Ne.symm h)⟩)
      have hone : 1 ≤ if k = ndirect then 2 else 1 := by split_ifs <;> decide
      obtain ⟨c, s₁, hs₁, hcard₁⟩ := h.exists_direct (j := last) fun _ ↦ by omega
      obtain ⟨hopen, -, hc, haddr⟩ := h.direct hs₁
      have hc' : (s₁.icache i).din.addrs last = c := by
        have heq := congrFun haddr (.direct last)
        rwa [update_self] at heq
      have hzero₁ : addr s₁.disk (s₁.icache i).din (.entry ⟨k - ndirect, hlt⟩) = 0 := by
        rw [haddr, update_of_ne (fun heq ↦ Pos.noConfusion heq), ← pos_of_le hle hmax, hzero]
      simp only [hlast] at hcard₁
      have hsplit : (if k = ndirect then 2 else 1) = (if k = ndirect then 1 else 0) + 1 := by
        split_ifs <;> rfl
      obtain ⟨a, s', hs', hcard⟩ := hopen.exists_entry (e := ⟨k - ndirect, hlt⟩) (hc' ▸ hc)
        fun _ ↦ by omega
      rw [if_pos hzero₁] at hcard
      refine ⟨a, s', ?_, by omega⟩
      rw [State.bmap, dif_neg (not_lt.mpr hle), dif_pos hlt, hs₁, Option.bind_some]
      rwa [hc'] at hs'

theorem Open.exists_writeLoop (fuel : ℕ) (src : List UInt8) (h : Open s i)
    (hf : Filled (addr s.disk (s.icache i).din) n) (hoff : off ≤ n * bsize)
    (hmax : off + src.length ≤ maxfile * bsize)
    (hroom : need (max n (blocks (off + src.length))) ≤ need n + s.freeBlocks.card) :
    ∃ s', State.writeLoop i fuel off src s = some s' := by
  induction fuel generalizing off src s n with
  | zero => exact ⟨s, rfl⟩
  | succ fuel ih =>
    rw [State.writeLoop]
    split_ifs with hsrc
    · exact ⟨s, rfl⟩
    · obtain ⟨⟨hpos, hle⟩, hend, hsum, hblocks⟩ := span_round n off hsrc
      have hneed := need_mono (max_le_max_left n hblocks)
      have hk : off / bsize ≤ n := Nat.div_le_of_le_mul (by rwa [Nat.mul_comm])
      obtain ⟨a, s₁, hs₁, hcard⟩ := h.exists_bmap hf hk
        (Nat.div_lt_of_lt_mul (by rw [Nat.mul_comm]; omega)) (by omega)
      rw [hs₁, Option.bind_some]
      obtain ⟨hopen, -, hfilled, -, -⟩ := h.round hf hoff rfl hs₁ rfl
      obtain ⟨hopen₁, -, ha, -, haddr, -⟩ := h.bmap hf hk hs₁
      have hmark := hopen₁.owned.exclusive.mem (k := ((s₁.icache i).inum, pos (off / bsize)))
        (own_eq_some.mpr (by rw [s₁.view_self, haddr]; exact ⟨hopen₁.inum, hopen₁.type, ha, rfl⟩))
      refine ih (src.drop (State.span off src.length)) hopen hfilled hend (by rwa [hsum]) ?_
      rw [hsum, max_assoc, max_eq_right hblocks, State.freeBlocks_logWrite hmark.2.1]
      omega

end Room

/-! ## The bytes of an inode -/

/-- The bytes of inode `m`. A free inode and a device have none. -/
def State.file (s : State) (m : ℕ) : List UInt8 :=
  if (s.ino m).type = tDir ∨ (s.ino m).type = tFile then content s.disk (s.ino m) else []

section Write

variable {s s₁ s' : State} {i : Fin ninode} {dev : Devsw} {off m n : ℕ} {src : List UInt8}
  {x : Dinode}

theorem State.file_of_type (ht : (s.ino m).type = tDir ∨ (s.ino m).type = tFile) :
    s.file m = content s.disk (s.ino m) := if_pos ht

theorem Replaced.file_eq (hr : Replaced s s' m x) (h : Inv s) (hn : n < s.sb.ninodes.toNat)
    (hne : n ≠ m) : s'.ino n = s.ino n ∧ s'.file n = s.file n := by
  have hino : s'.ino n = s.ino n := by rw [hr.ino n hn, update_of_ne hne]
  refine ⟨hino, ?_⟩
  rw [State.file, State.file, hino]
  split_ifs with ht
  · exact content_congr (h.filled n hn ht) (hr.keep n hn hne (ne_zero_of_type ht))
  · rfl

/-- What the loop of `writei` and the update of the size do together. -/
theorem Inv.content_of_writeLoop (h : Inv s) (href : 0 < (s.icache i).ref)
    (hv : (s.icache i).valid = true)
    (ht : (s.icache i).din.type = tDir ∨ (s.icache i).din.type = tFile)
    (hoff : off ≤ (s.icache i).din.size.toNat) (hmax : off + src.length ≤ maxfile * bsize)
    (hs : State.writeLoop i src.length off src s = some s₁)
    (hs' : s' = s₁.extend i (off + src.length) src.length) :
    ∃ x, Back s₁ s' i x ∧ Replaced s s' (s.icache i).inum x ∧ x.type = (s.icache i).din.type ∧
      x.size.toNat = max (s.icache i).din.size.toNat (off + src.length) ∧
      content s'.disk x = overwrite (content s.disk (s.icache i).din) off src := by
  have hle := le_blocks_mul (s.icache i).din.size.toNat
  have hend : maxfile * bsize = 71680 := rfl
  obtain ⟨hopen, hgrown, hfilled, hbytes, hsame⟩ := (h.open href hv).writeLoop
    (h.filled_of_valid href hv ht) (hoff.trans hle) le_rfl hs
  obtain ⟨x, hb, htype, haddrs, hsize⟩ := h.back_of_extend href hv hopen hgrown hoff (by omega)
    fun hfit ↦ hsame (hfit.trans hle)
  rw [← hs'] at hb
  have hxtype : x.type = (s.icache i).din.type := by
    obtain ⟨a, ha⟩ := hgrown.self
    rw [htype, ha]
    rfl
  have haddr : addr s₁.disk x = addr s₁.disk (s₁.icache i).din := addr_of_addrs haddrs
  rw [← blocks_max, ← hsize, ← haddr] at hfilled
  have hkeep : content s'.disk x = content s₁.disk x := by
    refine content_congr hfilled fun p hp ↦ hb.disk_of_mem ?_
    rw [haddr] at hp ⊢
    exact hopen.owned.exclusive.mem (k := ((s₁.icache i).inum, p))
      (own_eq_some.mpr (by rw [s₁.view_self]; exact ⟨hopen.inum, hopen.type, hp, rfl⟩))
  refine ⟨x, hb, h.replaced_of_grown href hv hgrown hb (hxtype ▸ ne_zero_of_type ht), hxtype,
    hsize, ?_⟩
  refine hkeep.trans (List.ext_getElem? fun y ↦ ?_)
  rw [getElem?_content, getElem?_overwrite (by rwa [length_content]), getElem?_content, hsize,
    haddr]
  by_cases hin : off ≤ y ∧ y < off + src.length
  · have hlt : y - off < src.length := by omega
    rw [if_pos hin, if_pos (lt_max_of_lt_right hin.2), hbytes y (Or.inr hin), if_pos hin,
      List.getD_eq_getElem _ _ hlt, List.getElem?_eq_getElem hlt]
  · have hiff : y < max (s.icache i).din.size.toNat (off + src.length) ↔
        y < (s.icache i).din.size.toNat := by omega
    rw [if_neg hin]
    simp only [hiff]
    split_ifs with hy
    · rw [hbytes y (Or.inl (hy.trans_le hle)), if_neg hin]
    · rfl

/-- What a write of `src` at `off` to the file of `i` leaves behind. -/
structure Written (s s' : State) (i : Fin ninode) (off : ℕ) (src : List UInt8) : Prop where
  file : s'.file (s.icache i).inum = overwrite (s.file (s.icache i).inum) off src
  size : (s'.icache i).din.size.toNat = max (s.icache i).din.size.toNat (off + src.length)
  disk : s'.ino (s.icache i).inum = (s'.icache i).din
  other : ∀ m < s.sb.ninodes.toNat, m ≠ (s.icache i).inum →
    s'.ino m = s.ino m ∧ s'.file m = s.file m
  cache : ∀ j, j ≠ i → s'.icache j = s.icache j

/-- The blocks that a write of `n` bytes at `off` has to allocate are there. -/
def State.Room (s : State) (i : Fin ninode) (off n : ℕ) : Prop :=
  need (blocks (max (s.icache i).din.size.toNat (off + n))) ≤
    need (blocks (s.icache i).din.size.toNat) + s.freeBlocks.card

theorem State.Room.mono {off' : ℕ} (h : s.Room i off' n) (hle : off ≤ off') : s.Room i off n :=
  (need_mono (blocks_mono (max_le_max_left _ (Nat.add_le_add_right hle n)))).trans h

theorem Inv.written (h : Inv s) (href : 0 < (s.icache i).ref) (hv : (s.icache i).valid = true)
    (hdev : (s.icache i).din.type ≠ tDev) (hoff : off ≤ (s.icache i).din.size.toNat)
    (hmax : off + src.length ≤ maxfile * bsize) (hroom : s.Room i off src.length) :
    ∃ s', s.writei dev i src off = some (some src.length, s') ∧ Written s s' i off src := by
  have hend : maxfile * bsize = 71680 := rfl
  have ht := h.type_of_valid href hv hdev
  have hopen := h.open href hv
  have hle := le_blocks_mul (s.icache i).din.size.toNat
  rw [State.Room, blocks_max] at hroom
  obtain ⟨s₁, hs₁⟩ := hopen.exists_writeLoop src.length src (h.filled_of_valid href hv ht)
    (hoff.trans hle) hmax hroom
  obtain ⟨x, hb, hr, htype, hsize, hcontent⟩ := h.content_of_writeLoop href hv ht hoff hmax hs₁ rfl
  obtain ⟨-, hgrown, -⟩ := hopen.writeLoop (h.filled_of_valid href hv ht) (hoff.trans hle) le_rfl
    hs₁
  have hself := hr.ino _ hopen.inum
  rw [update_self] at hself
  have hdin : s.ino (s.icache i).inum = (s.icache i).din := (h.copy i href hv).1.symm
  have hcopy : ((s₁.extend i (off + src.length) src.length).icache i).din = x := by
    rw [hb.icache, update_self]
    rfl
  refine ⟨_, ?_, ?_, by rw [hcopy, hsize], by rw [hself, hcopy],
    fun m hm hne ↦ hr.file_eq h hm hne, fun j hj ↦ ?_⟩
  · rw [State.writei, if_neg hdev, if_neg (by omega), if_neg (by omega), hs₁, Option.map_some]
  · rw [State.file_of_type (by rw [hself, htype]; exact ht), hself, hcontent,
      State.file_of_type (by rw [hdin]; exact ht), hdin]
  · rw [hb.icache, update_of_ne hj, hgrown.cache j hj]

/-- When a call returns `-1`. No block is allocated before. -/
theorem State.writei_fails_iff (hdev : (s.icache i).din.type ≠ tDev) :
    s.writei dev i src off = some (none, s) ↔ (s.icache i).din.size.toNat < off ∨
      2 ^ 32 ≤ off + src.length ∨ maxfile * bsize < off + src.length := by
  rw [State.writei, if_neg hdev]
  split_ifs with h₁ h₂
  · exact iff_of_true rfl (h₁.imp_right Or.inl)
  · exact iff_of_true rfl (Or.inr (Or.inr h₂))
  · refine iff_of_false (fun hs ↦ ?_) (by tauto)
    obtain ⟨s₁, -, heq⟩ := Option.map_eq_some_iff.mp hs
    cases heq

theorem State.readi_of_fails (hdev : (s.icache i).din.type ≠ tDev)
    (h : (s.icache i).din.size.toNat < off ∨ 2 ^ 32 ≤ off + n) :
    s.readi dev i off n = some (none, s) := by
  rw [State.readi, if_neg hdev, if_pos h]

theorem ninode_pos : 0 < ninode := by decide

/-- The root directory in the inode cache. -/
def smallOpen : State := small.setCache ⟨0, ninode_pos⟩ ⟨1, 1, true, rootInode⟩

theorem small_ino_one : small.ino 1 = rootInode := by
  have hblock : small.disk (iblock small.sb 1) =
      Block.setInode (fun _ ↦ 0) (islot 1) rootInode := rfl
  rw [State.ino, inodeAt, hblock, Block.inode_setInode, update_self]

theorem inv_smallOpen : Inv smallOpen :=
  (ownership_small.inv consistent_small).setCache (by decide) (fun _ _ h ↦ absurd h (lt_irrefl 0))
    fun _ ↦ ⟨small_ino_one.symm, by decide⟩

end Write

end SistemasOperacionais.Xv6.Fs
