import SistemasOperacionais.Xv6.Fs.Alloc

/-!
# Contents of files

`readi` returns the bytes of the file and changes nothing, and `writei` puts bytes into the file
that it is called for. It leaves the other files as they are, since no block has two owners.
-/

namespace SistemasOperacionais.Xv6.Fs

open Foundations Function

def blocks (size : ℕ) : ℕ := (size + (bsize - 1)) / bsize

/-- A byte of the file whose blocks are `f`. -/
def byteAt (d : Disk) (f : Pos → UInt32) (off : ℕ) : UInt8 :=
  (d (f (pos (off / bsize))).toNat).mem (off % bsize)

/-- `m` bytes of the file, from `off` on. -/
def bytes (d : Disk) (f : Pos → UInt32) (off m : ℕ) : List UInt8 :=
  (List.range m).map fun x ↦ byteAt d f (off + x)

/-- The entry at an offset of a directory. -/
def direntAt (d : Disk) (f : Pos → UInt32) (off : ℕ) : Dirent :=
  State.toDirent (bytes d f off 16)

section Arithmetic

variable {off m n size : ℕ}

theorem span_le (off m : ℕ) : State.span off m ≤ m := min_le_left ..

theorem span_pos (off : ℕ) (hm : 0 < m) : 0 < State.span off m := by
  have hlt := Nat.mod_lt off (show 0 < bsize by decide)
  exact lt_min hm (by omega)

theorem div_add_of_lt {x : ℕ} (hx : x < State.span off m) :
    (off + x) / bsize = off / bsize ∧ (off + x) % bsize = off % bsize + x := by
  have hlt : x < bsize - off % bsize := hx.trans_le (min_le_right ..)
  have hmod : off % bsize + x < bsize := by omega
  have heq : off + x = off % bsize + x + bsize * (off / bsize) := by
    have := Nat.mod_add_div off bsize
    omega
  constructor
  · rw [heq, Nat.add_mul_div_left _ _ (by decide), Nat.div_eq_of_lt hmod, Nat.zero_add]
  · rw [heq, Nat.add_mul_mod_self_left, Nat.mod_eq_of_lt hmod]

theorem le_blocks_mul (size : ℕ) : size ≤ blocks size * bsize := by
  rw [blocks, bsize]
  omega

theorem blocks_le_of_le (h : off ≤ n * bsize) : blocks off ≤ n := by
  rw [bsize] at h
  rw [blocks, bsize]
  omega

theorem blocks_mono (h : off ≤ m) : blocks off ≤ blocks m :=
  Nat.div_le_div_right (Nat.add_le_add_right h _)

theorem blocks_max (off m : ℕ) : blocks (max off m) = max (blocks off) (blocks m) :=
  Monotone.map_max fun _ _ ↦ blocks_mono

theorem lt_blocks (h : off < m) : off / bsize + 1 ≤ blocks m := by
  rw [blocks, bsize]
  omega

end Arithmetic

/-! ## `readi` -/

section Read

variable {s : State} {i : Fin ninode} {n m off fuel : ℕ}

@[simp] theorem length_bytes {d : Disk} {f : Pos → UInt32} : (bytes d f off m).length = m := by
  rw [bytes, List.length_map, List.length_range]

theorem bytes_split {d : Disk} {f : Pos → UInt32} (h : n ≤ m) :
    bytes d f off m = bytes d f off n ++ bytes d f (off + n) (m - n) := by
  obtain ⟨k, rfl⟩ := Nat.exists_eq_add_of_le h
  rw [Nat.add_sub_cancel_left, bytes, List.range_add, List.map_append, List.map_map, bytes, bytes]
  simp only [Function.comp_def, Nat.add_assoc]

theorem State.slice_eq {f : Pos → UInt32} (h : n ≤ State.span off m) :
    State.slice (s.disk (f (pos (off / bsize))).toNat) (off % bsize) n = bytes s.disk f off n := by
  refine List.map_congr_left fun x hx ↦ ?_
  obtain ⟨hdiv, hmod⟩ := div_add_of_lt ((List.mem_range.mp hx).trans_le h)
  rw [byteAt, hdiv, hmod]

theorem State.readLoop_eq (hf : Filled (addr s.disk (s.icache i).din) n)
    (hoff : off + m ≤ n * bsize) (hfuel : m ≤ fuel) : State.readLoop i fuel off m s =
      some (bytes s.disk (addr s.disk (s.icache i).din) off m, s) := by
  induction fuel generalizing off m with
  | zero =>
    obtain rfl : m = 0 := Nat.le_zero.mp hfuel
    rfl
  | succ fuel ih =>
    rw [State.readLoop]
    split_ifs with hm
    · rw [hm]
      rfl
    · have hpos := span_pos off (Nat.pos_of_ne_zero hm)
      have hle := span_le off m
      have hk : off / bsize < n := Nat.div_lt_of_lt_mul (by rw [Nat.mul_comm]; omega)
      rw [State.bmap_of_filled hf hk, Option.bind_some]
      simp only
      rw [ih (by omega) (by omega), Option.map_some, State.slice_eq le_rfl, bytes_split hle]

theorem State.readi_eq {dev : Devsw} (htype : (s.icache i).din.type ≠ tDev)
    (hf : Filled (addr s.disk (s.icache i).din) (blocks (s.icache i).din.size.toNat))
    (hoff : off ≤ (s.icache i).din.size.toNat) (hm : off + m < 2 ^ 32) : s.readi dev i off m =
      some (some (bytes s.disk (addr s.disk (s.icache i).din) off
        (min m ((s.icache i).din.size.toNat - off))), s) := by
  have hle := le_blocks_mul (s.icache i).din.size.toNat
  rw [State.readi, if_neg htype, if_neg (by omega),
    State.readLoop_eq hf (by omega) (min_le_left ..), Option.map_some]

theorem State.scan_eq {dev : Devsw} {test : Dirent → Bool} {r : ℕ × Option Dirent} {s' : State}
    (htype : (s.icache i).din.type = tDir)
    (hf : Filled (addr s.disk (s.icache i).din) (blocks (s.icache i).din.size.toNat))
    (hs : State.scan dev i test fuel off s = some (r, s')) :
    s' = s ∧ r.1 % 16 = off % 16 ∧ ∀ e ∈ r.2, test e = true ∧
      r.1 + 16 ≤ (s.icache i).din.size.toNat ∧
      e = direntAt s.disk (addr s.disk (s.icache i).din) r.1 := by
  induction fuel generalizing off with
  | zero =>
    obtain ⟨rfl, rfl⟩ := Prod.mk.inj (Option.some.inj hs)
    exact ⟨rfl, rfl, nofun⟩
  | succ fuel ih =>
    rw [State.scan] at hs
    split_ifs at hs with hoff
    · have hsize := (le_blocks_mul (s.icache i).din.size.toNat).trans (Nat.mul_le_mul_right _ hf.le)
      have hmax : maxfile * bsize = 71680 := rfl
      rw [State.readi_eq (by rw [htype]; decide) hf hoff.le (by omega), Option.bind_some] at hs
      simp only [length_bytes] at hs
      split_ifs at hs with hlen htest
      · obtain ⟨rfl, rfl⟩ := Prod.mk.inj (Option.some.inj hs)
        have hmin : min 16 ((s.icache i).din.size.toNat - off) = 16 := not_not.mp hlen
        rw [hmin] at htest ⊢
        refine ⟨rfl, rfl, ?_⟩
        rintro e ⟨⟩
        exact ⟨htest, by omega, rfl⟩
      · obtain ⟨rfl, hmod, he⟩ := ih hs
        exact ⟨rfl, by omega, he⟩
    · obtain ⟨rfl, rfl⟩ := Prod.mk.inj (Option.some.inj hs)
      exact ⟨rfl, rfl, nofun⟩

end Read

/-! ## Files as lists of bytes -/

/-- The bytes of the file of an inode. -/
def content (d : Disk) (a : Dinode) : List UInt8 := bytes d (addr d a) 0 a.size.toNat

section Bytes

variable {d d' : Disk} {a : Dinode} {off y : ℕ} {src : List UInt8}

@[simp] theorem length_content (d : Disk) (a : Dinode) : (content d a).length = a.size.toNat :=
  length_bytes

theorem content_congr (hf : Filled (addr d a) (blocks a.size.toNat))
    (h : ∀ p, addr d a p ≠ 0 → d' (addr d a p).toNat = d (addr d a p).toNat) :
    content d' a = content d a := by
  have haddr : addr d' a = addr d a := addr_congr (h (.direct last))
  rw [content, content, haddr, bytes, bytes]
  refine List.map_congr_left fun y hy ↦ ?_
  have hlt := lt_blocks (List.mem_range.mp hy)
  rw [Nat.zero_add, byteAt, byteAt, h _ ((hf.block _ (hlt.trans hf.le)).mpr hlt)]

theorem getElem?_content :
    (content d a)[y]? = if y < a.size.toNat then some (byteAt d (addr d a) y) else none := by
  rw [content, bytes, List.getElem?_map]
  split_ifs with h
  · rw [List.getElem?_range h, Option.map_some, Nat.zero_add]
  · rw [List.getElem?_eq_none (by rw [List.length_range]; omega), Option.map_none]

theorem take_drop_content {n : ℕ} (hoff : off ≤ a.size.toNat) :
    ((content d a).drop off).take n = bytes d (addr d a) off (min n (a.size.toNat - off)) := by
  rw [content, bytes_split hoff, List.drop_left' length_bytes, Nat.zero_add, bytes, bytes,
    ← List.map_take, List.take_range]

/-- `src` over the bytes from `off` on, and behind them. -/
def overwrite (bs : List UInt8) (off : ℕ) (src : List UInt8) : List UInt8 :=
  bs.take off ++ src ++ bs.drop (off + src.length)

theorem getElem?_overwrite {bs : List UInt8} (hoff : off ≤ bs.length) : (overwrite bs off src)[y]? =
    if off ≤ y ∧ y < off + src.length then src[y - off]? else bs[y]? := by
  rw [overwrite, List.getElem?_append, List.getElem?_append, List.length_append, List.length_take,
    min_eq_left hoff]
  split_ifs with h₁ h₂ h₃ h₄ h₅
  · omega
  · exact List.getElem?_take_of_lt h₂
  · rfl
  · omega
  · omega
  · rw [List.getElem?_drop]
    congr 1
    omega

end Bytes

/-! ## `writei` -/

section Write

variable {s s₁ s' : State} {i : Fin ninode} {n m k c off fuel : ℕ} {p : Pos} {x : Block}
  {src : List UInt8} {a : UInt32}

theorem State.mem_splice {b : Block} {o j : ℕ} (h : o + src.length ≤ bsize) :
    (State.splice b o src).mem j =
      if o ≤ j ∧ j < o + src.length then src.getD (j - o) 0 else b.mem j := by
  by_cases hj : j < bsize
  · rw [Xv6.Block.mem, dif_pos hj, Xv6.Block.mem, dif_pos hj, State.splice]
    simp only
    by_cases hlo : o ≤ j
    · rw [if_pos hlo]
      by_cases hhi : j < o + src.length
      · have hlt : j - o < src.length := by omega
        rw [if_pos ⟨hlo, hhi⟩, List.getD_eq_getElem _ _ hlt, List.getD_eq_getElem _ _ hlt]
      · rw [if_neg fun h ↦ hhi h.2, List.getD_eq_default _ _ (by omega)]
    · rw [if_neg hlo, if_neg fun h ↦ hlo h.1]
  · rw [Xv6.Block.mem, dif_neg hj, Xv6.Block.mem, dif_neg hj, if_neg (by omega)]

theorem Open.write (h : Open s i)
    (hc : own s.sb s.disk (s.view i) ((s.icache i).inum, p) = some c) (hp : p ≠ .direct last) :
    Open (s.logWrite c x) i ∧ Grown (·.1 ≠ (s.icache i).inum) s (s.logWrite c x) i ∧
      addr (s.logWrite c x).disk (s.icache i).din = addr s.disk (s.icache i).din := by
  have hle := (h.owned.exclusive.mem hc).2.1
  have hino (n : ℕ) (hn : n < s.sb.ninodes.toNat) : (s.logWrite c x).ino n = s.ino n :=
    State.ino_logWrite h.geometry hle hn
  have haddr (n : ℕ) (hn : n < s.sb.ninodes.toNat) (ht : (s.view i n).type ≠ 0) :
      addr (s.logWrite c x).disk (s.view i n) = addr s.disk (s.view i n) := by
    refine addr_congr fun h0 ↦ update_of_ne (fun heq ↦ ?_) ..
    have hown : own s.sb s.disk (s.view i) (n, .direct last) = some c :=
      own_eq_some.mpr ⟨hn, ht, h0, heq⟩
    exact hp (Prod.mk.inj (h.owned.exclusive.inj hc hown)).2
  have hview (n : ℕ) (hn : n < s.sb.ninodes.toNat) : (s.logWrite c x).view i n = s.view i n := by
    obtain rfl | hne := eq_or_ne n (s.icache i).inum
    · exact (update_self ..).trans (s.view_self i).symm
    · rw [State.view, State.view]
      exact (update_of_ne hne ..).trans ((hino n hn).trans (update_of_ne hne ..).symm)
  have hown : own s.sb (s.logWrite c x).disk ((s.logWrite c x).view i) =
      own s.sb s.disk (s.view i) := own_congr fun n hn ↦
        ⟨by rw [hview n hn], fun ht ↦ by rw [hview n hn, haddr n hn ht]⟩
  have hused (k : ℕ) (hk : k < s.sb.size.toNat) :
      used s.sb (s.logWrite c x).disk k = used s.sb s.disk k := State.used_logWrite hle hk
  refine ⟨⟨h.geometry, h.inum, h.type, ?_, ?_, ?_⟩, ⟨rfl, fun _ _ ↦ rfl,
    ⟨(s.icache i).din.addrs, rfl⟩, hino, State.super_logWrite h.geometry hle,
    fun y k hy ↦ ?_, fun y k hP hy ↦ update_of_ne (fun heq ↦ hP ?_) ..⟩, ?_⟩
  · exact (hino _ h.inum).symm ▸ h.disk
  · intro k hk
    exact (hused k (hk.trans_le h.geometry.data)).trans (h.owned.metadata k hk)
  · change Exclusive (Marked s.sb (s.logWrite c x).disk) (own s.sb _ _)
    rw [hown, marked_congr hused]
    exact h.owned.exclusive
  · exact (congrFun hown y).trans hy
  · rw [heq] at hy
    exact (congrArg Prod.fst (h.owned.exclusive.inj hy hc))
  · have heq := haddr _ h.inum (by rw [s.view_self]; exact h.type)
    rwa [s.view_self] at heq

/-- One round of the loop of `writei`. -/
theorem Open.round (h : Open s i) (hf : Filled (addr s.disk (s.icache i).din) n)
    (hoff : off ≤ n * bsize) (hm : m = State.span off src.length)
    (hs : s.bmap i (off / bsize) = some (a, s₁))
    (hs' : s' = s₁.logWrite a.toNat (State.splice (s₁.disk a.toNat) (off % bsize) (src.take m))) :
    Open s' i ∧ Grown (·.1 ≠ (s.icache i).inum) s s' i ∧
      Filled (addr s'.disk (s'.icache i).din) (max n (off / bsize + 1)) ∧
      (∀ y, y < n * bsize ∨ off ≤ y ∧ y < off + m →
        byteAt s'.disk (addr s'.disk (s'.icache i).din) y =
          if off ≤ y ∧ y < off + m then src.getD (y - off) 0
          else byteAt s.disk (addr s.disk (s.icache i).din) y) ∧
      (off / bsize < n → s'.icache = s.icache) := by
  have hk : off / bsize ≤ n := Nat.div_le_of_le_mul (by rwa [Nat.mul_comm])
  obtain ⟨hopen, hgrown, ha, hmax, haddr, hfilled⟩ := h.bmap hf hk hs
  have hinum := hgrown.inum_eq
  have hown : own s₁.sb s₁.disk (s₁.view i) ((s₁.icache i).inum, pos (off / bsize)) =
      some a.toNat := by
    rw [own_eq_some, s₁.view_self, haddr]
    exact ⟨hopen.inum, hopen.type, ha, rfl⟩
  obtain ⟨hopen', hgrown', haddr'⟩ := hopen.write (x := State.splice (s₁.disk a.toNat) (off % bsize)
    (src.take m)) hown (pos_ne_last _)
  rw [← hs'] at hopen' hgrown' haddr'
  have hdin : (s'.icache i).din = (s₁.icache i).din := by rw [hs']; rfl
  rw [hinum] at hgrown'
  have hsame (hlt : off / bsize < n) : s₁ = s := by
    rw [State.bmap_of_filled hf hlt] at hs
    exact (Prod.mk.inj (Option.some.inj hs)).2.symm
  refine ⟨hopen', (hgrown.mono fun x hx heq ↦ hx (by rw [heq])).trans hgrown', ?_, fun y hy ↦ ?_,
    fun hlt ↦ by rw [hs', hsame hlt]; rfl⟩
  · rw [hdin, haddr']
    exact hfilled
  · have hlen : (src.take m).length = m := by
      rw [List.length_take, hm]
      exact min_eq_left (span_le ..)
    have hfit : off % bsize + (src.take m).length ≤ bsize := by
      have hle : m ≤ bsize - off % bsize := hm ▸ min_le_right ..
      have hlt := Nat.mod_lt off (show 0 < bsize by decide)
      omega
    have hrange (hy : off ≤ y ∧ y < off + m) :
        y / bsize = off / bsize ∧ y % bsize = off % bsize + (y - off) := by
      have hx : y - off < State.span off src.length := by omega
      have heq := div_add_of_lt hx
      rwa [Nat.add_sub_cancel' hy.1] at heq
    rw [byteAt, hdin, haddr']
    obtain hdiv | hdiv := eq_or_ne (y / bsize) (off / bsize)
    · have hdisk : s'.disk a.toNat = State.splice (s₁.disk a.toNat) (off % bsize) (src.take m) := by
        rw [hs']
        exact update_self ..
      rw [hdiv, haddr, hdisk, State.mem_splice hfit, hlen]
      by_cases hin : off ≤ y ∧ y < off + m
      · obtain ⟨-, hmod⟩ := hrange hin
        rw [if_pos hin, if_pos (by omega), hmod, Nat.add_sub_cancel_left]
        rw [List.getD_eq_getElem?_getD, List.getElem?_take_of_lt (by omega),
          List.getD_eq_getElem?_getD]
      · have hout : ¬(off % bsize ≤ y % bsize ∧ y % bsize < off % bsize + m) := by
          have hy' := Nat.div_add_mod y bsize
          have hoff' := Nat.div_add_mod off bsize
          rw [hdiv] at hy'
          omega
        have hlt : off / bsize < n := by
          rw [← hdiv]
          exact Nat.div_lt_of_lt_mul (by rw [Nat.mul_comm]; exact hy.resolve_right hin)
        obtain rfl := hsame hlt
        rw [if_neg hin, if_neg hout, byteAt, hdiv, haddr]
    · -- another block of the file
      have hin : ¬(off ≤ y ∧ y < off + m) := fun hin ↦ hdiv (hrange hin).1
      have hlt : y / bsize < n :=
        Nat.div_lt_of_lt_mul (by rw [Nat.mul_comm]; exact hy.resolve_right hin)
      have hmax' : y / bsize < maxfile := hlt.trans_le hf.le
      have hne : pos (y / bsize) ≠ pos (off / bsize) := fun heq ↦ hdiv (pos_inj hmax' hmax heq)
      obtain ⟨c, hc⟩ : ∃ c, own s.sb s.disk (s.view i) ((s.icache i).inum, pos (y / bsize)) =
          some c ∧ (addr s.disk (s.icache i).din (pos (y / bsize))).toNat = c := by
        refine ⟨_, ?_, rfl⟩
        rw [own_eq_some, s.view_self]
        exact ⟨h.inum, h.type, (hf.block _ hmax').mpr hlt, rfl⟩
      have hsub := hgrown.sub _ _ hc.1
      have hkeep := hgrown.keep _ _ (fun heq ↦ pos_ne_last _ (Prod.mk.inj heq).2) hc.1
      rw [← hinum] at hsub
      have hca : c ≠ a.toNat := fun heq ↦
        hne (Prod.mk.inj (hopen.owned.exclusive.inj (heq ▸ hsub) hown)).2
      rw [own_eq_some, s₁.view_self] at hsub
      rw [if_neg hin, byteAt, hsub.2.2.2, hc.2, hs']
      congr 1
      exact (update_of_ne hca ..).trans hkeep

theorem add_span_le (off m : ℕ) : off + State.span off m ≤ (off / bsize + 1) * bsize := by
  have hle : State.span off m ≤ bsize - off % bsize := min_le_right ..
  have hlt := Nat.mod_lt off (show 0 < bsize by decide)
  have hoff := Nat.div_add_mod off bsize
  rw [Nat.add_mul, Nat.one_mul, Nat.mul_comm]
  omega

/-- A round of the loop, with the bytes that are left after it. -/
theorem span_round (n off : ℕ) (hsrc : src ≠ []) :
    (0 < State.span off src.length ∧ State.span off src.length ≤ src.length) ∧
      off + State.span off src.length ≤ max n (off / bsize + 1) * bsize ∧
      off + State.span off src.length + (src.drop (State.span off src.length)).length =
        off + src.length ∧
      off / bsize + 1 ≤ blocks (off + src.length) := by
  have hlen : 0 < src.length := List.length_pos_iff.mpr hsrc
  have hle := span_le off src.length
  refine ⟨⟨span_pos off hlen, hle⟩, ?_, ?_, lt_blocks (Nat.lt_add_of_pos_right hlen)⟩
  · exact (add_span_le ..).trans (Nat.mul_le_mul_right _ (le_max_right ..))
  · rw [List.length_drop]
    omega

theorem Open.writeLoop (h : Open s i) (hf : Filled (addr s.disk (s.icache i).din) n)
    (hoff : off ≤ n * bsize) (hfuel : src.length ≤ fuel)
    (hs : State.writeLoop i fuel off src s = some s') :
    Open s' i ∧ Grown (·.1 ≠ (s.icache i).inum) s s' i ∧
      Filled (addr s'.disk (s'.icache i).din) (max n (blocks (off + src.length))) ∧
      (∀ y, y < n * bsize ∨ off ≤ y ∧ y < off + src.length →
        byteAt s'.disk (addr s'.disk (s'.icache i).din) y =
          if off ≤ y ∧ y < off + src.length then src.getD (y - off) 0
          else byteAt s.disk (addr s.disk (s.icache i).din) y) ∧
      (off + src.length ≤ n * bsize → s'.icache = s.icache) := by
  have hnil {s : State} {n off : ℕ} (h : Open s i)
      (hf : Filled (addr s.disk (s.icache i).din) n) (hoff : off ≤ n * bsize) :
      Open s i ∧ Grown (·.1 ≠ (s.icache i).inum) s s i ∧
      Filled (addr s.disk (s.icache i).din) (max n (blocks (off + 0))) ∧
      (∀ y, y < n * bsize ∨ off ≤ y ∧ y < off + 0 →
        byteAt s.disk (addr s.disk (s.icache i).din) y =
          if off ≤ y ∧ y < off + 0 then ([] : List UInt8).getD (y - off) 0
          else byteAt s.disk (addr s.disk (s.icache i).din) y) ∧
      (off + 0 ≤ n * bsize → s.icache = s.icache) := by
    rw [Nat.add_zero, max_eq_left (blocks_le_of_le hoff)]
    exact ⟨h, .refl, hf, fun y _ ↦ by rw [if_neg (by omega)], fun _ ↦ rfl⟩
  induction fuel generalizing off src s n with
  | zero =>
    obtain rfl : src = [] := List.length_eq_zero_iff.mp (Nat.le_zero.mp hfuel)
    obtain rfl := Option.some.inj hs
    exact hnil h hf hoff
  | succ fuel ih =>
    rw [State.writeLoop] at hs
    split_ifs at hs with hsrc
    · subst hsrc
      obtain rfl := Option.some.inj hs
      exact hnil h hf hoff
    · obtain ⟨⟨hpos, hle⟩, hend, hsum, hblocks⟩ := span_round n off hsrc
      obtain ⟨⟨a, s₁⟩, hs₁, hs⟩ := Option.bind_eq_some_iff.mp hs
      obtain ⟨hopen, hgrown, hfilled, hbytes, hsame⟩ := h.round hf hoff rfl hs₁ rfl
      have hn : n * bsize ≤ max n (off / bsize + 1) * bsize :=
        Nat.mul_le_mul_right _ (le_max_left ..)
      obtain ⟨hopen', hgrown', hfilled', hbytes', hsame'⟩ := ih hopen hfilled hend (by omega) hs
      rw [hsum] at hfilled' hbytes' hsame'
      rw [hgrown.inum_eq] at hgrown'
      refine ⟨hopen', hgrown.trans hgrown', ?_, fun y hy ↦ ?_, fun hfit ↦ ?_⟩
      · rwa [max_assoc, max_eq_right hblocks] at hfilled'
      · rw [hbytes' y (by omega)]
        by_cases hin : off + State.span off src.length ≤ y ∧ y < off + src.length
        · rw [if_pos hin, if_pos (by omega), List.getD_eq_getElem?_getD, List.getElem?_drop,
            List.getD_eq_getElem?_getD]
          congr 2
          omega
        · rw [if_neg hin, hbytes y (by omega)]
          by_cases hin' : off ≤ y ∧ y < off + State.span off src.length
          · rw [if_pos hin', if_pos (by omega)]
          · rw [if_neg hin', if_neg (by omega)]
      · have hlt : off / bsize < n := Nat.div_lt_of_lt_mul (by rw [Nat.mul_comm]; omega)
        rw [hsame' (by omega), hsame hlt]

end Write

end SistemasOperacionais.Xv6.Fs
