import SistemasOperacionais.Foundations.Outcome
import SistemasOperacionais.Xv6.Mkfs.Append

/-!
# The image

What the image holds while `mkfs` works: the root directory and the files, one after the other, each
in the blocks that its size needs. The kernel could use the image at any time, so its own invariant
is part of what every step keeps. Only the last change of the size of the root directory can break
it.
-/

namespace SistemasOperacionais.Xv6.Mkfs

open Foundations Function Fs

theorem append_writei {k k₁ : Fs.State} {i : Fin ninode} {src : List UInt8} {x : Dinode}
    (dev : Devsw) (h : Inv k) (href : 0 < (k.icache i).ref) (hv : (k.icache i).valid = true)
    (htype : (k.icache i).din.type = tDir ∨ (k.icache i).din.type = tFile) (hsrc : src ≠ [])
    (hmax : (k.icache i).din.size.toNat + src.length ≤ maxfile * bsize)
    (hs : Fs.State.writeLoop i src.length (k.icache i).din.size.toNat src k = some k₁)
    (hx : x = (k₁.icache i).din.withSize (.ofNat ((k.icache i).din.size.toNat + src.length))) :
    k.writei dev i src (k.icache i).din.size.toNat =
        some (some src.length, (k₁.setDin i x).iupdate i) ∧
      Replaced k ((k₁.setDin i x).iupdate i) (k.icache i).inum x ∧
      x.type = (k.icache i).din.type ∧
      content ((k₁.setDin i x).iupdate i).disk x = content k.disk (k.icache i).din ++ src := by
  have hlen := List.length_pos_iff.mpr hsrc
  have hdev : (k.icache i).din.type ≠ tDev := by
    rcases htype with h' | h'
    · rw [h']
      decide
    · rw [h']
      decide
  have hend : maxfile * bsize = 71680 := rfl
  obtain ⟨hopen, hgrown, -⟩ := (h.open href hv).writeLoop (h.filled_of_valid href hv htype)
    (le_blocks_mul _) le_rfl hs
  obtain ⟨a, ha⟩ := hgrown.self
  have hsize : (k₁.icache i).din.size = (k.icache i).din.size := by rw [ha]; rfl
  have hext : k₁.extend i ((k.icache i).din.size.toNat + src.length) src.length =
      (k₁.setDin i x).iupdate i := by
    rw [Fs.State.extend, if_pos ⟨hlen, by rw [hsize]; omega⟩, ← hx]
  obtain ⟨x', hb, hr, hxtype, -, hcontent⟩ :=
    h.content_of_writeLoop href hv htype le_rfl hmax hs hext.symm
  -- the inode that has been written back is `x`
  obtain rfl : x' = x := by
    have hb' : Back k₁ ((k₁.setDin i x).iupdate i) i x := .of_iupdate hopen.geometry hopen.inum
    have hcache := congrFun (hb.icache.symm.trans hb'.icache) i
    rw [update_self, update_self] at hcache
    exact congrArg Inode.din hcache
  refine ⟨?_, hr, hxtype, ?_⟩
  · rw [Fs.State.writei, if_neg hdev, if_neg (by omega), if_neg (by omega), hs, Option.map_some,
      hext]
  · rw [hcontent, overwrite, List.take_of_length_le (by rw [length_content]),
      List.drop_eq_nil_of_le (by rw [length_content]; omega), List.append_nil]

/-- The blocks that the files `l` and the metadata take. -/
def total (l : List (List UInt8)) : ℕ := nmeta + (l.map fun c ↦ need (blocks c.length)).sum

theorem total_append (l₁ l₂ : List (List UInt8)) (c : List UInt8) :
    total (l₁ ++ c :: l₂) = total (l₁ ++ l₂) + need (blocks c.length) := by
  simp only [total, List.map_append, List.map_cons, List.sum_append, List.sum_cons]
  omega

/-- The files `l` are not too long, and there are blocks for all of them. -/
structure Fits (l : List (List UInt8)) : Prop where
  length : ∀ c ∈ l, c.length ≤ maxfile * bsize
  blocks : total l ≤ fssize

theorem Fits.of_append {l₁ l₂ : List (List UInt8)} {c x : List UInt8}
    (h : Fits (l₁ ++ (c ++ x) :: l₂)) : Fits (l₁ ++ c :: l₂) := by
  have hle : c.length ≤ (c ++ x).length := by
    rw [List.length_append]
    exact Nat.le_add_right ..
  constructor
  · intro y hy
    rw [List.mem_append, List.mem_cons] at hy
    obtain hy | rfl | hy := hy
    · exact h.length y (List.mem_append_left _ hy)
    · exact hle.trans (h.length _ (List.mem_append_right _ List.mem_cons_self))
    · exact h.length y (List.mem_append_right _ (List.mem_cons_of_mem _ hy))
  · have hblocks := h.blocks
    have hneed := need_mono (blocks_mono hle)
    rw [total_append] at hblocks ⊢
    omega

/-! ## Inodes -/

theorem ninodes_sb : sb.ninodes.toNat = ninodes := by decide

def noInode : Dinode := ⟨0, 0, 0, 0, 0, fun _ ↦ 0⟩

theorem addr_noInode (d : Disk) (p : Pos) : addr d noInode p = 0 := by
  cases p with
  | direct j => rfl
  | entry e => rw [addr, noInode, if_pos rfl]

namespace State

variable (s : State)

def ino : ℕ → Dinode := inodeAt sb s.sealed

def setInode (n : ℕ) (x : Dinode) : State :=
  let buf := Block.setInode (s.sect (iblock sb n)) (islot n) x
  { s with sect := update s.sect (iblock sb n) buf }

/-- The kernel on the image, with nothing in its cache. -/
def kernel : Fs.State := ⟨sb, s.sealed, fun _ ↦ ⟨0, 0, false, noInode⟩, []⟩

/-- The kernel with inode `n` in its cache. -/
def opened (n : ℕ) : Fs.State := s.kernel.setCache slot ⟨n, 1, true, s.ino n⟩

variable {s} {inum : UInt32} {n : ℕ} {x : Dinode}

theorem iblock_lt (hn : n < ninodes) : iblock sb n < sb.bmapstart.toNat :=
  geometry_sb.iblock_lt (ninodes_sb ▸ hn)

theorem toNat_iblock (hn : n < ninodes) : (UInt32.ofNat (iblock sb n)).toNat = iblock sb n :=
  UInt32.toNat_ofNat_of_lt' ((iblock_lt hn).trans (by decide))

theorem sealed_iblock (hn : n < ninodes) : s.sealed (iblock sb n) = s.sect (iblock sb n) :=
  sealed_of_ne (iblock_lt hn).ne

theorem rsect_iblock (hlen : s.len = fssize) (hn : n < ninodes) :
    s.rsect (.ofNat (iblock sb n)) = some (s.sect (iblock sb n)) := by
  have hlt : iblock sb n < fssize := (iblock_lt hn).trans (by decide)
  rw [rsect_eq hlen, toNat_iblock hn, if_pos hlt]
  rw [toNat_iblock hn]
  exact hlt.le

theorem rinode_eq (hlen : s.len = fssize) (hn : inum.toNat < ninodes) :
    s.rinode inum = some (s.ino inum.toNat) := by
  rw [rinode, rsect_iblock hlen hn, Option.map_some, ino, inodeAt, sealed_iblock hn]

theorem winode_eq (hlen : s.len = fssize) (hn : inum.toNat < ninodes) :
    s.winode inum x = some (s.setInode inum.toNat x) := by
  have hlt : iblock sb inum.toNat < fssize := (iblock_lt hn).trans (by decide)
  rw [winode, rsect_iblock hlen hn, Option.map_some, wsect_eq hlen, toNat_iblock hn, setInode]
  rwa [toNat_iblock hn]

theorem sealed_setInode (hn : n < ninodes) : (s.setInode n x).sealed =
    update s.sealed (iblock sb n) (Block.setInode (s.sealed (iblock sb n)) (islot n) x) := by
  rw [sealed_iblock hn]
  exact update_comm (iblock_lt hn).ne ..

/-! ### Only `ialloc` changes `freeinode` -/

variable {s' : State} {y : Dinode} {a b : UInt32} {fbn off off' fuel : ℕ} {e : Fin 128}
  {src : List UInt8}

theorem freeinode_direct (j : Fin 13) : (s.direct x j).2.freeinode = s.freeinode := by
  rw [direct]
  split_ifs
  · rfl
  · rfl

theorem freeinode_entry (hs : s.entry a e = some (b, s')) : s'.freeinode = s.freeinode := by
  obtain ⟨indirect, -, heq⟩ := Option.map_eq_some_iff.mp hs
  split_ifs at heq
  · obtain ⟨-, rfl⟩ := Prod.mk.inj heq
    rfl
  · obtain ⟨-, rfl⟩ := Prod.mk.inj heq
    rfl

theorem freeinode_place (hs : s.place x fbn = some (a, y, s')) : s'.freeinode = s.freeinode := by
  rw [place] at hs
  split_ifs at hs
  · obtain ⟨-, heq⟩ := Prod.mk.inj (Option.some.inj hs)
    have hs' : (s.direct x _).2 = s' := congrArg Prod.snd heq
    rw [← hs']
    exact freeinode_direct _
  · obtain ⟨⟨b, t⟩, ht, heq⟩ := Option.map_eq_some_iff.mp hs
    obtain ⟨-, heq⟩ := Prod.mk.inj heq
    obtain ⟨-, rfl⟩ := Prod.mk.inj heq
    exact (freeinode_entry ht).trans (freeinode_direct _)

theorem freeinode_appendLoop (hs : appendLoop fuel off src x s = some (off', y, s')) :
    s'.freeinode = s.freeinode := by
  induction fuel generalizing off src x s with
  | zero =>
    obtain ⟨-, heq⟩ := Prod.mk.inj (Option.some.inj hs)
    exact congrArg freeinode (Prod.mk.inj heq).2.symm
  | succ fuel ih =>
    rw [appendLoop] at hs
    split_ifs at hs with hsrc
    · obtain ⟨-, heq⟩ := Prod.mk.inj (Option.some.inj hs)
      exact congrArg freeinode (Prod.mk.inj heq).2.symm
    · obtain ⟨⟨a, z, t⟩, hplace, hs⟩ := Option.bind_eq_some_iff.mp hs
      obtain ⟨buf, -, hs⟩ := Option.bind_eq_some_iff.mp hs
      have hfree : t.freeinode = s.freeinode := freeinode_place hplace
      exact (ih hs).trans hfree

end State

/-! ## Steps -/

/-- What `ialloc` is called with for the `n`th file. -/
def fileType (n : ℕ) : UInt16 := if n = 0 then tDir else tFile

theorem fileType_cases (n : ℕ) : fileType n = tDir ∨ fileType n = tFile := by
  rw [fileType]
  split_ifs
  · exact Or.inl rfl
  · exact Or.inr rfl

/-- The image holds the files `l`, as inodes from the first one on. -/
structure Holds (s : State) (l : List (List UInt8)) : Prop where
  len : s.len = fssize
  le : s.freeblock.toNat ≤ fssize
  zero : ∀ b, s.freeblock.toNat ≤ b → s.sect b = fun _ ↦ 0
  inv : Inv s.kernel
  inodes : l.length < ninodes
  freeinode : s.freeinode.toNat = l.length + 1
  free : ∀ n < ninodes, n = 0 ∨ l.length < n → s.ino n = noInode
  file : ∀ n (hn : n < l.length), (s.ino (n + 1)).type = fileType n ∧
    content s.sealed (s.ino (n + 1)) = l.get ⟨n, hn⟩
  total : s.freeblock.toNat = total l

namespace Holds

variable {s s' : State} {l l₁ l₂ : List (List UInt8)} {c src : List UInt8} {n : ℕ} {inum : UInt32}

theorem type_ne_zero (h : Holds s l) (hn : n < l.length) : (s.ino (n + 1)).type ≠ 0 := by
  refine ne_zero_of_type ?_
  rw [(h.file n hn).1]
  exact fileType_cases n

theorem opened (h : Holds s l) (hn : n < l.length) :
    Inv (s.opened (n + 1)) ∧ Sim s (n + 1) (s.ino (n + 1)) (s.opened (n + 1)) := by
  have hlt := h.inodes
  have htotal := h.total
  refine ⟨h.inv.setCache (x := ⟨n + 1, 1, true, s.ino (n + 1)⟩) ?_
    (fun k _ hk ↦ absurd hk (lt_irrefl 0)) fun _ ↦ ⟨rfl, h.type_ne_zero hn⟩, h.len, h.le, ?_,
    h.zero, rfl, rfl, Fs.State.setCache_self⟩
  · change n + 1 < sb.ninodes.toNat
    rw [ninodes_sb]
    omega
  · rw [htotal, Mkfs.total]
    exact Nat.le_add_right ..

theorem size_eq (h : Holds s l) (hn : n < l.length) :
    (s.ino (n + 1)).size.toNat = (l.get ⟨n, hn⟩).length := by
  rw [← (h.file n hn).2, length_content]

/-- The file that `iappend` is called for, in the kernel. -/
theorem loop (h : Holds s (l₁ ++ c :: l₂)) :
    Open (s.opened (l₁.length + 1)) slot ∧
      Filled (addr (s.opened (l₁.length + 1)).disk (s.ino (l₁.length + 1))) (blocks c.length) ∧
      (s.ino (l₁.length + 1)).size.toNat = c.length ∧
      (s.ino (l₁.length + 1)).type = fileType l₁.length ∧
      content s.sealed (s.ino (l₁.length + 1)) = c := by
  have hlt : l₁.length < (l₁ ++ c :: l₂).length := by simp
  have hget : (l₁ ++ c :: l₂).get ⟨l₁.length, hlt⟩ = c := by simp
  obtain ⟨hinv, hsim⟩ := h.opened hlt
  obtain ⟨htype, hcontent⟩ := h.file _ hlt
  have hsize := h.size_eq hlt
  rw [hget] at hcontent hsize
  have href : 0 < ((s.opened (l₁.length + 1)).icache slot).ref := by
    rw [hsim.self]
    exact Nat.zero_lt_one
  have hv : ((s.opened (l₁.length + 1)).icache slot).valid = true := by rw [hsim.self]
  have hf := hinv.filled_of_valid href hv (by rw [hsim.din_eq, htype]; exact fileType_cases _)
  rw [hsim.din_eq, hsize] at hf
  exact ⟨hinv.open href hv, hf, hsize, htype, hcontent⟩

/-- `iappend` comes to its end if there is room. -/
theorem append (h : Holds s (l₁ ++ c :: l₂)) (hinum : inum.toNat = l₁.length + 1) (hsrc : src ≠ [])
    (hdir : l₁ = [] → c.length % 16 = 0 ∧
      ∃ e : Dirent, e.inum.toNat < ninodes ∧ src = Fs.State.ofDirent e)
    (hmax : c.length + src.length ≤ maxfile * bsize)
    (hroom : Mkfs.total (l₁ ++ (c ++ src) :: l₂) ≤ fssize) :
    ∃ s', s.iappend inum src = some s' ∧ Holds s' (l₁ ++ (c ++ src) :: l₂) := by
  have hlt : l₁.length < (l₁ ++ c :: l₂).length := by simp
  have hinodes := h.inodes
  obtain ⟨hinv, hsim⟩ := h.opened hlt
  obtain ⟨ho, hf, hsize, htype, hcontent⟩ := h.loop
  set n := l₁.length + 1 with hn
  have hnode : n < ninodes := by omega
  set k := s.opened n with hk
  have href : 0 < (k.icache slot).ref := by rw [hsim.self]; exact Nat.zero_lt_one
  have hv : (k.icache slot).valid = true := by rw [hsim.self]
  have hblocks : max (blocks c.length) (blocks (c.length + src.length)) =
      blocks (c.length + src.length) := max_eq_right (blocks_mono (Nat.le_add_right ..))
  have htotal := h.total
  rw [total_append] at htotal
  have hroom' := hroom
  rw [total_append, List.length_append] at hroom'
  obtain ⟨din', s₁, k₁, hs₁, hk₁, hsim₁, hcount⟩ := hsim.appendLoop ho hf (le_blocks_mul _) le_rfl
    hmax (by rw [hblocks]; omega)
  rw [hblocks] at hcount
  set x := din'.withSize (.ofNat (c.length + src.length)) with hx
  have hksize : (k.icache slot).din.size.toNat = c.length := by rw [hsim.din_eq, hsize]
  have hktype : (k.icache slot).din.type = fileType l₁.length := by rw [hsim.din_eq, htype]
  obtain ⟨hwrite, hr, hxtype, hxcontent⟩ := append_writei noDevices hinv href hv
    (by rw [hktype]; exact fileType_cases _) hsrc (by rwa [hksize]) (by rwa [hksize])
    (by rw [hksize, hsim₁.din_eq])
  have hentry (hd : (k.icache slot).din.type = tDir) : (k.icache slot).din.size.toNat % 16 = 0 ∧
      ∃ e : Dirent, e.inum.toNat < k.sb.ninodes.toNat ∧ src = Fs.State.ofDirent e := by
    rw [hktype, fileType] at hd
    split_ifs at hd with h0
    · rw [hksize, hsim.super, ninodes_sb]
      exact hdir (List.length_eq_zero_iff.mp h0)
    · exact absurd hd (by decide)
  obtain ⟨hinv', -⟩ := hinv.writei href hv hentry hwrite
  set t := (k₁.setDin slot x).iupdate slot with ht
  have hinum' : (k.icache slot).inum = n := by rw [hsim.self]
  rw [hinum'] at hr
  have hsb : t.sb = sb := hr.sb.trans hsim.super
  have hdisk : (s₁.setInode n x).sealed = t.disk := by
    have hself : (k₁.setDin slot x).icache slot = ⟨n, 1, true, x⟩ := by
      rw [Fs.State.setDin, Fs.State.setCache_self, hsim₁.self]
      rfl
    rw [State.sealed_setInode hnode, ht, Fs.State.iupdate, hself]
    change _ = update k₁.disk (iblock k₁.sb n) (Block.setInode (k₁.disk (iblock k₁.sb n)) _ x)
    rw [hsim₁.super, hsim₁.disk]
  have hino (m : ℕ) (hm : m < ninodes) : (s₁.setInode n x).ino m = update s.ino n x m := by
    have heq := hr.ino m (by rwa [hsim.super, ninodes_sb])
    rw [Fs.State.ino, hsb] at heq
    rw [State.ino, hdisk, heq]
    rfl
  refine ⟨s₁.setInode n x, ?_, ?_⟩
  · rw [State.iappend, State.rinode_eq h.len (hinum ▸ hnode), Option.bind_some, hinum, hsize, hs₁,
      Option.bind_some]
    simp only
    rw [State.winode_eq hsim₁.len (hinum ▸ hnode), hinum]
  have hfree : s₁.freeblock.toNat = Mkfs.total (l₁ ++ (c ++ src) :: l₂) := by
    rw [total_append, List.length_append]
    omega
  have hset : l₁ ++ (c ++ src) :: l₂ = (l₁ ++ c :: l₂).set l₁.length (c ++ src) := by simp
  have hlength : (l₁ ++ (c ++ src) :: l₂).length = (l₁ ++ c :: l₂).length := by
    rw [hset, List.length_set]
  refine ⟨hsim₁.len, hfree.trans_le hroom, fun b hb ↦ ?_, ?_, hlength ▸ hinodes, ?_,
    fun m hm hm' ↦ ?_, fun m hm ↦ ?_, hfree⟩
  · have hge := hsim₁.ge
    have hmeta := bmapstart_lt_nmeta
    have hib := State.iblock_lt hnode
    have hb' : s₁.freeblock.toNat ≤ b := hb
    exact (update_of_ne (by omega) ..).trans (hsim₁.zero b hb)
  · exact hinv'.of_cache hsb.symm hdisk (fun j hj ↦ absurd hj (lt_irrefl 0))
      (fun j _ hj ↦ absurd hj (lt_irrefl 0)) fun j hj ↦ absurd hj (lt_irrefl 0)
  · have hsame : s₁.freeinode = s.freeinode := State.freeinode_appendLoop hs₁
    rw [hlength, ← h.freeinode]
    exact congrArg UInt32.toNat hsame
  · rw [hlength] at hm'
    rw [hino m hm, update_of_ne (by omega)]
    exact h.free m hm hm'
  · rw [hdisk, hino _ (by omega), List.get_eq_getElem]
    simp only [hset, List.getElem_set]
    rw [hlength] at hm
    obtain rfl | hne := eq_or_ne m l₁.length
    · rw [if_pos rfl, update_self, hxcontent, hxtype, hktype, hsim.din_eq]
      exact ⟨rfl, by rw [← hcontent]; rfl⟩
    · have hne' : m + 1 ≠ n := by omega
      have hm' : m + 1 < k.sb.ninodes.toNat := by
        rw [hsim.super, ninodes_sb]
        omega
      obtain ⟨htype', hcontent'⟩ := h.file m hm
      have hdf : (k.ino (m + 1)).type = tDir ∨ (k.ino (m + 1)).type = tFile :=
        htype' ▸ fileType_cases m
      rw [if_neg hne.symm, update_of_ne hne']
      exact ⟨htype', (content_congr (hinv.filled _ hm' hdf)
        (hr.keep _ hm' hne' (ne_zero_of_type hdf))).trans hcontent'⟩

theorem room (h : Holds s (l₁ ++ c :: l₂)) (hinum : inum.toNat = l₁.length + 1)
    (hs : s.iappend inum src = some s') : c.length + src.length ≤ maxfile * bsize ∧
      Mkfs.total (l₁ ++ (c ++ src) :: l₂) ≤ fssize := by
  have hlt : l₁.length < (l₁ ++ c :: l₂).length := by simp
  have hinodes := h.inodes
  obtain ⟨-, hsim⟩ := h.opened hlt
  obtain ⟨ho, hf, hsize, -⟩ := h.loop
  have htotal := h.total
  rw [total_append] at htotal
  rw [State.iappend, State.rinode_eq h.len (by omega), Option.bind_some, hinum, hsize] at hs
  obtain ⟨⟨off', din', s₁⟩, hs₁, -⟩ := Option.bind_eq_some_iff.mp hs
  obtain ⟨hmax, hroom⟩ := hsim.room_of_appendLoop ho hf (le_blocks_mul _) le_rfl hs₁
  rw [max_eq_right (blocks_mono (Nat.le_add_right ..))] at hroom
  rw [total_append, List.length_append]
  exact ⟨hmax, by omega⟩

theorem iappend (h : Holds s (l₁ ++ c :: l₂)) (hinum : inum.toNat = l₁.length + 1) (hsrc : src ≠ [])
    (hdir : l₁ = [] → c.length % 16 = 0 ∧
      ∃ e : Dirent, e.inum.toNat < ninodes ∧ src = Fs.State.ofDirent e) :
    Yields (Fits (l₁ ++ (c ++ src) :: l₂)) (s.iappend inum src)
      (Holds · (l₁ ++ (c ++ src) :: l₂)) := by
  constructor
  · intro s' hs
    obtain ⟨hmax, hroom⟩ := h.room hinum hs
    obtain ⟨t, ht, h'⟩ := h.append hinum hsrc hdir hmax hroom
    obtain rfl := Option.some.inj (hs.symm.trans ht)
    exact h'
  · intro hfits
    have hmax := hfits.length (c ++ src) (List.mem_append_right _ List.mem_cons_self)
    rw [List.length_append] at hmax
    obtain ⟨s', hs, -⟩ := h.append hinum hsrc hdir hmax hfits.blocks
    exact ⟨s', hs⟩

theorem ialloc (h : Holds s l) (hlt : l.length + 1 < ninodes) : ∃ s',
    s.ialloc (fileType l.length) = some (s.freeinode, s') ∧ Holds s' (l ++ [[]]) := by
  set n := l.length + 1 with hn
  set x : Dinode := ⟨fileType l.length, 0, 0, 1, 0, fun _ ↦ 0⟩ with hx
  set s₀ : State := { s with freeinode := s.freeinode + 1 } with hs₀
  have hfree := h.freeinode
  have hnext : s₀.freeinode.toNat = n + 1 := by
    have hone : (1 : UInt32).toNat = 1 := rfl
    have hlt' : n + 1 < 2 ^ 32 := by
      rw [ninodes] at hlt
      omega
    rw [hs₀, UInt32.toNat_add, hone, hfree]
    exact Nat.mod_eq_of_lt hlt'
  have hns : n < s.kernel.sb.ninodes.toNat := ninodes_sb ▸ hlt
  have hdisk : (s₀.setInode n x).sealed = (s.kernel.setInode n x).disk := State.sealed_setInode hlt
  have hw : Wrote s.kernel (s.kernel.setInode n x) n x := .of_setInode geometry_sb hns
  have hino (m : ℕ) : (s₀.setInode n x).ino m = update s.ino n x m := by
    rw [State.ino, hdisk]
    exact congrFun hw.ino m
  have hempty : s.kernel.ino n = noInode := h.free n hlt (Or.inr (Nat.lt_succ_self _))
  have htype : x.type = tDir ∨ x.type = tFile ∨ x.type = tDev :=
    (fileType_cases l.length).imp_right Or.inl
  obtain ⟨hinv, -⟩ := h.inv.setInode (d := x) hns (by rw [hempty]; rfl) htype rfl rfl
  refine ⟨s₀.setInode n x, ?_, h.len, h.le, fun b hb ↦ ?_, ?_, ?_, ?_, fun m hm hm' ↦ ?_,
    fun m hm ↦ ?_, ?_⟩
  · have hnode : s.freeinode.toNat < ninodes := hfree ▸ hlt
    have hlen : s₀.len = fssize := h.len
    rw [State.ialloc, State.winode_eq hlen hnode, hfree]
    rfl
  · have hib := State.iblock_lt hlt
    have hmeta := bmapstart_lt_nmeta
    have htotal := h.total
    rw [Mkfs.total] at htotal
    have hb' : s.freeblock.toNat ≤ b := hb
    exact (update_of_ne (by omega) ..).trans (h.zero b hb')
  · exact hinv.of_cache rfl hdisk (fun j hj ↦ absurd hj (lt_irrefl 0))
      (fun j _ hj ↦ absurd hj (lt_irrefl 0)) fun j hj ↦ absurd hj (lt_irrefl 0)
  · rwa [List.length_append]
  · rw [List.length_append]
    exact hnext
  · rw [List.length_append, List.length_singleton] at hm'
    rw [hino, update_of_ne (by omega)]
    exact h.free m hm (by omega)
  · rw [List.length_append, List.length_singleton] at hm
    rw [hdisk, hino, List.get_eq_getElem]
    obtain rfl | hne := eq_or_ne m l.length
    · rw [update_self, List.getElem_concat_length rfl]
      exact ⟨rfl, rfl⟩
    · have hm' : m < l.length := by omega
      obtain ⟨htype', hcontent⟩ := h.file m hm'
      have hms : m + 1 < s.kernel.sb.ninodes.toNat := by omega
      have hdf : (s.kernel.ino (m + 1)).type = tDir ∨ (s.kernel.ino (m + 1)).type = tFile :=
        htype' ▸ fileType_cases m
      have h0 := ne_zero_of_type hdf
      rw [update_of_ne (by omega), List.getElem_append_left hm']
      refine ⟨htype', (content_congr (h.inv.filled _ hms hdf) fun p hp ↦ hw.disk_of_mem ?_).trans
        hcontent⟩
      exact h.inv.owned.exclusive.mem (k := (m + 1, p)) (own_eq_some.mpr ⟨hms, h0, hp, rfl⟩)
  · have hzero : need (blocks ([] : List UInt8).length) = 0 := rfl
    rw [total_append, List.append_nil, hzero]
    exact h.total

end Holds

end SistemasOperacionais.Xv6.Mkfs
