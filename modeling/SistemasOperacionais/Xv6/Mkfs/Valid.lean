import SistemasOperacionais.Xv6.Mkfs.Image

/-!
# Runs of `mkfs`

What the image holds at the end of a run, for every list of files, and when it is what the kernel
relies on. `mkfs` rounds the size of the root directory up to a block, also when it fills its blocks
already; then the size promises a block that is not there. And `mkfs` does not count its inodes.
-/

namespace SistemasOperacionais.Xv6.Mkfs

open Foundations Function Fs

/-! ## The blank image -/

theorem inode_zero (j : Fin 8) : Block.inode (fun _ ↦ 0) j = noInode :=
  Dinode.ext Codec.u16_dec_zero Codec.u16_dec_zero Codec.u16_dec_zero Codec.u16_dec_zero
    Codec.u32_dec_zero (funext fun _ ↦ Codec.u32_dec_zero)

theorem zeroes_eq {n : ℕ} (hn : n ≤ fssize) (a b : UInt32) :
    (List.range n).foldl (fun (s : State) i ↦ s.wsect (.ofNat i) fun _ ↦ 0)
      ⟨fun _ _ ↦ 0, 0, a, b⟩ = ⟨fun _ _ ↦ 0, n, a, b⟩ := by
  induction n with
  | zero => rfl
  | succ n ih =>
    have hlt : n < 2 ^ 23 := hn.trans (by decide)
    have hnat : (UInt32.ofNat n).toNat = n := UInt32.toNat_ofNat_of_lt' (hlt.trans (by decide))
    rw [List.range_succ, List.foldl_append, ih (by omega), List.foldl_cons, List.foldl_nil,
      State.wsect, sector_eq (by rwa [hnat]), hnat, max_eq_right (Nat.le_succ n)]
    congr 1
    exact update_eq_self n _

theorem blank_eq : State.blank =
    ⟨update (fun _ _ ↦ 0) 1 (Block.ofSuper sb), fssize, 1, .ofNat nmeta⟩ := by
  rw [State.blank, zeroes_eq le_rfl]
  rfl

theorem holds_nil {s : State} (hlen : s.len = fssize) (hnode : s.freeinode.toNat = 1)
    (hfree : s.freeblock.toNat = nmeta) (hsuper : s.sect 1 = Block.ofSuper sb)
    (hzero : ∀ b, b ≠ 1 → s.sect b = fun _ ↦ 0) : Holds s [] := by
  have hle : s.freeblock.toNat ≤ fssize := by
    rw [hfree]
    decide
  have hino (n : ℕ) (hn : n < ninodes) : s.ino n = noInode := by
    have hne : iblock sb n ≠ 1 := (geometry_sb.one_lt_iblock (i := n)).ne'
    rw [State.ino, inodeAt, State.sealed_iblock hn, hzero _ hne, inode_zero]
  have htype (n : ℕ) (hn : n < sb.ninodes.toNat) : (s.kernel.ino n).type = 0 := by
    have heq : s.kernel.ino n = noInode := hino n (ninodes_sb ▸ hn)
    rw [heq]
    rfl
  have hone : 1 ≠ sb.bmapstart.toNat := by decide
  refine ⟨hlen, hle, fun b hb ↦ hzero b ?_, ?_, by decide, hnode, fun n hn _ ↦ hino n hn,
    fun n hn ↦ absurd hn (Nat.not_lt_zero n), hfree⟩
  · have hmeta : 1 < nmeta := by decide
    omega
  · refine ⟨⟨geometry_sb, readsb_eq ((State.sealed_of_ne hone).trans hsuper),
        fun n hn ↦ Or.inl (htype n hn),
        fun n hn h ↦ absurd (htype n hn) (ne_zero_of_type (Or.inl h)),
        fun j hj ↦ absurd hj (lt_irrefl 0), fun j _ hj ↦ absurd hj (lt_irrefl 0),
        fun j hj ↦ absurd hj (lt_irrefl 0)⟩,
      ⟨fun b hb ↦ ?_, fun hk ↦ ?_, fun hk ↦ ?_⟩,
      fun n hn h ↦ absurd (htype n hn) (ne_zero_of_type h)⟩
    · have hdata : datastart sb = nmeta := by decide
      have hb' : b < nmeta := hdata ▸ hb
      exact (State.used_sealed hle (hb'.trans (by decide))).trans (decide_eq_true (hfree ▸ hb'))
    · obtain ⟨hn, h0, -⟩ := own_eq_some.mp hk
      exact absurd (htype _ hn) h0
    · obtain ⟨hn, h0, -⟩ := own_eq_some.mp hk
      exact absurd (htype _ hn) h0

theorem holds_blank : Holds State.blank [] := by
  rw [blank_eq]
  refine holds_nil rfl rfl rfl ?_ fun b hb ↦ ?_
  · simp only [update_self]
  · simp only [update_of_ne hb]

/-! ## The files -/

def dirEntry (n : ℕ) (name : CString) : List UInt8 := Fs.State.ofDirent ⟨.ofNat n, name.strncpy⟩

/-- The entries of files, whose inodes begin with `n`. -/
def entries : ℕ → List HostFile → List UInt8
  | _, [] => []
  | n, f :: fs => dirEntry n f.shortName ++ entries (n + 1) fs

/-- The root directory before its size is fixed. -/
def root (files : List HostFile) : List UInt8 :=
  dirEntry rootino Fs.State.dot ++ dirEntry rootino Fs.State.dotdot ++ entries 2 files

/-- What the image holds in the end. -/
def image (files : List HostFile) : List (List UInt8) := root files :: files.map HostFile.bytes

@[simp] theorem length_dirEntry (n : ℕ) (name : CString) : (dirEntry n name).length = 16 :=
  length_ofDirent _

theorem length_entries (n : ℕ) (fs : List HostFile) : (entries n fs).length = 16 * fs.length := by
  induction fs generalizing n with
  | nil => rfl
  | cons f fs ih =>
    rw [entries, List.length_append, length_dirEntry, ih, List.length_cons]
    omega

theorem length_root (files : List HostFile) : (root files).length = 16 * (files.length + 2) := by
  rw [root, List.length_append, List.length_append, length_dirEntry, length_dirEntry,
    length_entries]
  omega

theorem Fits.of_prefix {l l' : List (List UInt8)} (h : Fits (l ++ l')) : Fits l := by
  constructor
  · exact fun c hc ↦ h.length c (List.mem_append_left _ hc)
  · have hblocks := h.blocks
    rw [total, List.map_append, List.sum_append] at hblocks
    rw [total]
    omega

namespace Holds

variable {s : State} {l : List (List UInt8)} {c dir : List UInt8} {cs : List (List UInt8)}
  {inum ino : UInt32} {f : HostFile} {fs : List HostFile}

theorem link (name : CString) (h : Holds s (dir :: l)) (hdir : dir.length % 16 = 0)
    (hroot : ino.toNat = 1) (hi : inum.toNat < ninodes) :
    Yields (Fits ((dir ++ dirEntry inum.toNat name) :: l)) (s.link ino inum name)
      (Holds · ((dir ++ dirEntry inum.toNat name) :: l)) := by
  have h' : Holds s ([] ++ dir :: l) := h
  refine h'.iappend hroot ?_ fun _ ↦ ⟨hdir, _, ?_, rfl⟩
  · exact List.ne_nil_of_length_pos (by rw [length_dirEntry]; decide)
  · have hlt : inum.toNat < 2 ^ 16 := hi.trans (by decide)
    exact (UInt16.toNat_ofNat_of_lt' hlt).trans_lt hi

theorem copy (h : Holds s (l ++ [c])) (hl : l ≠ []) (hinum : inum.toNat = l.length + 1)
    (hcs : ∀ x ∈ cs, x ≠ []) : Yields (Fits (l ++ [c ++ cs.flatten])) (State.copy inum cs s)
      (Holds · (l ++ [c ++ cs.flatten])) := by
  induction cs generalizing s c with
  | nil =>
    rw [List.flatten_nil, List.append_nil]
    exact .some h
  | cons x cs ih =>
    rw [List.flatten_cons, ← List.append_assoc]
    refine Yields.bind ((h.iappend hinum (hcs x List.mem_cons_self)
      fun hnil ↦ absurd hnil hl).imp Fits.of_append) fun s' h' ↦ ?_
    exact ih h' fun y hy ↦ hcs y (List.mem_cons_of_mem _ hy)

theorem addFile (h : Holds s (dir :: l)) (hdir : dir.length % 16 = 0) (hroot : ino.toNat = 1)
    (hlt : l.length + 2 < ninodes) :
    Yields (Fits ((dir ++ dirEntry (l.length + 2) f.shortName) :: (l ++ [f.bytes])) ∧
        47 ∉ f.name.bytes) (s.addFile ino f) fun r ↦ r.1.toNat = l.length + 2 ∧
      Holds r.2 ((dir ++ dirEntry (l.length + 2) f.shortName) :: (l ++ [f.bytes])) := by
  obtain ⟨s₁, hs₁, h₁⟩ := h.ialloc hlt
  have htype : fileType (dir :: l).length = tFile := if_neg (Nat.succ_ne_zero _)
  have hfree : s.freeinode.toNat = l.length + 2 := h.freeinode
  rw [htype] at hs₁
  rw [State.addFile, hs₁, Option.bind_some]
  refine Yields.guard And.right ?_
  have h₁' : Holds s₁ (dir :: (l ++ [[]])) := h₁
  have hlink := h₁'.link f.shortName hdir hroot (hfree ▸ hlt)
  rw [hfree] at hlink
  refine Yields.bind (hlink.imp fun hfits ↦ ?_) fun s₂ h₂ ↦ ?_
  · have hfits' : Fits (((dir ++ dirEntry (l.length + 2) f.shortName) :: l) ++ [[] ++ f.bytes]) :=
      hfits.1
    exact hfits'.of_append
  · have h₂' : Holds s₂ (((dir ++ dirEntry (l.length + 2) f.shortName) :: l) ++ [[]]) := h₂
    have hcs (x : List UInt8) (hx : x ∈ f.chunks) : x ≠ [] :=
      List.ne_nil_of_length_pos (f.sizes x hx).1
    have hcopy := h₂'.copy (List.cons_ne_nil _ _) hfree hcs
    exact Yields.map (hcopy.imp And.left) fun s₃ h₃ ↦ ⟨hfree, h₃⟩

theorem addFiles (h : Holds s (dir :: l)) (hdir : dir.length % 16 = 0) (hroot : ino.toNat = 1)
    (hlt : l.length + fs.length + 1 < ninodes) :
    Yields (Fits ((dir ++ entries (l.length + 2) fs) :: (l ++ fs.map HostFile.bytes)) ∧
        ∀ f ∈ fs, 47 ∉ f.name.bytes) (State.addFiles ino fs s) fun r ↦
      r.1.map UInt32.toNat = List.range' (l.length + 2) fs.length ∧
        Holds r.2 ((dir ++ entries (l.length + 2) fs) :: (l ++ fs.map HostFile.bytes)) := by
  induction fs generalizing s dir l with
  | nil =>
    rw [entries, List.map_nil, List.append_nil, List.append_nil]
    exact .some ⟨rfl, h⟩
  | cons f fs ih =>
    rw [List.length_cons] at hlt
    have hlen : (l ++ [f.bytes]).length = l.length + 1 := by simp
    have hassoc : (dir ++ entries (l.length + 2) (f :: fs)) :: (l ++ (f :: fs).map HostFile.bytes) =
        (dir ++ dirEntry (l.length + 2) f.shortName ++ entries ((l ++ [f.bytes]).length + 2) fs) ::
          (l ++ [f.bytes] ++ fs.map HostFile.bytes) := by
      rw [hlen, entries, List.map_cons]
      simp
    rw [hassoc, State.addFiles]
    have hfile := h.addFile (f := f) hdir hroot (by omega)
    refine Yields.bind (hfile.imp fun hp ↦ ⟨?_, hp.2 f List.mem_cons_self⟩) fun r hr ↦ ?_
    · have hfits : Fits ([] ++ (dir ++ dirEntry (l.length + 2) f.shortName ++
          entries ((l ++ [f.bytes]).length + 2) fs) :: (l ++ [f.bytes] ++ fs.map HostFile.bytes)) :=
        hp.1
      have hfits' : Fits (((dir ++ dirEntry (l.length + 2) f.shortName) :: (l ++ [f.bytes])) ++
          fs.map HostFile.bytes) := hfits.of_append
      exact hfits'.of_prefix
    · obtain ⟨hnum, hr⟩ := hr
      have hdir' : (dir ++ dirEntry (l.length + 2) f.shortName).length % 16 = 0 := by
        rw [List.length_append, length_dirEntry]
        omega
      refine Yields.map ((ih hr hdir' (by omega)).imp fun hp ↦
        ⟨hp.1, fun g hg ↦ hp.2 g (List.mem_cons_of_mem _ hg)⟩) fun t ht ↦ ⟨?_, ht.2⟩
      rw [List.map_cons, ht.1, hnum, hlen]
      rfl

end Holds

/-! ## The end of a run -/

/-- The size that the root directory gets in the end. -/
def fixed (size : UInt32) : UInt32 := (size / .ofNat bsize + 1) * .ofNat bsize

/-- The root directory with that size. -/
def State.fixedRoot (s : State) : Dinode := (s.ino rootino).withSize (fixed (s.ino rootino).size)

/-- The image of a run that has added all files in state `s`. -/
def State.finish (s : State) : State :=
  let t := s.setInode rootino s.fixedRoot
  { t with sect := t.sealed }

theorem toInt_toInt32_of_le {x : UInt32} (h : x.toNat ≤ fssize) : x.toInt32.toInt = x.toNat := by
  have hlt : 2 * x.toBitVec.toNat < 2 ^ 32 := by
    change 2 * x.toNat < 2 ^ 32
    rw [fssize] at h
    omega
  exact BitVec.toInt_eq_toNat_of_lt hlt

section Run

variable {s : State} {dir : List UInt8} {l : List (List UInt8)} {files : List HostFile}

theorem balloc_eq (hlen : s.len = fssize) (hle : s.freeblock.toNat ≤ fssize) :
    s.balloc = some { s with sect := s.sealed } := by
  have hlt : s.freeblock.toInt32.toInt < bsize * 8 := by
    rw [toInt_toInt32_of_le hle]
    rw [fssize] at hle
    rw [bsize]
    omega
  rw [State.balloc, if_pos hlt, State.wsect_eq hlen (by decide), toInt_toInt32_of_le hle,
    Int.toNat_natCast]
  rfl

theorem finish_eq (hlen : s.len = fssize) (hle : s.freeblock.toNat ≤ fssize) :
    (s.fixSize (.ofNat rootino)).bind State.balloc = some s.finish := by
  have hnode : (UInt32.ofNat rootino).toNat < ninodes := by decide
  have hnat : (UInt32.ofNat rootino).toNat = rootino := by decide
  rw [State.fixSize, State.rinode_eq hlen hnode, Option.bind_some, State.winode_eq hlen hnode,
    Option.bind_some, hnat]
  exact balloc_eq hlen hle

/-- The two entries that come first. -/
def dots : List UInt8 := dirEntry rootino Fs.State.dot ++ dirEntry rootino Fs.State.dotdot

/-- What `mkfs` does before it looks at the files does not fail. -/
theorem main_eq (files : List HostFile) : ∃ s₀, Holds s₀ [dots] ∧
    main files = (State.addFiles (.ofNat rootino) files s₀).bind fun r ↦
      ((r.2.fixSize (.ofNat rootino)).bind State.balloc).map fun s ↦ (r.1, s) := by
  have hnode : State.blank.freeinode = .ofNat rootino := by rw [blank_eq]; rfl
  have hroot : (UInt32.ofNat rootino).toNat = 1 := by decide
  have hlt : (UInt32.ofNat rootino).toNat < ninodes := by decide
  obtain ⟨s₁, hs₁, h₁⟩ := holds_blank.ialloc (by decide)
  have htype : fileType ([] : List (List UInt8)).length = tDir := if_pos rfl
  have h₁' : Holds s₁ [[]] := h₁
  rw [htype, hnode] at hs₁
  have hdot := h₁'.link Fs.State.dot rfl hroot hlt
  obtain ⟨s₂, hs₂⟩ := hdot.returns ⟨by decide, by decide⟩
  have h₂ := hdot.sound s₂ hs₂
  have hdotdot := h₂.link Fs.State.dotdot (by decide) hroot hlt
  obtain ⟨s₃, hs₃⟩ := hdotdot.returns ⟨by decide, by decide⟩
  refine ⟨s₃, hdotdot.sound s₃ hs₃, ?_⟩
  rw [main, hs₁, Option.bind_some]
  simp only [ne_eq, not_true_eq_false, if_false, hs₂, hs₃, Option.bind_some, Option.map_bind]
  rfl

theorem main_yields (hlt : files.length + 1 < ninodes) :
    Yields (Fits (image files) ∧ ∀ f ∈ files, 47 ∉ f.name.bytes) (main files) fun r ↦
      r.1.map UInt32.toNat = List.range' 2 files.length ∧
        ∃ s, Holds s (image files) ∧ r.2 = s.finish := by
  obtain ⟨s₀, h₀, heq⟩ := main_eq files
  have hroot : (UInt32.ofNat rootino).toNat = 1 := by decide
  have hlt' : ([] : List (List UInt8)).length + files.length + 1 < ninodes := by
    rwa [List.length_nil, Nat.zero_add]
  rw [heq]
  refine Yields.bind (h₀.addFiles (by decide) hroot hlt') fun r hr ↦ ?_
  rw [finish_eq hr.2.len hr.2.le]
  exact .some ⟨hr.1, r.2, hr.2, rfl⟩

/-! ### The image at the end -/

theorem wrote_finish (s : State) :
    Wrote s.kernel (s.kernel.setInode rootino s.fixedRoot) rootino s.fixedRoot :=
  .of_setInode geometry_sb (show rootino < sb.ninodes.toNat by decide)

theorem sect_finish (s : State) :
    s.finish.sect = (s.kernel.setInode rootino s.fixedRoot).disk :=
  State.sealed_setInode (by decide)

theorem ino_finish (s : State) (n : ℕ) :
    inodeAt sb s.finish.sect n = update s.ino rootino s.fixedRoot n := by
  rw [sect_finish]
  exact congrFun (wrote_finish s).ino n

theorem used_finish (hle : s.freeblock.toNat ≤ fssize) {b : ℕ} (hb : b < fssize) :
    used sb s.finish.sect b = decide (b < s.finish.freeblock.toNat) :=
  State.used_sealed (s := s.setInode rootino s.fixedRoot) hle hb

theorem Holds.cases {n : ℕ} (h : Holds s l) (hn : n < ninodes) :
    s.ino n = noInode ∨ ∃ m, n = m + 1 ∧ m < l.length := by
  obtain rfl | hpos := Nat.eq_zero_or_pos n
  · exact Or.inl (h.free 0 hn (Or.inl rfl))
  · obtain hlt | hle := Nat.lt_or_ge l.length n
    · exact Or.inl (h.free n hn (Or.inr hlt))
    · exact Or.inr ⟨n - 1, by omega, by omega⟩

theorem Holds.addr_finish {n : ℕ} (h : Holds s l) (hn : n < ninodes) :
    addr s.finish.sect (inodeAt sb s.finish.sect n) = addr s.sealed (s.ino n) := by
  have hn' : n < s.kernel.sb.ninodes.toNat := ninodes_sb ▸ hn
  have hsame : addr s.finish.sect (s.ino n) = addr s.sealed (s.ino n) := by
    obtain hno | ⟨m, rfl, hm⟩ := h.cases hn
    · rw [hno]
      funext p
      rw [addr_noInode, addr_noInode]
    · rw [sect_finish]
      exact (wrote_finish s).addr_eq h.inv.owned hn' (h.type_ne_zero hm)
  rw [ino_finish, ← hsame]
  obtain rfl | hne := eq_or_ne n rootino
  · rw [update_self]
    exact addr_of_addrs rfl
  · rw [update_of_ne hne]

end Run

/-! ## What the kernel relies on -/

/-- The image `img` with the files in the inodes `inums` is what the kernel expects. -/
structure Valid (inums : List UInt32) (img : State) : Prop where
  /-- The inode numbers are below `sb.ninodes`. -/
  inodes : ∀ n ∈ .ofNat rootino :: inums, n.toNat < sb.ninodes.toNat
  /-- A block that the size of an inode promises is a data block of the image. -/
  blocks : ∀ n < sb.ninodes.toNat, ∀ m < blocks (inodeAt sb img.sect n).size.toNat,
    addr img.sect (inodeAt sb img.sect n) (pos m) ≠ 0 ∧
      nmeta ≤ (addr img.sect (inodeAt sb img.sect n) (pos m)).toNat ∧
      (addr img.sect (inodeAt sb img.sect n) (pos m)).toNat < sb.size.toNat
  /-- No block number is stored twice. -/
  once : ∀ n < sb.ninodes.toNat, ∀ n' < sb.ninodes.toNat, ∀ p p',
    addr img.sect (inodeAt sb img.sect n) p ≠ 0 →
      addr img.sect (inodeAt sb img.sect n) p = addr img.sect (inodeAt sb img.sect n') p' →
        n = n' ∧ p = p'
  /-- The free map marks the blocks below `freeblock`. -/
  bitmap : ∀ b < sb.size.toNat, used sb img.sect b = decide (b < img.freeblock.toNat)

section Valid

variable {s : State} {l : List (List UInt8)} {files : List HostFile} {inums : List UInt32}
  {img : State} {m n : ℕ}

theorem blocks_mul (n : ℕ) : blocks (n * bsize) = n := by
  rw [blocks, bsize]
  omega

theorem toNat_fixed {size : UInt32} (h : size.toNat < 2 ^ 31) :
    (fixed size).toNat = (size.toNat / bsize + 1) * bsize := by
  have hb : (UInt32.ofNat bsize).toNat = bsize := by decide
  have hone : (1 : UInt32).toNat = 1 := rfl
  rw [fixed, UInt32.toNat_mul, UInt32.toNat_add, UInt32.toNat_div, hb, hone, bsize]
  omega

theorem blocks_entries (n : ℕ) : blocks (16 * n) = n / 32 + if 32 ∣ n then 0 else 1 := by
  rw [blocks, bsize]
  split_ifs with h
  · obtain ⟨k, rfl⟩ := h
    omega
  · have hmod : n % 32 ≠ 0 := fun h0 ↦ h (Nat.dvd_of_mod_eq_zero h0)
    omega

/-- The blocks of the root directory, and those that its size promises in the end. -/
theorem Holds.root_size (h : Holds s (image files)) (hlt : files.length + 1 < ninodes) :
    (s.ino rootino).size.toNat = 16 * (files.length + 2) ∧
      blocks s.fixedRoot.size.toNat = (files.length + 2) / 32 + 1 := by
  have hsize : (s.ino rootino).size.toNat = 16 * (files.length + 2) :=
    (h.size_eq (n := 0) (Nat.succ_pos _)).trans (length_root files)
  rw [ninodes] at hlt
  have hfixed : s.fixedRoot.size.toNat = ((s.ino rootino).size.toNat / bsize + 1) * bsize :=
    toNat_fixed (by omega)
  refine ⟨hsize, ?_⟩
  rw [hfixed, blocks_mul, hsize, bsize]
  omega

theorem Holds.filled (h : Holds s l) (hm : m < l.length) :
    Filled (addr s.sealed (s.ino (m + 1))) (Fs.blocks (s.ino (m + 1)).size.toNat) := by
  have hinodes := h.inodes
  have htype := (h.file m hm).1
  refine h.inv.filled (m + 1) ?_ (htype ▸ fileType_cases m)
  change m + 1 < sb.ninodes.toNat
  rw [ninodes_sb]
  omega

theorem Holds.valid (h : Holds s (image files)) (hlt : files.length + 1 < ninodes)
    (hdvd : ¬32 ∣ files.length + 2)
    (hinums : inums.map UInt32.toNat = List.range' 2 files.length) : Valid inums s.finish := by
  have hown := h.inv.ownership
  obtain ⟨hsize, hroot⟩ := h.root_size hlt
  have htype {n : ℕ} (hn : n < ninodes) {p : Pos} (h0 : addr s.sealed (s.ino n) p ≠ 0) :
      (s.ino n).type ≠ 0 := by
    obtain hno | ⟨m, rfl, hm⟩ := h.cases hn
    · rw [hno] at h0
      exact absurd (addr_noInode _ p) h0
    · exact h.type_ne_zero hm
  rw [ninodes] at hlt
  refine ⟨fun n hn ↦ ?_, fun n hn m hm ↦ ?_, fun n hn n' hn' p p' h0 heq ↦ ?_,
    fun b hb ↦ used_finish h.le (size_sb ▸ hb)⟩
  · rw [ninodes_sb, ninodes]
    obtain rfl | hn := List.mem_cons.mp hn
    · decide
    · have hmem : n.toNat ∈ inums.map UInt32.toNat := List.mem_map_of_mem hn
      rw [hinums, List.mem_range'_1] at hmem
      omega
  · rw [ninodes_sb] at hn
    rw [h.addr_finish hn]
    have hsame : blocks (inodeAt sb s.finish.sect n).size.toNat = blocks (s.ino n).size.toNat := by
      rw [ino_finish]
      obtain rfl | hne := eq_or_ne n rootino
      · rw [update_self, hroot, hsize, blocks_entries, if_neg hdvd]
      · rw [update_of_ne hne]
    rw [hsame] at hm
    obtain hno | ⟨j, rfl, hj⟩ := h.cases hn
    · rw [hno] at hm
      exact absurd hm (Nat.not_lt_zero m)
    · have hf := h.filled hj
      have h0 := (hf.block m (hm.trans_le hf.le)).mpr hm
      exact ⟨h0, (hown.stored _ (ninodes_sb ▸ hn) (htype hn h0) _ h0).2⟩
  · rw [ninodes_sb] at hn hn'
    rw [h.addr_finish hn] at h0 heq
    rw [h.addr_finish hn'] at heq
    exact hown.once n (ninodes_sb ▸ hn) (htype hn h0) n' (ninodes_sb ▸ hn') (htype hn' (heq ▸ h0))
      p p' h0 heq

/-- When the entries fill the blocks of the root directory, its size promises one more. -/
theorem Holds.not_valid (h : Holds s (image files)) (hlt : files.length + 1 < ninodes)
    (hdvd : 32 ∣ files.length + 2) : ¬Valid inums s.finish := by
  obtain ⟨hsize, hroot⟩ := h.root_size hlt
  have hf := h.filled (m := 0) (Nat.succ_pos _)
  have hsize' : (s.ino (0 + 1)).size.toNat = 16 * (files.length + 2) := hsize
  rw [hsize', blocks_entries, if_pos hdvd, Nat.add_zero] at hf
  have hmax : (files.length + 2) / 32 < maxfile := by
    rw [ninodes] at hlt
    rw [maxfile, ndirect, nindirect]
    omega
  intro hv
  have hblock := hv.blocks rootino (by decide) ((files.length + 2) / 32) (by
    rw [ino_finish, update_self, hroot]
    exact Nat.lt_succ_self _)
  rw [h.addr_finish (by decide)] at hblock
  exact lt_irrefl _ ((hf.block _ hmax).mp hblock.1)

theorem addFiles_append (ino : UInt32) (fs fs' : List HostFile) (s : State) :
    State.addFiles ino (fs ++ fs') s = (State.addFiles ino fs s).bind fun r ↦
      (State.addFiles ino fs' r.2).map fun r' ↦ (r.1 ++ r'.1, r'.2) := by
  induction fs generalizing s with
  | nil => simp [State.addFiles]
  | cons f fs ih =>
    rw [List.cons_append, State.addFiles, State.addFiles, Option.bind_assoc]
    refine congrArg _ (funext fun r ↦ ?_)
    simp only [ih, Option.map_bind, Option.bind_map, Option.map_map, Function.comp_def,
      List.cons_append]

theorem addFile_inum {f : HostFile} {ino inum : UInt32} {s' : State}
    (hs : s.addFile ino f = some (inum, s')) : inum = s.freeinode := by
  rw [State.addFile] at hs
  split_ifs at hs
  obtain ⟨r, hr, hs⟩ := Option.bind_eq_some_iff.mp hs
  obtain ⟨t, -, hs⟩ := Option.bind_eq_some_iff.mp hs
  obtain ⟨t', -, heq⟩ := Option.map_eq_some_iff.mp hs
  obtain ⟨u, -, rfl⟩ := Option.map_eq_some_iff.mp hr
  exact (congrArg Prod.fst heq).symm

theorem not_valid_of_le (hs : main files = some (inums, img)) (hle : ninodes ≤ files.length + 1) :
    ¬Valid inums img := by
  obtain ⟨s₀, h₀, heq⟩ := main_eq files
  obtain ⟨fs, f, fs', rfl, hlen⟩ : ∃ fs f fs', files = fs ++ f :: fs' ∧
      fs.length + 2 = ninodes := by
    have hlt : ninodes - 2 < files.length := by
      rw [ninodes] at hle ⊢
      omega
    refine ⟨files.take (ninodes - 2), files.get ⟨_, hlt⟩, files.drop (ninodes - 2 + 1), ?_, ?_⟩
    · rw [List.get_eq_getElem, ← List.drop_eq_getElem_cons hlt, List.take_append_drop]
    · rw [List.length_take, min_eq_left hlt.le]
      decide
  rw [heq] at hs
  obtain ⟨r, hadd, hs⟩ := Option.bind_eq_some_iff.mp hs
  obtain ⟨t, -, heq'⟩ := Option.map_eq_some_iff.mp hs
  obtain ⟨rfl, rfl⟩ := Prod.mk.inj heq'
  rw [addFiles_append] at hadd
  obtain ⟨r₁, hr₁, hadd⟩ := Option.bind_eq_some_iff.mp hadd
  obtain ⟨r₂, hr₂, rfl⟩ := Option.map_eq_some_iff.mp hadd
  obtain ⟨⟨inum, s₁⟩, hfile, hr₂⟩ := Option.bind_eq_some_iff.mp hr₂
  obtain ⟨r₃, -, rfl⟩ := Option.map_eq_some_iff.mp hr₂
  have hroot : (UInt32.ofNat rootino).toNat = 1 := by decide
  have hlt' : ([] : List (List UInt8)).length + fs.length + 1 < ninodes := by
    rw [List.length_nil]
    omega
  have h₁ := ((h₀.addFiles (by decide) hroot hlt').sound r₁ hr₁).2
  have hfree := h₁.freeinode
  have hinum := addFile_inum hfile
  intro hv
  have hmem := hv.inodes inum (by simp)
  rw [hinum, hfree, ninodes_sb] at hmem
  simp only [List.length_cons, List.length_append, List.length_map, List.length_nil] at hmem
  omega

/-- **Valid images.** A run of `mkfs` that comes to its end makes a valid image if and only if there
are inodes for all files and the entries do not just fill the blocks of the root directory. -/
theorem valid_iff (hs : main files = some (inums, img)) :
    Valid inums img ↔ files.length + 1 < ninodes ∧ ¬32 ∣ files.length + 2 := by
  obtain hlt | hle := Nat.lt_or_ge (files.length + 1) ninodes
  · obtain ⟨hinums, s, h, rfl⟩ := (main_yields hlt).sound _ hs
    constructor
    · exact fun hv ↦ ⟨hlt, fun hdvd ↦ h.not_valid hlt hdvd hv⟩
    · exact fun hd ↦ h.valid hlt hd.2 hinums
  · exact iff_of_false (not_valid_of_le hs hle) fun h ↦ absurd h.1 (by omega)

theorem hi_nonzero : (0 : UInt8) ∉ [95, 104, 105] := by decide

theorem hi_chunks :
    ∀ c ∈ ([[104], [105, 10]] : List (List UInt8)), 0 < c.length ∧ c.length ≤ bsize := by decide

/-- A file `_hi`, which is read in two pieces. -/
def hi : HostFile := ⟨⟨[95, 104, 105], hi_nonzero⟩, [[104], [105, 10]], hi_chunks⟩

theorem valid_iff_hi : ∃ inums img, main [hi] = some (inums, img) ∧ Valid inums img := by
  have hyields := main_yields (show [hi].length + 1 < ninodes by decide)
  obtain ⟨r, hs⟩ := hyields.returns ⟨⟨by decide, by decide⟩, by decide⟩
  exact ⟨r.1, r.2, hs, (valid_iff hs).mpr ⟨by decide, by decide⟩⟩

theorem letter_nonzero (i : Fin 30) : (0 : UInt8) ∉ [UInt8.ofNat (97 + i)] := by
  revert i
  decide

theorem no_chunks : ∀ c ∈ ([] : List (List UInt8)), 0 < c.length ∧ c.length ≤ bsize :=
  fun _ h ↦ absurd h List.not_mem_nil

/-- Thirty empty files with different names. -/
def thirty : List HostFile :=
  List.ofFn fun i : Fin 30 ↦ ⟨⟨[UInt8.ofNat (97 + i)], letter_nonzero i⟩, [], no_chunks⟩

theorem fits_of_empty (h : ∀ f ∈ files, f.bytes = []) (hlt : files.length + 1 < ninodes) :
    Fits (image files) := by
  rw [ninodes] at hlt
  have hroot := length_root files
  constructor
  · intro c hc
    obtain rfl | hc := List.mem_cons.mp hc
    · rw [hroot, maxfile, ndirect, nindirect, bsize]
      omega
    · obtain ⟨f, hf, rfl⟩ := List.mem_map.mp hc
      rw [h f hf]
      exact Nat.zero_le _
  · have hsum : ((files.map HostFile.bytes).map fun c ↦ need (blocks c.length)).sum = 0 := by
      refine List.sum_eq_zero fun x hx ↦ ?_
      rw [List.map_map] at hx
      obtain ⟨f, hf, rfl⟩ := List.mem_map.mp hx
      rw [Function.comp_apply, h f hf]
      rfl
    have hneed : need (blocks (root files).length) ≤ need 7 := by
      refine need_mono (blocks_le_of_le ?_)
      rw [hroot, bsize]
      omega
    have hseven : nmeta + need 7 ≤ fssize := by decide
    rw [total, image, List.map_cons, List.sum_cons, hsum]
    omega

theorem fits_thirty : Fits (image thirty) :=
  fits_of_empty (fun _ hf ↦ by obtain ⟨i, rfl⟩ := List.mem_ofFn.mp hf; rfl) (by decide)

/-- With thirty files the entries fill the block of the root directory, and the second block that
its size promises is not there. -/
theorem not_valid_thirty : ∃ inums img, main thirty = some (inums, img) ∧ ¬Valid inums img := by
  have hlt : thirty.length + 1 < ninodes := by decide
  obtain ⟨r, hs⟩ := (main_yields hlt).returns ⟨fits_thirty, by decide⟩
  obtain ⟨-, s, h, himg⟩ := (main_yields hlt).sound r hs
  refine ⟨r.1, r.2, hs, ?_⟩
  rw [himg]
  exact h.not_valid hlt (by decide)

end Valid

end SistemasOperacionais.Xv6.Mkfs
