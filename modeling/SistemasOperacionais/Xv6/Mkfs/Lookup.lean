import SistemasOperacionais.Xv6.Mkfs.Valid

/-!
# The kernel on the image

The kernel finds the files by the names that `mkfs` has given them, and reads what `mkfs` has read
from the host. It looks at the entries one after the other and stops at the name, so it does not
matter here that the size of the root directory may promise a block too much.
-/

namespace SistemasOperacionais.Xv6.Mkfs

open Foundations Function Fs

/-! ## Reading -/

section Reading

variable {k : Fs.State} {i : Fin ninode} {dev : Devsw} {m n off fuel a : ℕ} {test : Dirent → Bool}

theorem readi_of_filled (htype : (k.icache i).din.type ≠ tDev)
    (hf : Filled (addr k.disk (k.icache i).din) n) (hoff : off + m ≤ n * bsize)
    (hsize : off + m ≤ (k.icache i).din.size.toNat) : k.readi dev i off m =
      some (some (bytes k.disk (addr k.disk (k.icache i).din) off m), k) := by
  have hlt := (k.icache i).din.size.toNat_lt
  rw [Fs.State.readi, if_neg htype, if_neg (by omega), min_eq_left (by omega),
    Fs.State.readLoop_eq hf hoff le_rfl, Option.map_some]

theorem scan_of_filled (htype : (k.icache i).din.type = tDir)
    (hf : Filled (addr k.disk (k.icache i).din) n) (hm : 16 * m + 16 ≤ n * bsize)
    (hsize : 16 * m + 16 ≤ (k.icache i).din.size.toNat)
    (hbefore : ∀ j < m, test (direntAt k.disk (addr k.disk (k.icache i).din) (16 * j)) = false)
    (hat : test (direntAt k.disk (addr k.disk (k.icache i).din) (16 * m)) = true)
    (hle : a ≤ m) (hfuel : m < a + fuel) : Fs.State.scan dev i test fuel (16 * a) k =
      some ((16 * m, some (direntAt k.disk (addr k.disk (k.icache i).din) (16 * m))), k) := by
  have hdev : (k.icache i).din.type ≠ tDev := by
    rw [htype]
    decide
  induction fuel generalizing a with
  | zero => omega
  | succ fuel ih =>
    rw [Fs.State.scan, if_pos (by omega), readi_of_filled hdev hf (by omega) (by omega),
      Option.bind_some]
    simp only [length_bytes, ne_eq, not_true_eq_false, if_false]
    obtain rfl | hlt := hle.eq_or_lt
    · exact if_pos hat
    · have hskip := hbefore a hlt
      rw [direntAt] at hskip
      rw [hskip, if_neg Bool.false_ne_true]
      exact ih (a := a + 1) hlt (by omega)

/-- `iget` on a cache that agrees with the disk and is not full. -/
theorem iget_of_free
    (hcopy : ∀ j, 0 < (k.icache j).ref → (k.icache j).valid = true →
      (k.icache j).din = k.ino (k.icache j).inum) (hfree : ∃ j, (k.icache j).ref = 0) :
    ∃ j k', k.iget n = some (j, k') ∧ k'.sb = k.sb ∧ k'.disk = k.disk ∧
      0 < (k'.icache j).ref ∧ (k'.icache j).inum = n ∧
      ((k'.icache j).valid = true → (k'.icache j).din = k.ino n) := by
  obtain ⟨j, k', hget⟩ := Fs.State.exists_iget hfree
  refine ⟨j, k', hget, ?_⟩
  obtain ⟨href, rfl, rfl⟩ | ⟨-, rfl, -⟩ := Fs.State.iget_cases hget
  · refine ⟨rfl, rfl, ?_⟩
    rw [Fs.State.idup, Fs.State.setCache_self]
    exact ⟨Nat.succ_pos _, rfl, hcopy j href⟩
  · refine ⟨rfl, rfl, ?_⟩
    rw [Fs.State.setCache_self]
    exact ⟨Nat.zero_lt_one, rfl, fun hv ↦ absurd hv Bool.false_ne_true⟩

theorem ilock_of_copy (href : 0 < (k.icache i).ref)
    (hcopy : (k.icache i).valid = true → (k.icache i).din = k.ino (k.icache i).inum)
    (htype : (k.ino (k.icache i).inum).type ≠ 0) : ∃ k', k.ilock i = some k' ∧
      k'.sb = k.sb ∧ k'.disk = k.disk ∧ (k'.icache i).din = k.ino (k.icache i).inum := by
  have hload : ((k.load i).icache i).din = k.ino (k.icache i).inum := by
    rw [Fs.State.load, Fs.State.setCache_self]
    rfl
  rw [Fs.State.ilock, if_neg (by omega)]
  split_ifs with hv h0
  · exact ⟨k, rfl, rfl, rfl, hcopy hv⟩
  · exact absurd (hload ▸ h0) htype
  · exact ⟨k.load i, rfl, rfl, rfl, hload⟩

end Reading

/-! ## Entries -/

section Entries

variable {files : List HostFile} {s : State} {l : List (List UInt8)} {m n : ℕ}

/-- The entries of the root directory. -/
def pieces (files : List HostFile) : List (List UInt8) :=
  dirEntry rootino Fs.State.dot :: dirEntry rootino Fs.State.dotdot ::
    (files.zipIdx 2).map fun x ↦ dirEntry x.2 x.1.shortName

def names (files : List HostFile) : List CString :=
  Fs.State.dot :: Fs.State.dotdot :: files.map HostFile.shortName

theorem entries_eq (n : ℕ) (fs : List HostFile) :
    entries n fs = ((fs.zipIdx n).map fun x ↦ dirEntry x.2 x.1.shortName).flatten := by
  induction fs generalizing n with
  | nil => rfl
  | cons f fs ih => rw [entries, ih, List.zipIdx_cons, List.map_cons, List.flatten_cons]

theorem root_eq (files : List HostFile) : root files = (pieces files).flatten := by
  rw [root, entries_eq, pieces, List.flatten_cons, List.flatten_cons, List.append_assoc]

theorem length_pieces (files : List HostFile) : (pieces files).length = files.length + 2 := by
  simp [pieces]

theorem length_names (files : List HostFile) : (names files).length = files.length + 2 := by
  simp [names]

/-- The number in an entry is left open where only the name matters. -/
theorem pieces_get (hm : m < files.length + 2) : ∃ num,
    (pieces files)[m]? = some (dirEntry num ((names files).get ⟨m, length_names files ▸ hm⟩)) := by
  obtain _ | _ | m := m
  · exact ⟨rootino, rfl⟩
  · exact ⟨rootino, rfl⟩
  · have hlt : m < files.length := by omega
    refine ⟨2 + m, ?_⟩
    simp [pieces, names, hlt]

theorem take_drop_flatten {α : Type} {l : List (List α)} {w j : ℕ} {x : List α}
    (h : ∀ y ∈ l, y.length = w) (hj : l[j]? = some x) :
    (l.flatten.drop (w * j)).take w = x := by
  induction l generalizing j with
  | nil => cases hj
  | cons y l ih =>
    have hy := h y List.mem_cons_self
    cases j with
    | zero =>
      obtain rfl := Option.some.inj hj
      rw [Nat.mul_zero, List.drop_zero, List.flatten_cons, ← hy, List.take_left]
    | succ j =>
      rw [Nat.mul_succ, Nat.add_comm, ← List.drop_drop, List.flatten_cons, ← hy, List.drop_left, hy]
      exact ih (fun z hz ↦ h z (List.mem_cons_of_mem _ hz)) hj

theorem bytes_eq_take_drop {d : Disk} {f : Pos → UInt32} {off : ℕ} (h : off + m ≤ n) :
    bytes d f off m = ((bytes d f 0 n).drop off).take m := by
  have hsplit : bytes d f 0 n =
      bytes d f 0 off ++ (bytes d f off m ++ bytes d f (off + m) (n - off - m)) := by
    rw [bytes_split (show off ≤ n by omega), Nat.zero_add, bytes_split (show m ≤ n - off by omega)]
  rw [hsplit, List.drop_left' length_bytes, List.take_left' length_bytes]

theorem Holds.content_finish (h : Holds s l) (hm : m < l.length) :
    content s.finish.sect (s.ino (m + 1)) = l.get ⟨m, hm⟩ := by
  have hinodes := h.inodes
  have hlt : m + 1 < s.kernel.sb.ninodes.toNat := by
    change m + 1 < sb.ninodes.toNat
    rw [ninodes_sb]
    omega
  rw [← (h.file m hm).2, sect_finish]
  refine content_congr (h.filled hm) fun p hp ↦ (wrote_finish s).disk_of_mem ?_
  exact h.inv.owned.exclusive.mem (k := (m + 1, p))
    (own_eq_some.mpr ⟨hlt, h.type_ne_zero hm, hp, rfl⟩)

theorem Holds.addr_root (h : Holds s (image files)) :
    addr s.finish.sect s.fixedRoot = addr s.sealed (s.ino rootino) := by
  have heq := h.addr_finish (n := rootino) (by decide)
  rwa [ino_finish, update_self] at heq

theorem Holds.direntAt_root {num : ℕ} {c : CString} (h : Holds s (image files))
    (hm : (pieces files)[m]? = some (dirEntry num c)) :
    direntAt s.finish.sect (addr s.finish.sect s.fixedRoot) (16 * m) = ⟨.ofNat num, c.strncpy⟩ := by
  have hroot := h.content_finish (m := 0) (Nat.succ_pos _)
  have hlen := h.size_eq (n := 0) (Nat.succ_pos _)
  rw [content, hlen] at hroot
  have hlt : m < files.length + 2 := by
    rw [← length_pieces]
    exact (List.getElem?_eq_some_iff.mp hm).1
  have hfit : 16 * m + 16 ≤ ((image files).get ⟨0, Nat.succ_pos _⟩).length := by
    change _ ≤ (root files).length
    rw [length_root]
    omega
  have haddr : addr s.finish.sect s.fixedRoot = addr s.finish.sect (s.ino (0 + 1)) :=
    addr_of_addrs rfl
  have hsize : ∀ y ∈ pieces files, y.length = 16 := by
    intro y hy
    simp only [pieces, List.mem_cons, List.mem_map] at hy
    obtain rfl | rfl | ⟨x, -, rfl⟩ := hy
    · exact length_dirEntry ..
    · exact length_dirEntry ..
    · exact length_dirEntry ..
  rw [direntAt, haddr, bytes_eq_take_drop hfit, hroot]
  change Fs.State.toDirent (((root files).drop (16 * m)).take 16) = _
  rw [root_eq, take_drop_flatten hsize hm, dirEntry, toDirent_ofDirent]

end Entries

/-! ## Lookup -/

/-- The kernel uses the disk `d`, and the entry `i` of its inode cache is the root directory. What
is in the cache agrees with the disk, and there is place for one more inode. -/
structure Mounted (d : Disk) (k : Fs.State) (i : Fin ninode) : Prop where
  sb : k.sb = readsb d
  disk : k.disk = d
  ref : 0 < (k.icache i).ref
  valid : (k.icache i).valid = true
  inum : (k.icache i).inum = rootino
  copy : ∀ j, 0 < (k.icache j).ref → (k.icache j).valid = true →
    (k.icache j).din = k.ino (k.icache j).inum
  free : ∃ j, (k.icache j).ref = 0

/-- The kernel after its start, with the root directory in its cache. -/
def boot (d : Disk) : Fs.State :=
  (Fs.State.mk (readsb d) d (fun _ ↦ ⟨0, 0, false, noInode⟩) []).setCache slot
    ⟨rootino, 1, true, inodeAt (readsb d) d rootino⟩

theorem mounted_boot (d : Disk) : Mounted d (boot d) slot := by
  have hself : (boot d).icache slot = ⟨rootino, 1, true, inodeAt (readsb d) d rootino⟩ :=
    Fs.State.setCache_self
  have hother (j : Fin ninode) (hj : j ≠ slot) : (boot d).icache j = ⟨0, 0, false, noInode⟩ :=
    Fs.State.setCache_of_ne hj
  refine ⟨rfl, rfl, ?_, ?_, ?_, fun j href _ ↦ ?_,
    ⟨⟨1, by decide⟩, ?_⟩⟩
  · rw [hself]
    exact Nat.zero_lt_one
  · rw [hself]
  · rw [hself]
  · obtain rfl | hj := eq_or_ne j slot
    · rw [hself]
      rfl
    · rw [hother j hj] at href
      exact absurd href (lt_irrefl 0)
  · rw [hother _ (by decide)]

/-- The names differ in the bytes that are stored, also from `.` and `..`. -/
def Distinct (files : List HostFile) : Prop := ((names files).map CString.strncpy).Nodup

instance (files : List HostFile) : Decidable (Distinct files) :=
  inferInstanceAs (Decidable ((names files).map CString.strncpy).Nodup)

/-- On the disk `d` the kernel finds the name `c` in the root directory as the inode `inum`, and
reads the bytes `bs` from it. -/
def Reads (d : Disk) (c : CString) (inum : ℕ) (bs : List UInt8) : Prop :=
  ∀ dev k i, Mounted d k i → ∃ j off k' k'',
    k.dirlookup dev i c = some (some (j, off), k') ∧ (k'.icache j).inum = inum ∧
      k'.ilock j = some k'' ∧
      ∀ m, bs.length ≤ m → m < 2 ^ 32 → k''.readi dev j 0 m = some (some bs, k'')

section Lookup

variable {files : List HostFile} {s : State} {n : ℕ}

theorem Holds.readsb_finish (h : Holds s (image files)) : readsb s.finish.sect = sb := by
  have hone : s.finish.sect 1 = s.sealed 1 := by
    rw [sect_finish]
    exact (wrote_finish s).disk 1 (Or.inl rfl)
  have hsuper : readsb s.sealed = sb := h.inv.super
  rw [← hsuper, readsb, readsb, hone]

theorem Holds.scan_root {dev : Devsw} {k : Fs.State} {i : Fin ninode} (h : Holds s (image files))
    (hlt : files.length + 1 < ninodes) (hd : Distinct files) (hn : n < files.length)
    (hdisk : k.disk = s.finish.sect) (hdin : (k.icache i).din = s.fixedRoot) : ∃ off,
    Fs.State.scan dev i (fun e ↦ e.inum ≠ 0 ∧ namecmp (files.get ⟨n, hn⟩).shortName e)
      (k.rounds i) 0 k =
        some ((off, some ⟨.ofNat (2 + n), (files.get ⟨n, hn⟩).shortName.strncpy⟩), k) := by
  obtain ⟨hsize, -⟩ := h.root_size hlt
  rw [ninodes] at hlt
  set c := (files.get ⟨n, hn⟩).shortName with hc
  have htype : s.fixedRoot.type = tDir := (h.file 0 (Nat.succ_pos _)).1
  have hf : Filled (addr s.finish.sect s.fixedRoot) (blocks (16 * (files.length + 2))) := by
    have hf := h.filled (m := 0) (Nat.succ_pos _)
    have hsize' : (s.ino (0 + 1)).size.toNat = 16 * (files.length + 2) := hsize
    rw [hsize'] at hf
    rw [h.addr_root]
    exact hf
  have hfix : s.fixedRoot.size.toNat = ((s.ino rootino).size.toNat / bsize + 1) * bsize :=
    toNat_fixed (by omega)
  have hle := le_blocks_mul (16 * (files.length + 2))
  have hge : 16 * (files.length + 2) ≤ s.fixedRoot.size.toNat := by
    rw [hfix, hsize, bsize]
    omega
  have hentry : direntAt s.finish.sect (addr s.finish.sect s.fixedRoot) (16 * (n + 2)) =
      ⟨.ofNat (2 + n), c.strncpy⟩ := h.direntAt_root (by simp [pieces, hn, hc])
  have hnum : UInt16.ofNat (2 + n) ≠ 0 := by
    intro h0
    have hnat : (UInt16.ofNat (2 + n)).toNat = 0 := congrArg UInt16.toNat h0
    rw [UInt16.toNat_ofNat_of_lt' (show 2 + n < 2 ^ 16 by omega)] at hnat
    omega
  refine ⟨16 * (n + 2), ?_⟩
  rw [← hdin, ← hdisk] at hentry
  rw [← hentry]
  refine scan_of_filled (a := 0) (hdin ▸ htype) (by rw [hdisk, hdin]; exact hf) (by omega)
    (by rw [hdin]; omega) (fun j hj ↦ ?_) ?_ (Nat.zero_le _)
    (by rw [Fs.State.rounds, hdin]; omega)
  · have hj' : j < files.length + 2 := by omega
    obtain ⟨num, hp⟩ := pieces_get hj'
    rw [hdisk, hdin, h.direntAt_root hp]
    refine decide_eq_false fun ht ↦ ?_
    have heq : c.strncpy = _ := namecmp_iff.mp ht.2
    have hlen : ((names files).map CString.strncpy).length = files.length + 2 := by
      rw [List.length_map, length_names]
    have hself : ((names files).map CString.strncpy).get ⟨n + 2, by omega⟩ = c.strncpy := by
      simp [names, hc]
    have hother : ((names files).map CString.strncpy).get ⟨j, by omega⟩ = c.strncpy := by
      rw [heq]
      simp
    exact absurd (Fin.mk.inj (List.nodup_iff_injective_get.mp hd (hother.trans hself.symm)))
      (by omega)
  · rw [hentry]
    exact decide_eq_true ⟨hnum, namecmp_iff.mpr rfl⟩

theorem Holds.reads (h : Holds s (image files)) (hlt : files.length + 1 < ninodes)
    (hd : Distinct files) (hn : n < files.length) :
    Reads s.finish.sect (files.get ⟨n, hn⟩).shortName (2 + n) (files.get ⟨n, hn⟩).bytes := by
  intro dev k i hk
  have hsb : k.sb = sb := hk.sb.trans h.readsb_finish
  have hino (m : ℕ) : k.ino m = update s.ino rootino s.fixedRoot m := by
    rw [Fs.State.ino, hsb, hk.disk, ino_finish]
  have hdin : (k.icache i).din = s.fixedRoot := by
    rw [hk.copy i hk.ref hk.valid, hk.inum, hino, update_self]
  obtain ⟨off, hscan⟩ := h.scan_root hlt hd hn hk.disk hdin
  obtain ⟨j, k', hget, hsb', hdisk', href', hinum', hcopy'⟩ := iget_of_free hk.copy hk.free
    (n := 2 + n)
  have hino' : k'.ino = k.ino := by rw [Fs.State.ino, Fs.State.ino, hsb', hdisk']
  -- the inode of the file
  have hm : n + 1 < (image files).length := by
    rw [image, List.length_cons, List.length_map]
    omega
  have hfile : k.ino (2 + n) = s.ino (n + 1 + 1) := by
    have hne : 2 + n ≠ rootino := by
      rw [rootino]
      omega
    rw [hino, update_of_ne hne, Nat.add_comm]
  have hget' : (image files).get ⟨n + 1, hm⟩ = (files.get ⟨n, hn⟩).bytes := by simp [image]
  have htype : (s.ino (n + 1 + 1)).type = tFile := (h.file _ hm).1
  obtain ⟨k'', hlock, hsb'', hdisk'', hdin''⟩ := ilock_of_copy href'
    (by rwa [hino', hinum']) (by rw [hino', hinum', hfile, htype]; decide)
  rw [hino', hinum', hfile] at hdin''
  refine ⟨j, off, k', k'', ?_, hinum', hlock, fun m hle hlt' ↦ ?_⟩
  · have hdir : (k.icache i).din.type = tDir := by
      rw [hdin]
      exact (h.file 0 (Nat.succ_pos _)).1
    have hnat : (UInt16.ofNat (2 + n)).toNat = 2 + n := by
      rw [ninodes] at hlt
      exact UInt16.toNat_ofNat_of_lt' (show 2 + n < 2 ^ 16 by omega)
    rw [Fs.State.dirlookup, if_neg (not_not.mpr hdir), hscan, Option.bind_some]
    simp only [hnat, hget, Option.map_some]
  · have hsize := h.size_eq hm
    have hcontent := h.content_finish hm
    have hf := h.filled hm
    rw [hget'] at hsize hcontent
    have hdisk : k''.disk = s.finish.sect := by rw [hdisk'', hdisk', hk.disk]
    have haddr : addr s.finish.sect (s.ino (n + 1 + 1)) = addr s.sealed (s.ino (n + 1 + 1)) := by
      have hne : n + 1 + 1 ≠ rootino := by
        rw [rootino]
        omega
      have heq := h.addr_finish (n := n + 1 + 1) (by omega)
      rwa [ino_finish, update_of_ne hne] at heq
    rw [Fs.State.readi_eq (by rw [hdin'', htype]; decide) (by rw [hdisk, hdin'', haddr]; exact hf)
      (Nat.zero_le _) (by omega), hdin'', hdisk, Nat.sub_zero, min_eq_right (hsize ▸ hle)]
    rw [content] at hcontent
    rw [hcontent]

/-- **`mkfs` and the kernel agree.** If the names differ and the files fit into the image, `mkfs`
makes the image, unless it is given a path for a name. On the image the kernel finds each file under
its name, as the inode that `mkfs` has allocated, and reads its bytes. -/
theorem lookup_reads (hd : Distinct files)
    (hsize : ∀ f ∈ files, f.bytes.length ≤ maxfile * bsize) (hlt : files.length + 1 < ninodes)
    (htotal : total (image files) ≤ fssize) :
    ((∀ f ∈ files, 47 ∉ f.name.bytes) → ∃ r, main files = some r) ∧
      ∀ inums img, main files = some (inums, img) → ∀ n (hn : n < files.length),
        ∃ inum, inums[n]? = some inum ∧ Reads img.sect (files.get ⟨n, hn⟩).shortName inum.toNat
          (files.get ⟨n, hn⟩).bytes := by
  have hfits : Fits (image files) := by
    refine ⟨fun c hc ↦ ?_, htotal⟩
    obtain rfl | hc := List.mem_cons.mp hc
    · rw [ninodes] at hlt
      rw [length_root, maxfile, ndirect, nindirect, bsize]
      omega
    · obtain ⟨f, hf, rfl⟩ := List.mem_map.mp hc
      exact hsize f hf
  have hyields := main_yields hlt
  refine ⟨fun hslash ↦ hyields.returns ⟨hfits, hslash⟩, fun inums img hs n hn ↦ ?_⟩
  obtain ⟨hinums, s, h, himg⟩ := hyields.sound _ hs
  have hn' : (inums.map UInt32.toNat)[n]? = some (2 + n) := by
    rw [hinums, List.getElem?_range' hn, Nat.one_mul]
  rw [List.getElem?_map, Option.map_eq_some_iff] at hn'
  obtain ⟨inum, hinum, hnat⟩ := hn'
  refine ⟨inum, hinum, ?_⟩
  rw [hnat, show img = s.finish from himg]
  exact h.reads hlt hd hn

end Lookup

theorem lookup_reads_hi : Distinct [hi] ∧ total (image [hi]) ≤ fssize ∧ ∃ inums img,
    main [hi] = some (inums, img) ∧ Mounted img.sect (boot img.sect) slot ∧
      ∃ inum, inums[0]? = some inum ∧ Reads img.sect hi.shortName inum.toNat [104, 105, 10] := by
  have hd : Distinct [hi] := by decide
  have htotal : total (image [hi]) ≤ fssize := by decide
  obtain ⟨hreturns, hreads⟩ := lookup_reads hd (by decide) (by decide) htotal
  obtain ⟨r, hr⟩ := hreturns (by decide)
  exact ⟨hd, htotal, r.1, r.2, hr, mounted_boot _, hreads r.1 r.2 hr 0 (by decide)⟩

end SistemasOperacionais.Xv6.Mkfs
