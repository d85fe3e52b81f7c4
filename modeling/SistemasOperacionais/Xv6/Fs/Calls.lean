import SistemasOperacionais.Foundations.Trace
import SistemasOperacionais.Xv6.Fs.Truncate

/-!
# Runs of the file system

The operations that the system calls are made of, executed one after another by whoever holds a
reference to an inode, and what they keep together.
-/

namespace SistemasOperacionais.Xv6.Fs

open Foundations Function

/-! ## The cache of inodes -/

section Cache

variable {s s₁ s' : State} {i j : Fin ninode} {n : ℕ} {x : Inode} {type : UInt16}

theorem Inv.setCache (h : Inv s) (hn : x.inum < s.sb.ninodes.toNat)
    (hother : ∀ k, k ≠ i → 0 < (s.icache k).ref → (s.icache k).inum ≠ x.inum)
    (hcopy : x.valid = true → x.din = s.ino x.inum ∧ x.din.type ≠ 0) : Inv (s.setCache i x) := by
  have hself : (s.setCache i x).icache i = x := State.setCache_self
  have hne (k : Fin ninode) (hk : k ≠ i) : (s.setCache i x).icache k = s.icache k :=
    State.setCache_of_ne hk
  refine h.of_cache rfl rfl (fun k hk ↦ ?_) (fun k l hk hl heq ↦ ?_) fun k hk hv ↦ ?_
  · obtain rfl | hki := eq_or_ne k i
    · rwa [hself]
    · rw [hne k hki] at hk ⊢
      exact h.inum k hk
  · obtain rfl | hki := eq_or_ne k i
    · obtain rfl | hlk := eq_or_ne l k
      · rfl
      · rw [hself, hne l hlk] at heq
        rw [hne l hlk] at hl
        exact absurd heq.symm (hother l hlk hl)
    · rw [hne k hki] at heq hk
      obtain rfl | hli := eq_or_ne l i
      · rw [hself] at heq
        exact absurd heq (hother k hki hk)
      · rw [hne l hli] at heq hl
        exact h.distinct k l hk hl heq
  · obtain rfl | hki := eq_or_ne k i
    · rw [hself] at hv ⊢
      exact hcopy hv
    · rw [hne k hki] at hk hv ⊢
      exact h.copy k hk hv

theorem Inv.idup (h : Inv s) (href : 0 < (s.icache i).ref) : Inv (s.idup i) ∧ Held s (s.idup i) :=
  ⟨h.setCache (h.inum i href) (fun k hk hpos heq ↦ hk (h.distinct k i hpos href heq))
    (h.copy i href), .of_update rfl rfl fun _ ↦ ⟨Nat.le_succ _, rfl, fun hv ↦ ⟨hv, rfl⟩⟩⟩

/-- `iget` takes another reference to the entry of the inode, or recycles an entry. -/
theorem State.iget_cases (hs : s.iget n = some (i, s')) :
    (0 < (s.icache i).ref ∧ (s.icache i).inum = n ∧ s' = s.idup i) ∨
    ((s.icache i).ref = 0 ∧ s' = s.setCache i ⟨n, 1, false, (s.icache i).din⟩ ∧
      ∀ k, 0 < (s.icache k).ref → (s.icache k).inum ≠ n) := by
  rw [State.iget] at hs
  split at hs
  · rename_i k hfind
    obtain ⟨rfl, rfl⟩ := Prod.mk.inj (Option.some.inj hs)
    obtain ⟨href, hinum⟩ : 0 < (s.icache k).ref ∧ (s.icache k).inum = n := by
      simpa using List.find?_some hfind
    exact Or.inl ⟨href, hinum, rfl⟩
  · rename_i hnone
    obtain ⟨k, hfind, heq⟩ := Option.map_eq_some_iff.mp hs
    obtain ⟨rfl, rfl⟩ := Prod.mk.inj heq
    have href : (s.icache k).ref = 0 := by simpa using List.find?_some hfind
    refine Or.inr ⟨href, rfl, fun l hl ↦ ?_⟩
    have := List.find?_eq_none.mp hnone l (List.mem_finRange l)
    simpa [hl] using this

theorem State.exists_iget (hfree : ∃ i, (s.icache i).ref = 0) :
    ∃ i s', s.iget n = some (i, s') := by
  rw [State.iget]
  split
  · exact ⟨_, _, rfl⟩
  · obtain ⟨l, hl⟩ := hfree
    obtain ⟨j, hfind⟩ : ∃ j, (List.finRange ninode).find? (fun i ↦ (s.icache i).ref = 0) =
        some j := by
      rw [← Option.isSome_iff_exists, List.find?_isSome]
      exact ⟨l, List.mem_finRange l, decide_eq_true hl⟩
    rw [hfind]
    exact ⟨_, _, rfl⟩

theorem Inv.iget (h : Inv s) (hn : n < s.sb.ninodes.toNat) (hs : s.iget n = some (i, s')) :
    Inv s' ∧ Held s s' ∧ (s.icache i).ref < (s'.icache i).ref ∧ (s'.icache i).inum = n := by
  obtain ⟨href, rfl, rfl⟩ | ⟨href, rfl, hother⟩ := State.iget_cases hs
  · obtain ⟨hinv, hheld⟩ := h.idup href
    refine ⟨hinv, hheld, ?_⟩
    rw [State.idup, State.setCache_self]
    exact ⟨Nat.lt_succ_self _, rfl⟩
  · refine ⟨h.setCache hn (fun k _ ↦ hother k) fun hv ↦ absurd hv Bool.false_ne_true,
      .of_update rfl rfl fun hpos ↦ absurd href hpos.ne', ?_⟩
    rw [State.setCache_self, href]
    exact ⟨Nat.zero_lt_one, rfl⟩

theorem Inv.ilock (h : Inv s) (hs : s.ilock i = some s') :
    Inv s' ∧ Held s s' ∧ 0 < (s'.icache i).ref ∧ (s'.icache i).valid = true := by
  rw [State.ilock] at hs
  split_ifs at hs with href hv htype
  · obtain rfl := Option.some.inj hs
    exact ⟨h, .refl, not_lt.mp href, hv⟩
  · obtain rfl := Option.some.inj hs
    have hpos : 0 < (s.icache i).ref := not_lt.mp href
    have hself : (s.load i).icache i =
        ((s.icache i).withDin (s.ino (s.icache i).inum)).withValid true := update_self ..
    rw [hself] at htype
    refine ⟨h.setCache (h.inum i hpos) (fun k hk hkpos heq ↦ hk (h.distinct k i hkpos hpos heq))
      fun _ ↦ ⟨rfl, htype⟩, .of_update rfl rfl fun _ ↦ ⟨le_rfl, rfl, fun hv' ↦ absurd hv' hv⟩, ?_⟩
    rw [hself]
    exact ⟨hpos, rfl⟩

theorem Inv.setInode {d : Dinode} (h : Inv s) (hn : n < s.sb.ninodes.toNat)
    (hfree : (s.ino n).type = 0) (htype : d.type = tDir ∨ d.type = tFile ∨ d.type = tDev)
    (hsize : d.size = 0) (haddrs : d.addrs = fun _ ↦ 0) :
    Inv (s.setInode n d) ∧ Held s (s.setInode n d) := by
  have hw : Wrote s (s.setInode n d) n d := .of_setInode h.geometry hn
  have haddr (disk : Disk) (p : Pos) : addr disk d p = 0 := by
    cases p with
    | direct j => exact congrFun haddrs j
    | entry e => rw [addr, haddrs, if_pos rfl]
  have ho : Owned s.sb s.disk (s.setInode n d).ino := by
    refine ⟨h.owned.metadata, h.owned.exclusive.restrict fun x b hb ↦ ?_⟩
    obtain ⟨m, p⟩ := x
    rw [hw.ino, own_eq_some] at hb
    obtain ⟨hm, ht, h0, hb⟩ := hb
    obtain rfl | hne := eq_or_ne m n
    · rw [update_self] at h0
      exact absurd (haddr s.disk p) h0
    · rw [update_of_ne hne] at ht h0 hb
      exact own_eq_some.mpr ⟨hm, ht, h0, hb⟩
  have hown (m : ℕ) (p : Pos) (hm : m < s.sb.ninodes.toNat) (ht : (s.ino m).type ≠ 0)
      (h0 : addr s.disk (s.ino m) p ≠ 0) :
      (addr s.disk (s.ino m) p).toNat ∈ Marked s.sb s.disk :=
    h.owned.exclusive.mem (k := (m, p)) (own_eq_some.mpr ⟨hm, ht, h0, rfl⟩)
  have hr : Replaced s (s.setInode n d) n d := by
    refine ⟨rfl, fun j hj ↦ ⟨hj, rfl⟩, fun j hj hv heq ↦ ?_, fun j hj hv _ ↦ ⟨hv, rfl⟩,
      fun m _ ↦ by rw [hw.ino], hw.disk 1 (Or.inl rfl), fun m hm _ ht ↦ hw.addr_eq h.owned hm ht,
      fun m hm _ ht p h0 ↦ hw.disk_of_mem (hown m p hm ht h0)⟩
    -- an inode that is free is not valid in the cache
    obtain ⟨hdin, h0⟩ := h.copy j hj hv
    have heq' : (s.icache j).inum = n := heq
    rw [hdin, heq', hfree] at h0
    exact absurd rfl h0
  have hsize' : d.size.toNat = 0 := by rw [hsize]; rfl
  refine ⟨h.replaced hr (hw.owned ho) (Or.inr htype) (fun _ ↦ ?_) fun _ off hoff ↦ ?_,
    ⟨rfl, fun _ _ ↦ le_rfl, fun _ _ ↦ rfl, fun _ _ ↦ id, fun _ _ _ ↦ rfl⟩⟩
  · have hzero : blocks d.size.toNat = 0 := by rw [hsize']; rfl
    rw [hzero]
    exact ⟨Nat.zero_le _, fun m _ ↦ by simp [haddr], by simp [haddr]⟩
  · rw [hsize'] at hoff
    exact absurd hoff (Nat.not_lt_zero _)

theorem Inv.ialloc (h : Inv s) (htype : type = tDir ∨ type = tFile ∨ type = tDev)
    (hs : s.ialloc type = some (i, s')) : Inv s' ∧ Held s s' ∧ 0 < (s'.icache i).ref := by
  obtain ⟨n, hfind, hs⟩ := Option.bind_eq_some_iff.mp hs
  have hfree : (inodeAt s.sb s.disk n).type = 0 := by simpa using List.find?_some hfind
  have hn : n < s.sb.ninodes.toNat := by
    have := List.mem_range'_1.mp (List.mem_of_find?_eq_some hfind)
    omega
  obtain ⟨hinv, hheld⟩ := h.setInode (d := ⟨type, 0, 0, 0, 0, fun _ ↦ 0⟩) hn hfree htype rfl rfl
  obtain ⟨hinv', hheld', href, -⟩ := hinv.iget hn hs
  exact ⟨hinv', hheld.trans hheld', (Nat.zero_le _).trans_lt href⟩

end Cache

/-! ## Directories -/

section Directories

variable {s s' : State} {i j : Fin ninode} {dev : Devsw} {name : CString} {n m off : ℕ}

theorem Inv.readi {r : Option (List UInt8)} (h : Inv s) (href : 0 < (s.icache i).ref)
    (hv : (s.icache i).valid = true) (hs : s.readi dev i off n = some (r, s')) : s' = s := by
  by_cases hdev : (s.icache i).din.type = tDev
  · rw [State.readi, if_pos hdev] at hs
    split_ifs at hs
    · exact (Prod.mk.inj (Option.some.inj hs)).2.symm
    · exact (Prod.mk.inj (Option.some.inj hs)).2.symm
  · by_cases hrange : (s.icache i).din.size.toNat < off ∨ 2 ^ 32 ≤ off + n
    · rw [State.readi, if_neg hdev, if_pos hrange] at hs
      exact (Prod.mk.inj (Option.some.inj hs)).2.symm
    · have hf := h.filled_of_valid href hv (h.type_of_valid href hv hdev)
      rw [State.readi_eq hdev hf (by omega) (by omega)] at hs
      exact (Prod.mk.inj (Option.some.inj hs)).2.symm

theorem Inv.dirlookup {r : Option (Fin ninode × ℕ)} (h : Inv s) (href : 0 < (s.icache i).ref)
    (hv : (s.icache i).valid = true) (hs : s.dirlookup dev i name = some (r, s')) :
    Inv s' ∧ Held s s' ∧ (s.icache i).din.type = tDir ∧ (r = none → s' = s) ∧
      ∀ j off, r = some (j, off) → off % 16 = 0 ∧ (s.icache j).ref < (s'.icache j).ref := by
  rw [State.dirlookup, Option.ite_none_left_eq_some, not_not] at hs
  obtain ⟨hdir, hs⟩ := hs
  obtain ⟨⟨⟨off, e⟩, s₁⟩, hscan, hs⟩ := Option.bind_eq_some_iff.mp hs
  obtain ⟨rfl, hmod, he⟩ := State.scan_eq hdir (h.filled_of_valid href hv (Or.inl hdir)) hscan
  cases e with
  | none =>
    obtain ⟨rfl, rfl⟩ := Prod.mk.inj (Option.some.inj hs)
    exact ⟨h, .refl, hdir, fun _ ↦ rfl, nofun⟩
  | some e =>
    obtain ⟨⟨j, s₂⟩, hget, heq⟩ := Option.map_eq_some_iff.mp hs
    obtain ⟨rfl, rfl⟩ := Prod.mk.inj heq
    obtain ⟨-, hle, hdirent⟩ := he e rfl
    have hlt : e.inum.toNat < s₁.sb.ninodes.toNat := by
      obtain ⟨hdin, -⟩ := h.copy i href hv
      rw [hdin] at hdir hle hdirent
      rw [hdirent]
      exact h.entries _ (h.inum i href) hdir off (by omega) hmod
    obtain ⟨hinv, hheld, hgt, -⟩ := h.iget hlt hget
    refine ⟨hinv, hheld, hdir, nofun, ?_⟩
    rintro k o ⟨⟩
    exact ⟨hmod, hgt⟩

theorem Inv.dirlink {r : Bool} (h : Inv s) (href : 0 < (s.icache i).ref)
    (hv : (s.icache i).valid = true) (hn : n < s.sb.ninodes.toNat)
    (hs : s.dirlink dev i name n = some (r, s')) : Inv s' ∧ s'.sb = s.sb := by
  obtain ⟨⟨found, s₁⟩, hlookup, hlink⟩ := Option.bind_eq_some_iff.mp hs
  obtain ⟨hinv, hheld, hdir, hsame, -⟩ := h.dirlookup href hv hlookup
  cases found with
  | some x =>
    obtain ⟨s₂, hput, heq⟩ := Option.map_eq_some_iff.mp hlink
    obtain ⟨-, rfl⟩ := Prod.mk.inj heq
    exact (hinv.iput hput).imp_right fun h ↦ h.1.trans hheld.sb
  | none =>
    obtain rfl := hsame rfl
    obtain ⟨⟨⟨off, e⟩, s₂⟩, hscan, hfree⟩ := Option.bind_eq_some_iff.mp hlink
    obtain ⟨rfl, hmod, -⟩ := State.scan_eq hdir (h.filled_of_valid href hv (Or.inl hdir)) hscan
    obtain ⟨⟨w, s₃⟩, hwrite, hend⟩ := Option.bind_eq_some_iff.mp hfree
    rw [Option.ite_none_right_eq_some] at hend
    obtain ⟨-, rfl⟩ := Prod.mk.inj (Option.some.inj hend.2)
    have hinum : (UInt16.ofNat n).toNat < s₂.sb.ninodes.toNat := (Nat.mod_le n _).trans_lt hn
    exact (h.writei href hv (fun _ ↦ ⟨hmod, _, hinum, rfl⟩) hwrite).imp_right Held.sb

theorem Inv.isdirempty {empty : Bool} (h : Inv s) (href : 0 < (s.icache i).ref)
    (hv : (s.icache i).valid = true) (hdir : (s.icache i).din.type = tDir)
    (hs : s.isdirempty dev i = some (empty, s')) : s' = s := by
  obtain ⟨⟨⟨off, e⟩, s₁⟩, hscan, heq⟩ := Option.map_eq_some_iff.mp hs
  obtain ⟨-, rfl⟩ := Prod.mk.inj heq
  exact (State.scan_eq hdir (h.filled_of_valid href hv (Or.inl hdir)) hscan).1

theorem Inv.decNlink (h : Inv s) (href : 0 < (s.icache i).ref)
    (hv : (s.icache i).valid = true) : Inv (s.decNlink i) ∧ Held s (s.decNlink i) :=
  h.iupdate href hv rfl rfl rfl

/-- The end of `sys_unlink`. When both inodes are the same, there are two references to it. -/
theorem Inv.erase (h : Inv s) (hi : 0 < (s.icache i).ref) (hvi : (s.icache i).valid = true)
    (hj : 0 < (s.icache j).ref) (hvj : (s.icache j).valid = true)
    (hij : i = j → 1 < (s.icache i).ref) (hoff : off % 16 = 0)
    (hs : s.erase dev i j off = some s') : Inv s' ∧ s'.sb = s.sb := by
  obtain ⟨⟨r, s₁⟩, hwrite, hrest⟩ := Option.bind_eq_some_iff.mp hs
  have hzero : (0 : UInt16).toNat < s.sb.ninodes.toNat := (Nat.zero_le _).trans_lt (h.inum i hi)
  obtain ⟨hinv₁, hheld₁⟩ := h.writei hi hvi (fun _ ↦ ⟨hoff, _, hzero, rfl⟩) hwrite
  obtain ⟨-, hput⟩ := (Option.ite_none_left_eq_some (p := r ≠ some 16)).mp hrest
  obtain ⟨s₃, hput, hlast⟩ := Option.bind_eq_some_iff.mp hput
  set s₂ := if (s₁.icache j).din.type = tDir then s₁.decNlink i else s₁ with hs₂
  obtain ⟨hinv₂, hheld₂⟩ : Inv s₂ ∧ Held s₁ s₂ := by
    rw [hs₂]
    split_ifs
    · exact hinv₁.decNlink (hi.trans_le (hheld₁.ref i hi)) (hheld₁.valid i hi hvi)
    · exact ⟨hinv₁, .refl⟩
  have hheld := hheld₁.trans hheld₂
  obtain ⟨hinv₃, hsb, hcache, hself⟩ := hinv₂.iput hput
  obtain ⟨href, hvalid⟩ : 0 < (s₃.icache j).ref ∧ (s₃.icache j).valid = true := by
    obtain rfl | hne := eq_or_ne i j
    · have hgt : 1 < (s₂.icache i).ref := (hij rfl).trans_le (hheld.ref i hi)
      rw [hself hgt]
      exact ⟨Nat.sub_pos_of_lt hgt, hheld.valid i hi hvi⟩
    · rw [hcache j hne.symm]
      exact ⟨hj.trans_le (hheld.ref j hj), hheld.valid j hj hvj⟩
  obtain ⟨hinv₄, hheld₄⟩ := hinv₃.decNlink href hvalid
  exact (hinv₄.iput hlast).imp_right fun h ↦ h.1.trans (hheld₄.sb.trans (hsb.trans hheld.sb))

theorem Inv.unlink {r : Bool} (h : Inv s) (hs : s.unlink dev i name = some (r, s')) :
    Inv s' ∧ s'.sb = s.sb := by
  obtain ⟨s₁, hlock, hs⟩ := Option.bind_eq_some_iff.mp hs
  obtain ⟨hinv₁, hheld₁, hi, hvi⟩ := h.ilock hlock
  split_ifs at hs with hdot
  · obtain ⟨s₂, hput, heq⟩ := Option.map_eq_some_iff.mp hs
    obtain ⟨-, rfl⟩ := Prod.mk.inj heq
    exact (hinv₁.iput hput).imp_right fun h ↦ h.1.trans hheld₁.sb
  obtain ⟨⟨found, s₂⟩, hlookup, hs⟩ := Option.bind_eq_some_iff.mp hs
  obtain ⟨hinv₂, hheld₂, -, -, hfound⟩ := hinv₁.dirlookup hi hvi hlookup
  have hsb₂ := hheld₂.sb.trans hheld₁.sb
  cases found with
  | none =>
    obtain ⟨s₃, hput, heq⟩ := Option.map_eq_some_iff.mp hs
    obtain ⟨-, rfl⟩ := Prod.mk.inj heq
    exact (hinv₂.iput hput).imp_right fun h ↦ h.1.trans hsb₂
  | some x =>
    obtain ⟨j, off⟩ := x
    obtain ⟨hoff, hgt⟩ := hfound j off rfl
    obtain ⟨s₃, hlock', hs⟩ := Option.bind_eq_some_iff.mp hs
    obtain ⟨hinv₃, hheld₃, hj, hvj⟩ := hinv₂.ilock hlock'
    have hheld := hheld₂.trans hheld₃
    have hsb₃ := hheld₃.sb.trans hsb₂
    have herase {s₄ : State} (he : s₃.erase dev i j off = some s₄) : Inv s₄ ∧ s₄.sb = s.sb := by
      refine (hinv₃.erase (hi.trans_le (hheld.ref i hi)) (hheld.valid i hi hvi) hj hvj ?_ hoff
        he).imp_right fun h ↦ h.trans hsb₃
      rintro rfl
      have hle := hheld₃.ref i ((Nat.zero_le _).trans_lt hgt)
      omega
    split_ifs at hs with hnlink hdir
    · obtain ⟨⟨empty, s₄⟩, hempty, hend⟩ := Option.bind_eq_some_iff.mp hs
      obtain rfl := hinv₃.isdirempty hj hvj hdir hempty
      dsimp only at hend
      split_ifs at hend
      · obtain ⟨s₅, he, heq⟩ := Option.map_eq_some_iff.mp hend
        obtain ⟨-, rfl⟩ := Prod.mk.inj heq
        exact herase he
      · obtain ⟨s₅, hput, hend⟩ := Option.bind_eq_some_iff.mp hend
        obtain ⟨s₆, hput', heq⟩ := Option.map_eq_some_iff.mp hend
        obtain ⟨-, rfl⟩ := Prod.mk.inj heq
        obtain ⟨hinv₅, hsb₅, -⟩ := hinv₃.iput hput
        exact (hinv₅.iput hput').imp_right fun h ↦ h.1.trans (hsb₅.trans hsb₃)
    · obtain ⟨s₄, he, heq⟩ := Option.map_eq_some_iff.mp hs
      obtain ⟨-, rfl⟩ := Prod.mk.inj heq
      exact herase he

end Directories

/-! ## Runs -/

/-- The operations of the system calls. Most of them begin with `ilock`. -/
inductive Op
  | iget (inum : ℕ)
  | idup (i : Fin ninode)
  | iput (i : Fin ninode)
  | ialloc (type : UInt16)
  | iupdate (i : Fin ninode) (major minor nlink : UInt16)
  | readi (i : Fin ninode) (off n : ℕ)
  | writei (i : Fin ninode) (src : List UInt8) (off : ℕ)
  | dirlookup (i : Fin ninode) (name : CString)
  | dirlink (i : Fin ninode) (name : CString) (j : Fin ninode)
  | unlink (i : Fin ninode) (name : CString)

/-- One operation. Whoever passes an inode has a reference to it, and a link is to an inode that
somebody holds. `ialloc` is called for the three types, and `sys_open` gives no process a directory
to write to. -/
def State.exec (dev : Devsw) (s : State) : Op → Option State
  | .iget inum => if inum < s.sb.ninodes.toNat then (s.iget inum).map Prod.snd else none
  | .idup i => if 0 < (s.icache i).ref then some (s.idup i) else none
  | .iput i => if 0 < (s.icache i).ref then s.iput i else none
  | .ialloc type =>
    if type = tDir ∨ type = tFile ∨ type = tDev then (s.ialloc type).map Prod.snd else none
  | .iupdate i major minor nlink => (s.ilock i).map fun s ↦
    (s.setDin i ⟨(s.icache i).din.type, major, minor, nlink, (s.icache i).din.size,
      (s.icache i).din.addrs⟩).iupdate i
  | .readi i off n => (s.ilock i).bind fun s ↦ (s.readi dev i off n).map Prod.snd
  | .writei i src off => (s.ilock i).bind fun s ↦
    if (s.icache i).din.type = tDir then none else (s.writei dev i src off).map Prod.snd
  | .dirlookup i name => (s.ilock i).bind fun s ↦ (s.dirlookup dev i name).map Prod.snd
  | .dirlink i name j => (s.ilock i).bind fun s ↦
    if 0 < (s.icache j).ref then (s.dirlink dev i name (s.icache j).inum).map Prod.snd else none
  | .unlink i name => (s.unlink dev i name).map Prod.snd

def Step (dev : Devsw) (s : State) (op : Op) (s' : State) : Prop := s.exec dev op = some s'

theorem Inv.step {dev : Devsw} {s s' : State} {op : Op} (h : Inv s) (hs : Step dev s op s') :
    Inv s' ∧ s'.sb = s.sb := by
  rw [Step, State.exec.eq_def] at hs
  cases op with
  | iget inum =>
    obtain ⟨hlt, hs⟩ := Option.ite_none_right_eq_some.mp hs
    obtain ⟨x, hget, rfl⟩ := Option.map_eq_some_iff.mp hs
    exact (h.iget hlt hget).imp_right fun h ↦ h.1.sb
  | idup i =>
    obtain ⟨href, hs⟩ := Option.ite_none_right_eq_some.mp hs
    obtain rfl := Option.some.inj hs
    exact (h.idup href).imp_right Held.sb
  | iput i =>
    obtain ⟨-, hs⟩ := Option.ite_none_right_eq_some.mp hs
    exact (h.iput hs).imp_right And.left
  | ialloc type =>
    obtain ⟨htype, hs⟩ := Option.ite_none_right_eq_some.mp hs
    obtain ⟨x, halloc, rfl⟩ := Option.map_eq_some_iff.mp hs
    exact (h.ialloc htype halloc).imp_right fun h ↦ h.1.sb
  | iupdate i major minor nlink =>
    obtain ⟨s₁, hlock, rfl⟩ := Option.map_eq_some_iff.mp hs
    obtain ⟨hinv, hheld, href, hv⟩ := h.ilock hlock
    exact (hinv.iupdate (x := ⟨_, major, minor, nlink, _, _⟩) href hv rfl rfl rfl).imp_right
      fun h ↦ h.sb.trans hheld.sb
  | readi i off n =>
    obtain ⟨s₁, hlock, hs⟩ := Option.bind_eq_some_iff.mp hs
    obtain ⟨x, hread, rfl⟩ := Option.map_eq_some_iff.mp hs
    obtain ⟨hinv, hheld, href, hv⟩ := h.ilock hlock
    rw [hinv.readi href hv hread]
    exact ⟨hinv, hheld.sb⟩
  | writei i src off =>
    obtain ⟨s₁, hlock, hs⟩ := Option.bind_eq_some_iff.mp hs
    obtain ⟨hdir, hs⟩ := Option.ite_none_left_eq_some.mp hs
    obtain ⟨x, hwrite, rfl⟩ := Option.map_eq_some_iff.mp hs
    obtain ⟨hinv, hheld, href, hv⟩ := h.ilock hlock
    exact (hinv.writei href hv (fun h ↦ absurd h hdir) hwrite).imp_right
      fun h ↦ h.sb.trans hheld.sb
  | dirlookup i name =>
    obtain ⟨s₁, hlock, hs⟩ := Option.bind_eq_some_iff.mp hs
    obtain ⟨x, hlookup, rfl⟩ := Option.map_eq_some_iff.mp hs
    obtain ⟨hinv, hheld, href, hv⟩ := h.ilock hlock
    exact (hinv.dirlookup href hv hlookup).imp_right fun h ↦ h.1.sb.trans hheld.sb
  | dirlink i name j =>
    obtain ⟨s₁, hlock, hs⟩ := Option.bind_eq_some_iff.mp hs
    obtain ⟨hj, hs⟩ := Option.ite_none_right_eq_some.mp hs
    obtain ⟨x, hlink, rfl⟩ := Option.map_eq_some_iff.mp hs
    obtain ⟨hinv, hheld, href, hv⟩ := h.ilock hlock
    exact (hinv.dirlink href hv (hinv.inum j hj) hlink).imp_right fun h ↦ h.trans hheld.sb
  | unlink i name =>
    obtain ⟨x, hunlink, rfl⟩ := Option.map_eq_some_iff.mp hs
    exact h.unlink hunlink

/-! ## Ownership -/

/-- What the inodes, the indirect blocks and the free map say about the blocks. -/
structure Ownership (sb : Superblock) (d : Disk) : Prop where
  /-- The blocks in front of the data are marked in use. -/
  metadata : ∀ b < datastart sb, used sb d b = true
  /-- A block number that an allocated inode stores is that of a data block in use. -/
  stored : ∀ n < sb.ninodes.toNat, (inodeAt sb d n).type ≠ 0 → ∀ p,
    addr d (inodeAt sb d n) p ≠ 0 → used sb d (addr d (inodeAt sb d n) p).toNat = true ∧
      datastart sb ≤ (addr d (inodeAt sb d n) p).toNat ∧
      (addr d (inodeAt sb d n) p).toNat < sb.size.toNat
  /-- It is not stored at another place. -/
  once : ∀ n < sb.ninodes.toNat, (inodeAt sb d n).type ≠ 0 →
    ∀ n' < sb.ninodes.toNat, (inodeAt sb d n').type ≠ 0 → ∀ p p',
      addr d (inodeAt sb d n) p ≠ 0 → addr d (inodeAt sb d n) p = addr d (inodeAt sb d n') p' →
      n = n' ∧ p = p'
  /-- A file has the blocks that its size needs. -/
  blocks : ∀ n < sb.ninodes.toNat,
    (inodeAt sb d n).type = tDir ∨ (inodeAt sb d n).type = tFile →
      Filled (addr d (inodeAt sb d n)) (blocks (inodeAt sb d n).size.toNat)

theorem Ownership.inv {s : State} (ho : Ownership s.sb s.disk) (hc : Consistent s) : Inv s := by
  have hexclusive : Exclusive (Marked s.sb s.disk) (own s.sb s.disk s.ino) := by
    refine ⟨fun {k b} hk ↦ ?_, fun {k k' b} hk hk' ↦ ?_⟩
    · obtain ⟨hn, ht, h0, rfl⟩ := own_eq_some.mp hk
      exact ho.stored _ hn ht _ h0
    · obtain ⟨hn, ht, h0, hb⟩ := own_eq_some.mp hk
      obtain ⟨hn', ht', -, hb'⟩ := own_eq_some.mp hk'
      obtain ⟨heq, hp⟩ := ho.once _ hn ht _ hn' ht' _ _ h0
        (UInt32.toNat.inj (hb.trans hb'.symm))
      exact Prod.ext heq hp
  exact ⟨hc, ⟨ho.metadata, hexclusive⟩, ho.blocks⟩

theorem Inv.ownership {s : State} (h : Inv s) : Ownership s.sb s.disk := by
  refine ⟨h.owned.metadata, fun n hn ht p h0 ↦ ?_, fun n hn ht n' hn' ht' p p' h0 heq ↦ ?_,
    h.filled⟩
  · exact h.owned.exclusive.mem (k := (n, p)) (own_eq_some.mpr ⟨hn, ht, h0, rfl⟩)
  · have hown : own s.sb s.disk s.ino (n, p) = some _ := own_eq_some.mpr ⟨hn, ht, h0, rfl⟩
    have hown' : own s.sb s.disk s.ino (n', p') = some _ :=
      own_eq_some.mpr ⟨hn', ht', heq ▸ h0, congrArg UInt32.toNat heq.symm⟩
    exact Prod.mk.inj (h.owned.exclusive.inj hown hown')

/-! ### A small file system -/

def smallSuper : Superblock := ⟨20, 16, 4, 0, 2, 2, 3⟩

def rootInode : Dinode := ⟨tDir, 0, 0, 1, 0, fun _ ↦ 0⟩

/-- The super block, a block of inodes, and the bits of the first four blocks. -/
def smallDisk : Disk := fun k ↦
  if k = 1 then Block.ofSuper smallSuper
  else if k = 2 then Block.setInode (fun _ ↦ 0) ⟨1, by decide⟩ rootInode
  else if k = 3 then fun j ↦ if j.1 = 0 then 15 else 0
  else fun _ ↦ 0

def small : State := ⟨smallSuper, smallDisk, fun _ ↦ ⟨0, 0, false, rootInode⟩, []⟩

def noDevices : Devsw := ⟨fun _ ↦ none, fun _ ↦ none⟩

theorem small_ino : ∀ n < 4, ((small.ino n).type = 0 ∨ (small.ino n).type = tDir) ∧
    (small.ino n).size = 0 ∧ ∀ j, (small.ino n).addrs j = 0 := by decide +kernel

theorem small_addr {n : ℕ} (hn : n < 4) (p : Pos) : addr smallDisk (small.ino n) p = 0 := by
  obtain ⟨-, -, haddrs⟩ := small_ino n hn
  cases p with
  | direct j => exact haddrs j
  | entry e => rw [addr, haddrs last, if_pos rfl]

theorem ownership_small : Ownership smallSuper smallDisk := by
  refine ⟨by decide +kernel, fun n hn _ p h0 ↦ absurd (small_addr hn p) h0,
    fun n hn _ _ _ _ p _ h0 ↦ absurd (small_addr hn p) h0, fun n hn _ ↦ ?_⟩
  have hsize : (inodeAt smallSuper smallDisk n).size = 0 := (small_ino n hn).2.1
  rw [hsize]
  exact ⟨Nat.zero_le _, fun m _ ↦ iff_of_false (not_not.mpr (small_addr hn _)) (Nat.not_lt_zero m),
    iff_of_false (not_not.mpr (small_addr hn _)) (by decide)⟩

theorem consistent_small : Consistent small := by
  refine ⟨⟨by decide, by decide, by decide⟩, readsb_eq rfl, fun n hn ↦ ?_,
    fun n hn _ off hoff ↦ ?_, fun _ h ↦ absurd h (lt_irrefl 0),
    fun _ _ h ↦ absurd h (lt_irrefl 0), fun _ h ↦ absurd h (lt_irrefl 0)⟩
  · exact (small_ino n hn).1.imp_right Or.inl
  · rw [(small_ino n hn).2.1] at hoff
    exact absurd hoff (Nat.not_lt_zero off)

/-- A file is written, linked and removed. -/
def createAndRemove : List Op :=
  [.iget 1, .ialloc tFile, .writei ⟨1, by decide⟩ [104, 105] 0,
    .iupdate ⟨1, by decide⟩ 0 0 1, .dirlink ⟨0, by decide⟩ ⟨[97], by decide⟩ ⟨1, by decide⟩,
    .iput ⟨1, by decide⟩, .unlink ⟨0, by decide⟩ ⟨[97], by decide⟩]

/-- A directory `d` is made, and a file `a` in it; nobody holds them in the end. -/
def nested : List Op :=
  [.iget 1, .ialloc tDir, .iupdate ⟨1, by decide⟩ 0 0 1,
    .dirlink ⟨0, by decide⟩ ⟨[100], by decide⟩ ⟨1, by decide⟩, .ialloc tFile,
    .iupdate ⟨2, by decide⟩ 0 0 1, .dirlink ⟨1, by decide⟩ ⟨[97], by decide⟩ ⟨2, by decide⟩,
    .iput ⟨1, by decide⟩, .iput ⟨2, by decide⟩]

/-- **Ownership of blocks.** From a file system in which it holds, it holds after any sequence of
operations. -/
theorem ownership_of_trace {dev : Devsw} {s₀ s : State} {hist : List (State × Op)}
    (hc : Consistent s₀) (ho : Ownership s₀.sb s₀.disk) (t : Trace (Step dev) s₀ hist s) :
    Ownership s.sb s.disk :=
  (t.invariant (ho.inv hc) fun h hs ↦ (h.step hs).1).ownership

theorem ownership_of_trace_createAndRemove :
    ∃ hist s, Trace (Step noDevices) small hist s ∧ hist.map Prod.snd = createAndRemove ∧
      Ownership s.sb s.disk ∧ used s.sb s.disk 4 = false ∧ used s.sb s.disk 5 = true := by
  have hrun : (execute (State.exec noDevices) small createAndRemove).map
      (fun s ↦ (used s.sb s.disk 4, used s.sb s.disk 5)) = some (false, true) := by
    decide +kernel
  obtain ⟨hist, s, t, hlab, hend⟩ : ∃ hist s, Trace (Step noDevices) _ hist s ∧ _ :=
    exists_trace_of_execute_map (fun _ _ _ ↦ id) hrun
  exact ⟨hist, s, t, hlab, ownership_of_trace consistent_small ownership_small t, Prod.mk.inj hend⟩

/-- **The inode cache and the directories** stay consistent with the disk as well, and the super
block stays what it was. -/
theorem consistent_of_trace {dev : Devsw} {s₀ s : State} {hist : List (State × Op)}
    (hc : Consistent s₀) (ho : Ownership s₀.sb s₀.disk) (t : Trace (Step dev) s₀ hist s) :
    Consistent s ∧ s.sb = s₀.sb ∧ readsb s.disk = readsb s₀.disk := by
  obtain ⟨h, hsb⟩ := t.invariant (I := fun s ↦ Inv s ∧ s.sb = s₀.sb) ⟨ho.inv hc, rfl⟩
    fun ⟨h, hsb⟩ hs ↦ (h.step hs).imp_right fun hs ↦ hs.trans hsb
  exact ⟨h.toConsistent, hsb, by rw [h.super, hsb, hc.super]⟩

theorem consistent_of_trace_ialloc : ∃ s,
    execute (State.exec noDevices) small [.iget 1, .ialloc tFile] = some s ∧ Consistent s ∧
      s.sb = smallSuper := by
  have hrun : (execute (State.exec noDevices) small [.iget 1, .ialloc tFile]).isSome := by
    decide +kernel
  obtain ⟨s, hs⟩ := Option.isSome_iff_exists.mp hrun
  obtain ⟨hc, hsb, -⟩ := consistent_of_trace consistent_small ownership_small
    (trace_of_execute (fun _ _ _ ↦ id) hs).1
  exact ⟨s, hs, hc, hsb⟩

end SistemasOperacionais.Xv6.Fs
