import SistemasOperacionais.Foundations.Slots
import SistemasOperacionais.Xv6.Fs.ByteArrays

/-!
# Directories are finite maps

A directory is a file of entries. `dirlookup` takes the first one with the name, `dirlink` looks for
the name first and then takes the first free entry, and `sys_unlink` frees the entry that
`dirlookup` has found. No name is ever in two entries, so it does not matter in which order the
entries lie.

An entry has sixteen bits for the inode number, and `dirlink` takes an `uint`: of a larger number
only the lower half gets into the directory, and if that is zero the entry stays free.
-/

namespace SistemasOperacionais.Xv6.Fs

open Foundations Function

def dirents (d : Disk) (a : Dinode) : List Dirent :=
  (List.range (a.size.toNat / 16)).map fun n ↦ direntAt d (addr d a) (16 * n)

/-! ## Scans -/

section Scan

variable {s : State} {i : Fin ninode} {fuel k n : ℕ} {d : Disk} {a : Dinode}

@[simp] theorem length_dirents (d : Disk) (a : Dinode) :
    (dirents d a).length = a.size.toNat / 16 := by
  rw [dirents, List.length_map, List.length_range]

theorem getElem?_dirents : (dirents d a)[n]? =
    if n < a.size.toNat / 16 then some (direntAt d (addr d a) (16 * n)) else none := by
  rw [dirents, List.getElem?_map]
  split_ifs with h
  · rw [List.getElem?_range h, Option.map_some]
  · rw [List.getElem?_eq_none (by rw [List.length_range]; omega), Option.map_none]

theorem drop_dirents (hk : k < a.size.toNat / 16) : (dirents d a).drop k =
    direntAt d (addr d a) (16 * k) :: (dirents d a).drop (k + 1) := by
  have hlt : k < (dirents d a).length := by rwa [length_dirents]
  have hget := (List.getElem?_eq_getElem hlt).symm.trans getElem?_dirents
  rw [if_pos hk, Option.some.injEq] at hget
  rw [List.drop_eq_getElem_cons hlt, hget]

/-- A scan stops at the first entry that passes the test, or at the end. -/
theorem State.scan_dirents (dev : Devsw) (test : Dirent → Bool)
    (htype : (s.icache i).din.type = tDir)
    (hf : Filled (addr s.disk (s.icache i).din) (blocks (s.icache i).din.size.toNat))
    (hwhole : (s.icache i).din.size.toNat % 16 = 0)
    (hfuel : (s.icache i).din.size.toNat / 16 ≤ k + fuel) :
    State.scan dev i test fuel (16 * k) s =
      some ((16 * (k + ((dirents s.disk (s.icache i).din).drop k).findIdx test),
        ((dirents s.disk (s.icache i).din).drop k).find? test), s) := by
  have hnil {k : ℕ} (hk : (s.icache i).din.size.toNat / 16 ≤ k) :
      (dirents s.disk (s.icache i).din).drop k = [] :=
    List.drop_eq_nil_of_le (by rwa [length_dirents])
  have hsize := (le_blocks_mul (s.icache i).din.size.toNat).trans (Nat.mul_le_mul_right _ hf.le)
  have hmax : maxfile * bsize = 71680 := rfl
  induction fuel generalizing k with
  | zero => rw [hnil (by omega), List.findIdx_nil, List.find?_nil, Nat.add_zero, State.scan]
  | succ fuel ih =>
    rw [State.scan]
    split_ifs with hoff
    · have hmin : min 16 ((s.icache i).din.size.toNat - 16 * k) = 16 := by omega
      rw [State.readi_eq (by rw [htype]; decide) hf hoff.le (by omega), Option.bind_some, hmin,
        drop_dirents (by omega), List.findIdx_cons, List.find?_cons]
      simp only [length_bytes, ne_eq, not_true_eq_false, if_false]
      rw [← direntAt]
      cases test (direntAt s.disk (addr s.disk (s.icache i).din) (16 * k)) with
      | true => rfl
      | false =>
        rw [if_neg Bool.false_ne_true]
        refine (ih (k := k + 1) (by omega)).trans ?_
        simp only [cond_false]
        congr 4
        omega
    · rw [hnil (by omega), List.findIdx_nil, List.find?_nil, Nat.add_zero]

theorem State.scan_rounds (dev : Devsw) (test : Dirent → Bool)
    (htype : (s.icache i).din.type = tDir)
    (hf : Filled (addr s.disk (s.icache i).din) (blocks (s.icache i).din.size.toNat))
    (hwhole : (s.icache i).din.size.toNat % 16 = 0) :
    State.scan dev i test (s.rounds i) 0 s =
      some ((16 * (dirents s.disk (s.icache i).din).findIdx test,
        (dirents s.disk (s.icache i).din).find? test), s) := by
  have hscan := State.scan_dirents (k := 0) dev test htype hf hwhole
    ((Nat.div_le_self ..).trans (Nat.le_add_left (s.rounds i) 0))
  rwa [Nat.mul_zero, Nat.zero_add, List.drop_zero] at hscan

end Scan

/-- What `dirlookup` does once it has found the number `num` at `off`, or nothing. -/
def State.yields (s : State) (off : ℕ) : Option ℕ → Option (Option (Fin ninode × ℕ) × State)
  | none => some (none, s)
  | some num => (s.iget num).map fun (j, s) ↦ (some (j, off), s)

/-- `dirlookup` takes the first entry in use that has the name. -/
theorem State.dirlookup_eq {s : State} {i : Fin ninode} (dev : Devsw) (name : CString)
    (htype : (s.icache i).din.type = tDir)
    (hf : Filled (addr s.disk (s.icache i).din) (blocks (s.icache i).din.size.toNat))
    (hwhole : (s.icache i).din.size.toNat % 16 = 0) : s.dirlookup dev i name =
      s.yields
        (16 * (dirents s.disk (s.icache i).din).findIdx fun e ↦ e.inum ≠ 0 ∧ namecmp name e)
        (((dirents s.disk (s.icache i).din).find? fun e ↦ e.inum ≠ 0 ∧ namecmp name e).map
          fun e ↦ e.inum.toNat) := by
  rw [State.dirlookup, if_neg (not_not.mpr htype), State.scan_rounds dev _ htype hf hwhole,
    Option.bind_some]
  cases (dirents s.disk (s.icache i).din).find? fun e ↦ e.inum ≠ 0 ∧ namecmp name e with
  | none => rfl
  | some e => rfl

/-! ## References -/

section References

variable {s s₁ s' : State} {i j : Fin ninode} {n : ℕ}

/-- The reference that `iget` gives is given back: a recycled entry does not hold the inode yet, so
nothing is freed. -/
theorem State.iput_of_iget (hs : s.iget n = some (j, s₁)) : ∃ s', s₁.iput j = some s' ∧
    s'.sb = s.sb ∧ s'.disk = s.disk ∧ (∀ k, (s'.icache k).ref = (s.icache k).ref) ∧
      ∀ k, 0 < (s.icache k).ref → s'.icache k = s.icache k := by
  obtain ⟨href, rfl, rfl⟩ | ⟨href, rfl, -⟩ := State.iget_cases hs
  · have hback : (s.idup j).deref j = s := by
      simp only [State.deref, State.idup, State.setCache, update_self, update_idem, Inode.withRef,
        Nat.add_sub_cancel, update_eq_self]
    refine ⟨s, ?_, rfl, rfl, fun _ ↦ rfl, fun _ _ ↦ rfl⟩
    have hself : ((s.idup j).icache j).ref = (s.icache j).ref + 1 := by
      rw [State.idup, State.setCache_self]
      rfl
    rw [State.iput, if_neg (by omega), hback]
  · refine ⟨(s.setCache j ⟨n, 1, false, (s.icache j).din⟩).deref j, ?_, rfl, rfl, fun k ↦ ?_,
      fun k hk ↦ ?_⟩
    · rw [State.iput, State.setCache_self, if_neg fun h ↦ Bool.false_ne_true h.2.1]
    · obtain rfl | hne := eq_or_ne k j
      · rw [State.deref, State.setCache_self, State.setCache_self, href]
        rfl
      · rw [State.deref, State.setCache_of_ne hne, State.setCache_of_ne hne]
    · have hne : k ≠ j := by
        rintro rfl
        omega
      rw [State.deref, State.setCache_of_ne hne, State.setCache_of_ne hne]

theorem State.icache_of_iget (hs : s.iget n = some (j, s')) (hi : 0 < (s.icache i).ref) :
    s'.sb = s.sb ∧ s'.disk = s.disk ∧ (s'.icache i).inum = (s.icache i).inum ∧
      (s'.icache i).din = (s.icache i).din ∧ 0 < (s'.icache i).ref := by
  obtain ⟨-, -, rfl⟩ | ⟨href, rfl, -⟩ := State.iget_cases hs
  · refine ⟨rfl, rfl, ?_⟩
    obtain rfl | hne := eq_or_ne i j
    · rw [State.idup, State.setCache_self]
      exact ⟨rfl, rfl, Nat.succ_pos _⟩
    · rw [State.idup, State.setCache_of_ne hne]
      exact ⟨rfl, rfl, hi⟩
  · have hne : i ≠ j := by
      rintro rfl
      omega
    rw [State.setCache_of_ne hne]
    exact ⟨rfl, rfl, rfl, rfl, hi⟩

end References

/-! ## A directory that is locked -/

/-- Inode `i` is a directory that somebody has locked. Its copy in the cache may be ahead of the
disk, and what the other inodes are does not matter. -/
structure IsDir (s : State) (i : Fin ninode) : Prop where
  owners : Open s i
  type : (s.icache i).din.type = tDir
  ref : 0 < (s.icache i).ref
  filled : Filled (addr s.disk (s.icache i).din) (blocks (s.icache i).din.size.toNat)
  whole : (s.icache i).din.size.toNat % 16 = 0

/-- The name and the number in an entry, unless it is free. -/
def Dirent.view (e : Dirent) : Option ((Fin 14 → UInt8) × UInt16) :=
  if e.inum = 0 then none else some (e.name, e.inum)

def State.slots (s : State) (i : Fin ninode) (n : ℕ) : Option ((Fin 14 → UInt8) × UInt16) :=
  (dirents s.disk (s.icache i).din)[n]?.bind Dirent.view

section Locked

variable {s s₁ s' : State} {i j : Fin ninode} {n off : ℕ} {dev : Devsw} {e : Dirent}

theorem Dirent.view_eq_none : e.view = none ↔ e.inum = 0 := by
  simp [Dirent.view]

theorem Dirent.view_eq_some {k : Fin 14 → UInt8} {v : UInt16} :
    e.view = some (k, v) ↔ e = ⟨v, k⟩ ∧ v ≠ 0 := by
  obtain ⟨inum, name⟩ := e
  rw [Dirent.view, Option.ite_none_left_eq_some, Option.some.injEq, Prod.mk.injEq, Dirent.mk.injEq]
  constructor
  · rintro ⟨h0, rfl, rfl⟩
    exact ⟨⟨rfl, rfl⟩, h0⟩
  · rintro ⟨⟨rfl, rfl⟩, h0⟩
    exact ⟨h0, rfl, rfl⟩

theorem IsDir.congr (h : IsDir s i) (hsb : s'.sb = s.sb) (hdisk : s'.disk = s.disk)
    (hinum : (s'.icache i).inum = (s.icache i).inum) (hdin : (s'.icache i).din = (s.icache i).din)
    (href : 0 < (s'.icache i).ref) : IsDir s' i ∧ s'.slots i = s.slots i := by
  have hino : s'.ino = s.ino := by rw [State.ino, State.ino, hsb, hdisk]
  have hview : s'.view i = s.view i := by rw [State.view, State.view, hino, hinum, hdin]
  obtain ⟨hg, hn, ht, hd, ho⟩ := h.owners
  refine ⟨⟨⟨?_, ?_, ?_, ?_, ?_⟩, ?_, href, ?_, ?_⟩, ?_⟩
  · rwa [hsb]
  · rwa [hsb, hinum]
  · rwa [hdin]
  · rwa [hino, hinum]
  · rwa [hsb, hdisk, hview]
  · rw [hdin]
    exact h.type
  · rw [hdisk, hdin]
    exact h.filled
  · rw [hdin]
    exact h.whole
  · funext m
    rw [State.slots, State.slots, hdisk, hdin]

theorem IsDir.iget (h : IsDir s i) (hs : s.iget n = some (j, s')) :
    IsDir s' i ∧ s'.slots i = s.slots i := by
  obtain ⟨hsb, hdisk, hinum, hdin, href⟩ := State.icache_of_iget hs h.ref
  exact h.congr hsb hdisk hinum hdin href

theorem Open.extend (h : Open s i) (hlt : off < 2 ^ 32) (hn : 0 < n) : ∃ x,
    (s.extend i off n).icache = update s.icache i ((s.icache i).withDin x) ∧
      Open (s.extend i off n) i ∧ x.type = (s.icache i).din.type ∧
      x.size.toNat = max (s.icache i).din.size.toNat off ∧
      addr (s.extend i off n).disk x = addr s.disk (s.icache i).din ∧
      ∀ p, addr s.disk (s.icache i).din p ≠ 0 → (s.extend i off n).disk
        (addr s.disk (s.icache i).din p).toNat = s.disk (addr s.disk (s.icache i).din p).toNat := by
  rw [State.extend]
  split_ifs with hext
  · have hb := Back.of_iupdate (x := (s.icache i).din.withSize (.ofNat off)) h.geometry h.inum
    obtain ⟨-, -, haddr⟩ := h.back hb rfl rfl
    refine ⟨_, hb.icache, h.of_back hb rfl rfl, rfl, ?_, haddr, fun p hp ↦ hb.disk_of_mem ?_⟩
    · rw [max_eq_right hext.2.le]
      exact UInt32.toNat_ofNat_of_lt' hlt
    · exact h.owned.exclusive.mem (k := ((s.icache i).inum, p))
        (own_eq_some.mpr (by rw [s.view_self]; exact ⟨h.inum, h.type, hp, rfl⟩))
  · have hle : off ≤ (s.icache i).din.size.toNat := by
      by_contra hgt
      exact hext ⟨hn, not_le.mp hgt⟩
    exact ⟨(s.icache i).din, (update_eq_self i _).symm, h, rfl, (max_eq_left hle).symm, rfl,
      fun _ _ ↦ rfl⟩

theorem State.slots_eq (s : State) (i : Fin ninode) (n : ℕ) : s.slots i n =
    if n < (s.icache i).din.size.toNat / 16 then
      (direntAt s.disk (addr s.disk (s.icache i).din) (16 * n)).view else none := by
  rw [State.slots, getElem?_dirents]
  split_ifs
  · rfl
  · rfl

theorem IsDir.write (h : IsDir s i) (hn : 16 * n ≤ (s.icache i).din.size.toNat)
    (hs : s.writei dev i (State.ofDirent e) (16 * n) = some (some 16, s')) :
    IsDir s' i ∧ s'.slots i = update (s.slots i) n e.view := by
  have hdev : (s.icache i).din.type ≠ tDev := by
    rw [h.type]
    decide
  have hwhole := h.whole
  have hle := le_blocks_mul (s.icache i).din.size.toNat
  have hmul : 16 ∣ blocks (s.icache i).din.size.toNat * bsize := Dvd.dvd.mul_left (by decide) _
  rw [State.writei, if_neg hdev, length_ofDirent] at hs
  split_ifs at hs with hrange hmax
  · cases (Prod.mk.inj (Option.some.inj hs)).1
  · cases (Prod.mk.inj (Option.some.inj hs)).1
  obtain ⟨s₁, hloop, heq⟩ := Option.map_eq_some_iff.mp hs
  obtain ⟨-, rfl⟩ := Prod.mk.inj heq
  obtain ⟨hopen, hgrown, hfilled, hbytes, -⟩ := h.owners.writeLoop h.filled (hn.trans hle)
    (length_ofDirent e).le hloop
  rw [length_ofDirent] at hfilled hbytes
  obtain ⟨a, ha⟩ := hgrown.self
  have hsize₁ : (s₁.icache i).din.size = (s.icache i).din.size := by rw [ha]; rfl
  obtain ⟨x, hcache, hopen', htype, hsize, haddr, hkeep⟩ :=
    hopen.extend (show 16 * n + 16 < 2 ^ 32 by omega) (show 0 < 16 by decide)
  rw [hsize₁] at hsize
  have hself : (s₁.extend i (16 * n + 16) 16).icache i = (s₁.icache i).withDin x := by
    rw [hcache, update_self]
  have hdin : ((s₁.extend i (16 * n + 16) 16).icache i).din = x := by
    rw [hself]
    rfl
  rw [← blocks_max, ← hsize] at hfilled
  refine ⟨⟨hopen', ?_, ?_, ?_, ?_⟩, ?_⟩
  · rw [hdin, htype, ha]
    exact h.type
  · rw [hself, ha]
    exact h.ref
  · rw [hdin, haddr]
    exact hfilled
  · rw [hdin, hsize]
    omega
  · funext m
    rw [State.slots_eq, hdin, haddr, hsize]
    have hentry (hm : 16 * m < x.size.toNat) :
        direntAt (s₁.extend i (16 * n + 16) 16).disk (addr s₁.disk (s₁.icache i).din) (16 * m) =
          if 16 * m = 16 * n then e else
            direntAt s.disk (addr s.disk (s.icache i).din) (16 * m) := by
      have hlt := lt_blocks hm
      rw [direntAt_congr (Nat.mul_mod_right ..)
        (hkeep _ ((hfilled.block _ (hlt.trans hfilled.le)).mpr hlt))]
      exact direntAt_write (Nat.mul_mod_right ..) (Nat.mul_mod_right ..) (fun hne ↦ by omega)
        fun z hz ↦ hbytes z hz
    obtain rfl | hmn := eq_or_ne m n
    · rw [update_self, if_pos (by omega), hentry (by omega), if_pos rfl]
    · rw [update_of_ne hmn, State.slots_eq]
      have hiff : m < max (s.icache i).din.size.toNat (16 * n + 16) / 16 ↔
          m < (s.icache i).din.size.toNat / 16 := by omega
      simp only [hiff]
      split_ifs with hm
      · rw [hentry (by omega), if_neg (by omega)]
      · rfl

theorem IsDir.exists_write (dev : Devsw) (e : Dirent) (h : IsDir s i)
    (hn : 16 * n ≤ (s.icache i).din.size.toNat) (hmax : 16 * n + 16 ≤ maxfile * bsize)
    (hroom : s.Room i (16 * n) 16) :
    ∃ s', s.writei dev i (State.ofDirent e) (16 * n) = some (some 16, s') := by
  have hdev : (s.icache i).din.type ≠ tDev := by
    rw [h.type]
    decide
  have hend : maxfile * bsize = 71680 := rfl
  rw [State.Room, blocks_max] at hroom
  obtain ⟨s₁, hs₁⟩ := h.owners.exists_writeLoop (State.ofDirent e).length (State.ofDirent e)
    h.filled (hn.trans (le_blocks_mul _)) (by rwa [length_ofDirent]) (by rwa [length_ofDirent])
  refine ⟨s₁.extend i (16 * n + 16) 16, ?_⟩
  rw [State.writei, if_neg hdev, if_neg (by rw [length_ofDirent]; omega),
    if_neg (by rw [length_ofDirent]; omega), hs₁, Option.map_some, length_ofDirent]

end Locked

/-! ## The map -/

/-- The directory holds the map `m` from names, as they are stored, to inode numbers. -/
structure Maps (s : State) (i : Fin ninode) (m : (Fin 14 → UInt8) → Option UInt16) : Prop where
  dir : IsDir s i
  table : Represents (s.slots i) m
  names : ∀ n k v, s.slots i n = some (k, v) → ∃ c : CString, k = c.strncpy

section Map

variable {s s₁ s₂ s' : State} {i j : Fin ninode} {n num off : ℕ} {dev : Devsw} {e : Dirent}
  {m : (Fin 14 → UInt8) → Option UInt16} {name : CString} {v : UInt16} {r : Bool}

theorem Maps.congr (h : Maps s i m) (hd : IsDir s' i) (hslots : s'.slots i = s.slots i) :
    Maps s' i m := by
  refine ⟨hd, ?_, ?_⟩
  · rw [hslots]
    exact h.table
  · rw [hslots]
    exact h.names

theorem State.slots_of_getElem? (h : (dirents s.disk (s.icache i).din)[n]? = some e) :
    s.slots i n = e.view := by
  rw [State.slots, h, Option.bind_some]

theorem Maps.dirlookup (dev : Devsw) (h : Maps s i m) (name : CString) : ∃ n,
    s.dirlookup dev i name = s.yields (16 * n) ((m name.strncpy).map UInt16.toNat) ∧
      ∀ v, m name.strncpy = some v → s.slots i n = some (name.strncpy, v) := by
  refine ⟨(dirents s.disk (s.icache i).din).findIdx fun e ↦ e.inum ≠ 0 ∧ namecmp name e, ?_⟩
  rw [State.dirlookup_eq dev name h.dir.type h.dir.filled h.dir.whole,
    List.find?_eq_getElem?_findIdx]
  cases hget : (dirents s.disk (s.icache i).din)[(dirents s.disk (s.icache i).din).findIdx
      fun e ↦ e.inum ≠ 0 ∧ namecmp name e]? with
  | none =>
    -- no entry has the name
    have hk : m name.strncpy = none := by
      refine h.table.eq_none_iff.mpr fun n v hn ↦ ?_
      obtain ⟨e, he, hview⟩ := Option.bind_eq_some_iff.mp hn
      obtain ⟨rfl, h0⟩ := Dirent.view_eq_some.mp hview
      rw [← List.find?_eq_getElem?_findIdx, List.find?_eq_none] at hget
      exact hget _ (List.mem_of_getElem? he) (decide_eq_true ⟨h0, namecmp_iff.mpr rfl⟩)
    rw [hk]
    exact ⟨rfl, fun v hv ↦ absurd hv.symm (Option.some_ne_none v)⟩
  | some e =>
    have htest : e.inum ≠ 0 ∧ namecmp name e := by
      rw [← List.find?_eq_getElem?_findIdx] at hget
      simpa using List.find?_some hget
    have hslot := State.slots_of_getElem? hget
    have hview : e.view = some (e.name, e.inum) := Dirent.view_eq_some.mpr ⟨rfl, htest.1⟩
    obtain ⟨c, hc⟩ := h.names _ _ _ (hslot.trans hview)
    have hname : name.strncpy = e.name := by
      obtain ⟨inum, stored⟩ := e
      obtain rfl : stored = c.strncpy := hc
      exact namecmp_iff.mp htest.2
    rw [hname, h.table.eq_some (hslot.trans hview)]
    refine ⟨rfl, fun v hv ↦ ?_⟩
    rw [hslot, hview, Option.some.inj hv]

theorem IsDir.scan_free (dev : Devsw) (h : IsDir s i) : ∃ n r,
    State.scan dev i (fun e ↦ e.inum = 0) (s.rounds i) 0 s = some ((16 * n, r), s) ∧
      16 * n ≤ (s.icache i).din.size.toNat ∧ s.slots i n = none := by
  refine ⟨_, _, State.scan_rounds dev _ h.type h.filled h.whole, ?_, ?_⟩
  · have hle : (dirents s.disk (s.icache i).din).findIdx (fun e ↦ e.inum = 0) ≤ _ :=
      List.findIdx_le_length
    rw [length_dirents] at hle
    omega
  · rw [State.slots]
    cases hget : (dirents s.disk (s.icache i).din)[(dirents s.disk (s.icache i).din).findIdx
        fun e ↦ e.inum = 0]? with
    | none => rfl
    | some e =>
      rw [← List.find?_eq_getElem?_findIdx] at hget
      have h0 : e.inum = 0 := by simpa using List.find?_some hget
      exact Dirent.view_eq_none.mpr h0

theorem Maps.dirlink_of_some (dev : Devsw) (num : ℕ) (h : Maps s i m) (hk : m name.strncpy = some v)
    (hs : s.iget v.toNat = some (j, s₁)) : ∃ s', s.dirlink dev i name num = some (false, s') ∧
      s'.disk = s.disk ∧ s'.icache i = s.icache i ∧
      (∀ k, (s'.icache k).ref = (s.icache k).ref) ∧ Maps s' i m := by
  obtain ⟨n, hlookup, -⟩ := h.dirlookup dev name
  obtain ⟨s', hput, hsb, hdisk, href, hcache⟩ := State.iput_of_iget hs
  have hself := hcache i h.dir.ref
  obtain ⟨hdir, hslots⟩ := h.dir.congr hsb hdisk (by rw [hself]) (by rw [hself])
    (by rw [hself]; exact h.dir.ref)
  refine ⟨s', ?_, hdisk, hself, href, h.congr hdir hslots⟩
  rw [State.dirlink, hlookup, hk, Option.map_some, State.yields, hs, Option.map_some,
    Option.bind_some]
  simp only [hput, Option.map_some]

theorem Maps.dirlink_of_none (dev : Devsw) (num : ℕ) (h : Maps s i m)
    (hk : m name.strncpy = none) : ∃ n,
    s.slots i n = none ∧ 16 * n ≤ (s.icache i).din.size.toNat ∧ s.dirlink dev i name num =
      (s.writei dev i (State.ofDirent ⟨.ofNat num, name.strncpy⟩) (16 * n)).bind fun (r, s) ↦
        if r = some 16 then some (true, s) else none := by
  obtain ⟨n₀, hlookup, -⟩ := h.dirlookup dev name
  obtain ⟨n, r, hscan, hle, hfree⟩ := h.dir.scan_free dev
  refine ⟨n, hfree, hle, ?_⟩
  rw [State.dirlink, hlookup, hk, Option.map_none, State.yields, Option.bind_some]
  simp only [hscan, Option.bind_some]

theorem Maps.put (h : Maps s i m) (hk : m name.strncpy = none) (hv : UInt16.ofNat num ≠ 0)
    (hs : s.dirlink dev i name num = some (r, s')) :
    r = true ∧ Maps s' i (update m name.strncpy (some (.ofNat num))) := by
  obtain ⟨n, hfree, hle, heq⟩ := h.dirlink_of_none dev num hk
  rw [heq] at hs
  obtain ⟨⟨w, s₁⟩, hw, hs⟩ := Option.bind_eq_some_iff.mp hs
  obtain ⟨rfl, hs⟩ := Option.ite_none_right_eq_some.mp hs
  obtain ⟨rfl, rfl⟩ := Prod.mk.inj (Option.some.inj hs)
  obtain ⟨hdir, hslots⟩ := h.dir.write hle hw
  have hview : (⟨.ofNat num, name.strncpy⟩ : Dirent).view = some (name.strncpy, .ofNat num) :=
    Dirent.view_eq_some.mpr ⟨rfl, hv⟩
  rw [hview] at hslots
  refine ⟨rfl, hdir, ?_, fun l k v hl ↦ ?_⟩
  · rw [hslots]
    exact h.table.put hfree hk
  · rw [hslots] at hl
    obtain rfl | hne := eq_or_ne l n
    · rw [update_self] at hl
      obtain ⟨rfl, -⟩ := Prod.mk.inj (Option.some.inj hl)
      exact ⟨name, rfl⟩
    · rw [update_of_ne hne] at hl
      exact h.names l k v hl

/-- The entry that `dirlookup` has found is erased. -/
theorem Maps.clear (h : Maps s i m) (hs : s.dirlookup dev i name = some (some (j, off), s₁))
    (hdir : IsDir s₂ i) (hslots : s₂.slots i = s₁.slots i)
    (hw : s₂.writei dev i (State.ofDirent ⟨0, fun _ ↦ 0⟩) off = some (some 16, s')) :
    Maps s' i (update m name.strncpy none) := by
  obtain ⟨n, hlookup, hslot⟩ := h.dirlookup dev name
  rw [hlookup] at hs
  cases hk : m name.strncpy with
  | none =>
    rw [hk] at hs
    cases (Prod.mk.inj (Option.some.inj hs)).1
  | some v =>
    rw [hk, Option.map_some, State.yields] at hs
    obtain ⟨⟨k, s₃⟩, hget, heq⟩ := Option.map_eq_some_iff.mp hs
    obtain ⟨hfound, rfl⟩ := Prod.mk.inj heq
    obtain ⟨rfl, rfl⟩ := Prod.mk.inj (Option.some.inj hfound)
    have hn := hslot v hk
    have hsame := hslots.trans (h.dir.iget hget).2
    rw [← hsame] at hn
    have hle : 16 * n ≤ (s₂.icache i).din.size.toNat := by
      by_contra hlt
      rw [State.slots_eq, if_neg (by omega)] at hn
      cases hn
    obtain ⟨hdir', hslots'⟩ := hdir.write hle hw
    have hview : (⟨0, fun _ ↦ 0⟩ : Dirent).view = none := Dirent.view_eq_none.mpr rfl
    rw [hview] at hslots'
    refine ⟨hdir', ?_, fun l k v hl ↦ ?_⟩
    · rw [hslots']
      refine Represents.clear ?_ hn
      rw [hsame]
      exact h.table
    · rw [hslots'] at hl
      obtain rfl | hne := eq_or_ne l n
      · rw [update_self] at hl
        cases hl
      · rw [update_of_ne hne, hsame] at hl
        exact h.names l k v hl

end Map

/-! ## Histories -/

/-- What happens to a directory. -/
inductive DirOp
  /-- `dirlink(dp, name, inum)`, which returns 0 if it is `done`. -/
  | link (name : CString) (inum : UInt32) (done : Bool)
  /-- `sys_unlink` erases the entry that `dirlookup` has found. -/
  | clear (name : CString)
  /-- Something that does not touch the directory. -/
  | other

/-- The directory is as it was. -/
def Beside (i : Fin ninode) (s s' : State) : Prop := IsDir s' i ∧ s'.slots i = s.slots i

def DirStep (dev : Devsw) (i : Fin ninode) (s : State) : DirOp → State → Prop
  | .link name inum done, s' => inum ≠ 0 ∧ s.dirlink dev i name inum.toNat = some (done, s')
  | .clear name, s' => ∃ j off s₁ s₂, s.dirlookup dev i name = some (some (j, off), s₁) ∧
      Beside i s₁ s₂ ∧
      s₂.writei dev i (State.ofDirent ⟨0, fun _ ↦ 0⟩) off = some (some 16, s')
  | .other, s' => Beside i s s'

/-- The number fits into an entry. -/
def DirOp.Fits : DirOp → Prop
  | .link _ inum _ => inum < 65536
  | .clear _ => True
  | .other => True

/-- What an operation means for the map. -/
def DirOp.apply (m : (Fin 14 → UInt8) → Option UInt32) :
    DirOp → (Fin 14 → UInt8) → Option UInt32
  | .link name inum true => update m name.strncpy (some inum)
  | .link _ _ false => m
  | .clear name => update m name.strncpy none
  | .other => m

/-- The number of the last link of a name that has been made and not been erased since. -/
def latest (ops : List DirOp) : (Fin 14 → UInt8) → Option UInt32 :=
  ops.foldl DirOp.apply fun _ ↦ none

section Histories

variable {dev : Devsw} {i : Fin ninode} {s₀ s s' : State} {hist : List (State × DirOp)}
  {m : (Fin 14 → UInt8) → Option UInt32} {op : DirOp}

theorem latest_snoc (ops : List DirOp) (op : DirOp) :
    latest (ops ++ [op]) = op.apply (latest ops) := by
  rw [latest, List.foldl_append, List.foldl_cons, List.foldl_nil, latest]

/-- The numbers of `m` as they are in the entries. -/
def stored (m : (Fin 14 → UInt8) → Option UInt32) (k : Fin 14 → UInt8) : Option UInt16 :=
  (m k).map UInt32.toUInt16

theorem stored_update {k : Fin 14 → UInt8} {v : Option UInt32} :
    stored (update m k v) = update (stored m) k (v.map UInt32.toUInt16) :=
  comp_update (Option.map UInt32.toUInt16) m k v

theorem toNat_toUInt16 {inum : UInt32} (hlt : inum < 65536) :
    inum.toUInt16.toNat = inum.toNat := by
  rw [UInt32.toNat_toUInt16]
  exact Nat.mod_eq_of_lt (UInt32.lt_iff_toNat_lt.mp hlt)

theorem toUInt16_ne_zero {inum : UInt32} (h0 : inum ≠ 0) (hlt : inum < 65536) :
    inum.toUInt16 ≠ 0 := by
  intro heq
  have hnat := toNat_toUInt16 hlt
  rw [heq] at hnat
  exact h0 (UInt32.toNat.inj hnat.symm)

theorem latest_lt (ops : List DirOp) (h : ∀ op ∈ ops, op.Fits) (k : Fin 14 → UInt8) (v : UInt32)
    (hv : latest ops k = some v) : v < 65536 := by
  induction ops using List.reverseRecOn with
  | nil => cases hv
  | append_singleton ops op ih =>
    have ih := ih fun o ho ↦ h o (List.mem_append_left _ ho)
    have hop := h op List.mem_concat_self
    rw [latest_snoc] at hv
    cases op with
    | link name inum done =>
      cases done with
      | true =>
        obtain rfl | hne := eq_or_ne k name.strncpy
        · rw [DirOp.apply, update_self] at hv
          obtain rfl := Option.some.inj hv
          exact hop
        · rw [DirOp.apply, update_of_ne hne] at hv
          exact ih hv
      | false => exact ih hv
    | clear name =>
      obtain rfl | hne := eq_or_ne k name.strncpy
      · rw [DirOp.apply, update_self] at hv
        cases hv
      · rw [DirOp.apply, update_of_ne hne] at hv
        exact ih hv
    | other => exact ih hv

theorem Maps.step (h : Maps s i (stored m)) (hfit : op.Fits) (hs : DirStep dev i s op s') :
    Maps s' i (stored (op.apply m)) := by
  cases op with
  | link name inum done =>
    obtain ⟨h0, hs⟩ := hs
    cases hk : stored m name.strncpy with
    | none =>
      have hnum : UInt16.ofNat inum.toNat = inum.toUInt16 := UInt16.ofNat_uInt32ToNat inum
      obtain ⟨rfl, hmaps⟩ := h.put hk (by rw [hnum]; exact toUInt16_ne_zero h0 hfit) hs
      rw [hnum] at hmaps
      rwa [DirOp.apply, stored_update, Option.map_some]
    | some v =>
      obtain ⟨n, hlookup, -⟩ := h.dirlookup dev name
      rw [hk, Option.map_some, State.yields] at hlookup
      obtain ⟨x, hx, -⟩ := Option.bind_eq_some_iff.mp hs
      rw [hlookup] at hx
      obtain ⟨⟨j, s₁⟩, hget, -⟩ := Option.map_eq_some_iff.mp hx
      obtain ⟨s₂, hlink, -, -, -, hmaps⟩ := h.dirlink_of_some dev inum.toNat hk hget
      obtain ⟨rfl, rfl⟩ := Prod.mk.inj (Option.some.inj (hs.symm.trans hlink))
      exact hmaps
  | clear name =>
    obtain ⟨j, off, s₁, s₂, hlookup, ⟨hdir, hslots⟩, hw⟩ := hs
    rw [DirOp.apply, stored_update]
    exact h.clear hlookup hdir hslots hw
  | other => exact h.congr hs.1 hs.2

theorem Maps.of_trace (h0 : IsDir s₀ i)
    (hempty : ∀ e ∈ dirents s₀.disk (s₀.icache i).din, e.inum = 0)
    (t : Trace (DirStep dev i) s₀ hist s) (hfit : ∀ x ∈ hist, x.2.Fits) :
    Maps s i (stored (latest (hist.map Prod.snd))) := by
  induction t with
  | nil =>
    have hfree (n : ℕ) : s₀.slots i n = none := by
      refine Option.bind_eq_none_iff.mpr fun e he ↦ ?_
      exact Dirent.view_eq_none.mpr (hempty e (List.mem_of_getElem? he))
    refine ⟨h0, .empty hfree, fun n k v hn ↦ ?_⟩
    rw [hfree] at hn
    cases hn
  | snoc t hs ih =>
    rw [List.map_append, List.map_cons, List.map_nil, latest_snoc]
    exact (ih fun x hx ↦ hfit x (List.mem_append_left _ hx)).step
      (hfit _ List.mem_concat_self) hs

/-- **Directories are finite maps.** After any history no name is in two entries in use, `dirlookup`
takes the inode of the last link of the name that has not been erased, `dirlink` of a name that is
there fails and changes neither the directory nor a reference count, and `dirlink` of another one
changes what `dirlookup` finds for no other name. -/
theorem directory_map (h0 : IsDir s₀ i)
    (hempty : ∀ e ∈ dirents s₀.disk (s₀.icache i).din, e.inum = 0)
    (t : Trace (DirStep dev i) s₀ hist s) (hfit : ∀ x ∈ hist, x.2.Fits) :
    (∀ a b k v w, s.slots i a = some (k, v) → s.slots i b = some (k, w) → a = b) ∧
    (∀ name, ∃ off, s.dirlookup dev i name =
      s.yields off ((latest (hist.map Prod.snd) name.strncpy).map UInt32.toNat)) ∧
    (∀ name inum num, latest (hist.map Prod.snd) name.strncpy = some num →
      (s.iget num.toNat).isSome → ∃ s', s.dirlink dev i name inum = some (false, s') ∧
        s'.disk = s.disk ∧ s'.icache i = s.icache i ∧
        ∀ j, (s'.icache j).ref = (s.icache j).ref) ∧
    ∀ name (inum : UInt32), latest (hist.map Prod.snd) name.strncpy = none → inum ≠ 0 →
      inum < 65536 →
      ((s.icache i).din.size.toNat + 16 ≤ maxfile * bsize →
        s.Room i (s.icache i).din.size.toNat 16 →
          ∃ s', s.dirlink dev i name inum.toNat = some (true, s')) ∧
      ∀ done s', s.dirlink dev i name inum.toNat = some (done, s') → done = true ∧
        ∀ other : CString, other.strncpy ≠ name.strncpy → ∃ off, s'.dirlookup dev i other =
          s'.yields off ((latest (hist.map Prod.snd) other.strncpy).map UInt32.toNat) := by
  have h := Maps.of_trace h0 hempty t hfit
  set m := latest (hist.map Prod.snd) with hm
  have hlt := latest_lt (hist.map Prod.snd) fun op hop ↦ by
    obtain ⟨x, hx, rfl⟩ := List.mem_map.mp hop
    exact hfit x hx
  rw [← hm] at hlt
  have hstored (k : Fin 14 → UInt8) : (stored m k).map UInt16.toNat = (m k).map UInt32.toNat := by
    rw [stored, Option.map_map]
    refine Option.map_congr fun v hv ↦ toNat_toUInt16 (hlt k v hv)
  refine ⟨fun a b k v w ↦ h.table.distinct, fun name ↦ ?_, fun name inum num hnum hget ↦ ?_,
    fun name inum hnum hz hfits ↦ ⟨fun hmax hroom ↦ ?_, fun done s' hs ↦ ?_⟩⟩
  · obtain ⟨n, hlookup, -⟩ := h.dirlookup dev name
    rw [hstored] at hlookup
    exact ⟨_, hlookup⟩
  · obtain ⟨⟨j, s₁⟩, hget⟩ := Option.isSome_iff_exists.mp hget
    have hk : stored m name.strncpy = some num.toUInt16 := by rw [stored, hnum, Option.map_some]
    rw [← toNat_toUInt16 (hlt _ _ hnum)] at hget
    obtain ⟨s', hs, hdisk, hself, href, -⟩ := h.dirlink_of_some dev inum hk hget
    exact ⟨s', hs, hdisk, hself, href⟩
  · have hk : stored m name.strncpy = none := by rw [stored, hnum, Option.map_none]
    obtain ⟨n, -, hle, heq⟩ := h.dirlink_of_none dev inum.toNat hk
    obtain ⟨s', hs⟩ := h.dir.exists_write dev ⟨.ofNat inum.toNat, name.strncpy⟩ hle (by omega)
      (hroom.mono hle)
    exact ⟨s', by rw [heq, hs]; rfl⟩
  · have hk : stored m name.strncpy = none := by rw [stored, hnum, Option.map_none]
    have hnum16 : UInt16.ofNat inum.toNat = inum.toUInt16 := UInt16.ofNat_uInt32ToNat inum
    obtain ⟨rfl, hmaps⟩ := h.put hk (by rw [hnum16]; exact toUInt16_ne_zero hz hfits) hs
    refine ⟨rfl, fun other hother ↦ ?_⟩
    obtain ⟨n, hlookup, -⟩ := hmaps.dirlookup dev other
    rw [update_of_ne hother, hstored] at hlookup
    exact ⟨_, hlookup⟩

theorem isDir_smallOpen : IsDir smallOpen ⟨0, by decide⟩ := by
  have hopen : Open smallOpen ⟨0, by decide⟩ := inv_smallOpen.open (by decide) rfl
  exact ⟨hopen, rfl, by decide, inv_smallOpen.filled_of_valid (by decide) rfl (Or.inl rfl), rfl⟩

theorem dirents_smallOpen :
    dirents smallOpen.disk (smallOpen.icache ⟨0, by decide⟩).din = [] := rfl

/-- The names `a` and `b` are linked. -/
theorem directory_map_ab : ∃ hist s, Trace (DirStep noDevices ⟨0, by decide⟩) smallOpen hist s ∧
    ∃ off, s.dirlookup noDevices ⟨0, by decide⟩ ⟨[97], by decide⟩ = s.yields off (some 2) := by
  have hrun : ((smallOpen.dirlink noDevices ⟨0, by decide⟩ ⟨[97], by decide⟩ 2).bind fun x ↦
      (x.2.dirlink noDevices ⟨0, by decide⟩ ⟨[98], by decide⟩ 3).map fun y ↦ (x.1, y.1)) =
        some (true, true) := by decide +kernel
  obtain ⟨⟨r, s₁⟩, hs₁, hrun⟩ := Option.bind_eq_some_iff.mp hrun
  obtain ⟨⟨r', s₂⟩, hs₂, heq⟩ := Option.map_eq_some_iff.mp hrun
  obtain ⟨rfl, rfl⟩ := Prod.mk.inj heq
  have t : Trace (DirStep noDevices ⟨0, by decide⟩) smallOpen
      [(smallOpen, .link ⟨[97], by decide⟩ 2 true), (s₁, .link ⟨[98], by decide⟩ 3 true)] s₂ :=
    .snoc (h := [_]) (.snoc .nil ⟨by decide, hs₁⟩) ⟨by decide, hs₂⟩
  refine ⟨_, s₂, t, ?_⟩
  refine (directory_map isDir_smallOpen (by simp [dirents_smallOpen]) t ?_).2.1 ⟨[97], by decide⟩
  simp [DirOp.Fits]

/-- Of the number 65536 nothing gets into the entry, and the name is not found. -/
theorem not_directory_map : ∃ hist s,
    Trace (DirStep noDevices ⟨0, by decide⟩) smallOpen hist s ∧
      latest (hist.map Prod.snd) (CString.strncpy ⟨[97], by decide⟩) = some 65536 ∧
      (s.dirlookup noDevices ⟨0, by decide⟩ ⟨[97], by decide⟩).map Prod.fst = some none := by
  have hrun : ((smallOpen.dirlink noDevices ⟨0, by decide⟩ ⟨[97], by decide⟩ 65536).bind fun x ↦
      (x.2.dirlookup noDevices ⟨0, by decide⟩ ⟨[97], by decide⟩).map fun y ↦ (x.1, y.1)) =
        some (true, none) := by decide +kernel
  obtain ⟨⟨r, s₁⟩, hs₁, hrun⟩ := Option.bind_eq_some_iff.mp hrun
  obtain ⟨⟨r', s₂⟩, hs₂, heq⟩ := Option.map_eq_some_iff.mp hrun
  obtain ⟨rfl, rfl⟩ := Prod.mk.inj heq
  have t : Trace (DirStep noDevices ⟨0, by decide⟩) smallOpen
      [(smallOpen, .link ⟨[97], by decide⟩ 65536 true)] s₁ := .snoc .nil ⟨by decide, hs₁⟩
  refine ⟨_, s₁, t, ?_, by rw [hs₂, Option.map_some]⟩
  rw [List.map_cons, List.map_nil, latest, List.foldl_cons, List.foldl_nil, DirOp.apply,
    update_self]

end Histories

end SistemasOperacionais.Xv6.Fs
