import SistemasOperacionais.Foundations.Words
import SistemasOperacionais.Xv6.Fs.Directories

/-!
# Paths

`skipelem`, `namex`, `namei` and `nameiparent`. A path is cut into its components, and each of them
is looked up in the directory that the ones before have led to. On the way every inode is locked,
and its reference is exchanged for one to the next inode.

Whoever holds a reference to an inode keeps it from being freed, and so does an entry in a
directory. So an inode that the walk comes to is not freed when the walk leaves it again, and all
that remains of the walk is the reference to the last inode.
-/

namespace SistemasOperacionais.Xv6.Fs

open Foundations Function

/-! ## The functions -/

def slash : UInt8 := 47

/-- The bytes up to a zero, as a string. -/
def CString.ofBytes (bs : List UInt8) : CString where
  bytes := bs.takeWhile (· ≠ 0)
  nonzero h := by simpa using List.mem_takeWhile_imp h

/-- `name` after the path element `elem` has been copied to it. Of a shorter element the end is
marked, and what was behind stays. -/
def copyElem (elem : List UInt8) (name : Fin 14 → UInt8) : Fin 14 → UInt8 := fun j ↦
  if dirsiz ≤ elem.length then elem.getD j 0
  else if j < elem.length then elem.getD j 0
  else if (j : ℕ) = elem.length then 0
  else name j

/-- `skipelem`; it returns the rest of the path and the new `name`. -/
def skipelem (path : List UInt8) (name : Fin 14 → UInt8) : Option (List UInt8 × (Fin 14 → UInt8)) :=
  let s := path.dropWhile (· = slash)
  if s = [] then none
  else some ((s.dropWhile (· ≠ slash)).dropWhile (· = slash),
    copyElem (s.takeWhile (· ≠ slash)) name)

/-- `name`, which has no zero at its end if it is full, as `namecmp` reads it. -/
def nameOf (name : Fin 14 → UInt8) : CString := .ofBytes (List.ofFn name)

/-- The inodes with their locks, the bits `I_BUSY`. -/
structure Kernel where
  fs : State
  busy : Fin ninode → Bool

namespace Kernel

variable (t : Kernel)

/-- A recycled entry of the cache starts with `flags = 0`. -/
def flags (i : Fin ninode) : Fin ninode → Bool :=
  if (t.fs.icache i).ref = 0 then update t.busy i false else t.busy

def iget (inum : ℕ) : Option (Fin ninode × Kernel) :=
  (t.fs.iget inum).map fun (i, s) ↦ (i, ⟨s, t.flags i⟩)

def idup (i : Fin ninode) : Kernel := ⟨t.fs.idup i, t.busy⟩

/-- `ilock`; for an inode that is locked nobody would ever wake the caller. -/
def ilock (i : Fin ninode) : Option Kernel :=
  if t.busy i then none else (t.fs.ilock i).map fun s ↦ ⟨s, update t.busy i true⟩

def iunlock (i : Fin ninode) : Option Kernel :=
  if t.busy i ∧ 0 < (t.fs.icache i).ref then some ⟨t.fs, update t.busy i false⟩ else none

/-- `iput`, with its panic when an inode that is to be freed is locked. -/
def iput (i : Fin ninode) : Option Kernel :=
  if ((t.fs.icache i).ref = 1 ∧ (t.fs.icache i).valid ∧ (t.fs.icache i).din.nlink = 0) ∧ t.busy i
  then none
  else (t.fs.iput i).map fun s ↦ ⟨s, t.busy⟩

def iunlockput (i : Fin ninode) : Option Kernel := (t.iunlock i).bind fun t ↦ t.iput i

def dirlookup (dev : Devsw) (i : Fin ninode) (name : CString) :
    Option (Option (Fin ninode) × Kernel) :=
  (t.fs.dirlookup dev i name).map fun (r, s) ↦
    match r with
    | some (j, _) => (some j, ⟨s, t.flags j⟩)
    | none => (none, ⟨s, t.busy⟩)

/-- The loop of `namex`, which is executed once for a byte of the path at most. -/
def namexLoop (dev : Devsw) (nameiparent : Bool) : ℕ → List UInt8 → (Fin 14 → UInt8) →
    Fin ninode → Kernel → Option (Option (Fin ninode) × (Fin 14 → UInt8) × Kernel)
  | 0, _, _, _, _ => none
  | fuel + 1, path, name, ip, t =>
    match skipelem path name with
    | none =>
      if nameiparent then (t.iput ip).map fun t ↦ (none, name, t) else some (some ip, name, t)
    | some (path, name) =>
      (t.ilock ip).bind fun t ↦
        if (t.fs.icache ip).din.type ≠ tDir then (t.iunlockput ip).map fun t ↦ (none, name, t)
        else if nameiparent ∧ path = [] then
          -- Stop one level early.
          (t.iunlock ip).map fun t ↦ (some ip, name, t)
        else (t.dirlookup dev ip (nameOf name)).bind fun (next, t) ↦
          (t.iunlockput ip).bind fun t ↦
            match next with
            | none => some (none, name, t)
            | some next => namexLoop dev nameiparent fuel path name next t

/-- `namex` of a process whose current directory is `cwd`. -/
def namex (dev : Devsw) (cwd : Fin ninode) (path : CString) (nameiparent : Bool)
    (name : Fin 14 → UInt8) : Option (Option (Fin ninode) × (Fin 14 → UInt8) × Kernel) :=
  if path.byte 0 = slash then
    (t.iget rootino).bind fun (ip, t) ↦
      namexLoop dev nameiparent (path.bytes.length + 1) path.bytes name ip t
  else namexLoop dev nameiparent (path.bytes.length + 1) path.bytes name cwd (t.idup cwd)

/-- `namei`; `name` is what happens to be in its local variable. -/
def namei (dev : Devsw) (cwd : Fin ninode) (path : CString) (name : Fin 14 → UInt8) :
    Option (Option (Fin ninode) × Kernel) :=
  (t.namex dev cwd path false name).map fun (ip, _, t) ↦ (ip, t)

def nameiparent (dev : Devsw) (cwd : Fin ninode) (path : CString) (name : Fin 14 → UInt8) :
    Option (Option (Fin ninode) × (Fin 14 → UInt8) × Kernel) :=
  t.namex dev cwd path true name

end Kernel

/-! ## Components -/

/-- A component of a path, truncated to `DIRSIZ` bytes. -/
def truncated (elem : List UInt8) : CString := .ofBytes (elem.take dirsiz)

/-- The components of a path: the longest pieces without a slash. -/
def components (path : List UInt8) : List CString := (words slash path).map truncated

section Components

variable {path rest : List UInt8} {name name' : Fin 14 → UInt8}

theorem CString.ofBytes_congr {a b : List UInt8}
    (h : a.takeWhile (· ≠ 0) = b.takeWhile (· ≠ 0)) : CString.ofBytes a = .ofBytes b := by
  simp only [CString.ofBytes, h]

theorem nameOf_copyElem (elem : List UInt8) (name : Fin 14 → UInt8) :
    nameOf (copyElem elem name) = truncated elem := by
  refine CString.ofBytes_congr ?_
  obtain hle | hlt := le_or_gt dirsiz elem.length
  · have heq : List.ofFn (copyElem elem name) = elem.take dirsiz := by
      refine List.ext_getElem ?_ fun n hn hn' ↦ ?_
      · rw [List.length_ofFn, List.length_take, min_eq_left hle, dirsiz]
      · have hlt : n < elem.length := hn'.trans_le (List.length_take_le' _ _)
        rw [List.getElem_ofFn, copyElem, if_pos hle, List.getElem_take,
          List.getD_eq_getElem _ _ hlt]
    rw [heq]
  · have heq : List.ofFn (copyElem elem name) =
        elem ++ 0 :: (List.ofFn name).drop (elem.length + 1) := by
      rw [dirsiz] at hlt
      refine List.ext_getElem ?_ fun n hn hn' ↦ ?_
      · rw [List.length_append, List.length_cons, List.length_drop, List.length_ofFn,
          List.length_ofFn]
        omega
      · rw [List.length_ofFn] at hn
        rw [List.getElem_ofFn, copyElem, if_neg (by rw [dirsiz]; omega), List.getElem_append]
        obtain hne | rfl | hgt := lt_trichotomy n elem.length
        · rw [if_pos hne, dif_pos hne, List.getD_eq_getElem _ _ hne]
        · rw [if_neg (lt_irrefl _), if_pos rfl, dif_neg (lt_irrefl _)]
          simp only [Nat.sub_self, List.getElem_cons_zero]
        · rw [if_neg (show ¬n < elem.length by omega), if_neg (show ¬n = elem.length by omega),
            dif_neg (by omega), List.getElem_cons, dif_neg (by omega), List.getElem_drop,
            List.getElem_ofFn]
          congr 1
          exact Fin.ext (show n = elem.length + 1 + (n - elem.length - 1) by omega)
    have hstop : (0 :: (List.ofFn name).drop (elem.length + 1)).takeWhile (· ≠ 0) = [] :=
      List.takeWhile_cons_of_neg (by decide)
    rw [heq, List.take_of_length_le hlt.le, List.takeWhile_append, hstop, List.append_nil]
    split_ifs with hall
    · exact ((List.takeWhile_prefix _).eq_of_length hall).symm
    · rfl

theorem skipelem_eq_none_iff : skipelem path name = none ↔ components path = [] := by
  rw [components, List.map_eq_nil_iff, ← words_dropWhile, skipelem]
  cases hs : path.dropWhile (· = slash) with
  | nil => simp
  | cons c t => simp [words_cons (ne_of_dropWhile hs)]

/-- The first component is copied to `name`, and the others are left. -/
theorem components_of_skipelem (h : skipelem path name = some (rest, name')) :
    components path = nameOf name' :: components rest ∧ rest.length < path.length ∧
      (rest = [] ↔ components rest = []) := by
  rw [skipelem] at h
  obtain ⟨hne, heq⟩ := Option.ite_none_left_eq_some.mp h
  obtain ⟨hrest, rfl⟩ := Prod.mk.inj (Option.some.inj heq)
  have hlen := List.length_dropWhile_le (fun c ↦ decide (c = slash)) path
  rw [components, ← words_dropWhile, nameOf_copyElem]
  cases hs : path.dropWhile (· = slash) with
  | nil => exact absurd hs hne
  | cons c t =>
    have hc := ne_of_dropWhile hs
    rw [hs, List.dropWhile_cons_of_pos (by simpa using hc)] at hrest
    rw [hs, List.length_cons] at hlen
    have hlen' := List.length_dropWhile_le (fun c ↦ decide (c ≠ slash)) t
    have hlen'' := List.length_dropWhile_le (fun c ↦ decide (c = slash))
      (t.dropWhile (· ≠ slash))
    refine ⟨?_, by rw [← hrest]; omega, fun h0 ↦ by rw [h0]; rfl, fun h0 ↦ ?_⟩
    · rw [words_cons hc, words_tail, ← words_dropWhile (t.dropWhile _), hrest, List.map_cons,
        List.takeWhile_cons_of_pos (by simpa using hc), components]
    · cases rest with
      | nil => rfl
      | cons x r =>
        rw [components, words_cons (ne_of_dropWhile hrest)] at h0
        cases h0

end Components

/-! ## References -/

/-- Since `s₀` only the inode cache has changed, and `c` references have been taken. -/
structure Refs (s₀ s : State) (c : Fin ninode → ℕ) : Prop where
  inv : Inv s
  sb : s.sb = s₀.sb
  disk : s.disk = s₀.disk
  ref : ∀ k, (s.icache k).ref = (s₀.icache k).ref + c k
  inum : ∀ k, 0 < (s₀.icache k).ref → (s.icache k).inum = (s₀.icache k).inum

namespace Refs

variable {s₀ s s' : State} {c : Fin ninode → ℕ} {i j : Fin ninode} {n : ℕ}

theorem refl (h : Inv s) : Refs s s 0 := ⟨h, rfl, rfl, fun _ ↦ rfl, fun _ _ ↦ rfl⟩

theorem ino_eq (h : Refs s₀ s c) : s.ino = s₀.ino := by
  rw [State.ino, State.ino, h.sb, h.disk]

theorem pos (h : Refs s₀ s c) (hi : 0 < c i) : 0 < (s.icache i).ref := by
  rw [h.ref]
  omega

theorem of_update {y : Inode} {d : Fin ninode → ℕ} (h : Refs s₀ s c) (hinv : Inv s')
    (hsb : s'.sb = s.sb) (hdisk : s'.disk = s.disk)
    (hcache : s'.icache = update s.icache i y) (hd : ∀ k, k ≠ i → d k = c k)
    (href : y.ref = (s₀.icache i).ref + d i)
    (hinum : 0 < (s₀.icache i).ref → y.inum = (s₀.icache i).inum) : Refs s₀ s' d := by
  refine ⟨hinv, hsb.trans h.sb, hdisk.trans h.disk, fun k ↦ ?_, fun k hk ↦ ?_⟩
  · obtain rfl | hne := eq_or_ne k i
    · rw [hcache, update_self, href]
    · rw [hcache, update_of_ne hne, h.ref, hd k hne]
  · obtain rfl | hne := eq_or_ne k i
    · rw [hcache, update_self, hinum hk]
    · rw [hcache, update_of_ne hne, h.inum k hk]

theorem idup (h : Refs s₀ s c) (hi : 0 < (s.icache i).ref) :
    Refs s₀ (s.idup i) (c + Pi.single i 1) := by
  refine h.of_update (h.inv.idup hi).1 rfl rfl rfl (fun k hk ↦ ?_) ?_ (h.inum i)
  · rw [Pi.add_apply, Pi.single_eq_of_ne hk, Nat.add_zero]
  · rw [Pi.add_apply, Pi.single_eq_same, ← Nat.add_assoc, ← h.ref]
    rfl

theorem iget (h : Refs s₀ s c) (hn : n < s.sb.ninodes.toNat) (hs : s.iget n = some (j, s')) :
    Refs s₀ s' (c + Pi.single j 1) ∧ (s'.icache j).inum = n := by
  obtain ⟨hinv, -, -, hinum⟩ := h.inv.iget hn hs
  refine ⟨?_, hinum⟩
  obtain ⟨href, -, rfl⟩ | ⟨href, rfl, -⟩ := State.iget_cases hs
  · exact h.idup href
  · have href' := h.ref j
    refine h.of_update hinv rfl rfl rfl (fun k hk ↦ ?_) ?_ fun hpos ↦ by omega
    · rw [Pi.add_apply, Pi.single_eq_of_ne hk, Nat.add_zero]
    · rw [Pi.add_apply, Pi.single_eq_same]
      change 1 = _
      omega

theorem ilock (h : Refs s₀ s c) (hi : 0 < (s.icache i).ref)
    (htype : (s₀.ino (s.icache i).inum).type ≠ 0) : ∃ s', s.ilock i = some s' ∧ Refs s₀ s' c ∧
      (s'.icache i).din = s₀.ino (s.icache i).inum ∧ (s'.icache i).valid = true ∧
      ∀ k, (s'.icache k).inum = (s.icache k).inum := by
  rw [← h.ino_eq] at htype ⊢
  obtain hv | hv := Bool.eq_false_or_eq_true (s.icache i).valid
  · exact ⟨s, by rw [State.ilock, if_neg (by omega), if_pos hv], h, (h.inv.copy i hi hv).1, hv,
      fun _ ↦ rfl⟩
  · have hself : (s.load i).icache i =
        ((s.icache i).withDin (s.ino (s.icache i).inum)).withValid true := update_self ..
    have hs : s.ilock i = some (s.load i) := by
      rw [State.ilock, if_neg (by omega), hv, if_neg Bool.false_ne_true, hself]
      exact if_neg htype
    refine ⟨s.load i, hs, ?_, by rw [hself]; rfl, by rw [hself]; rfl, fun k ↦ ?_⟩
    · exact h.of_update (h.inv.ilock hs).1 rfl rfl rfl (fun _ _ ↦ rfl) (h.ref i) (h.inum i)
    · obtain rfl | hne := eq_or_ne k i
      · rw [hself]
        rfl
      · rw [State.load, State.setCache_of_ne hne]

/-- `iput` of an inode that stays: it has links, or others hold it as well. -/
theorem iput (h : Refs s₀ s c) (hi : 0 < c i) (hkeep : (s.icache i).valid = true →
      (s.icache i).din.nlink ≠ 0 ∨ 0 < (s₀.icache i).ref) :
    ∃ s', s.iput i = some s' ∧ Refs s₀ s' (c - Pi.single i 1) ∧
      ∀ k, (s'.icache k).inum = (s.icache k).inum := by
  have href := h.ref i
  have hnot : ¬((s.icache i).ref = 1 ∧ (s.icache i).valid ∧ (s.icache i).din.nlink = 0) := by
    rintro ⟨hone, hv, hzero⟩
    rcases hkeep hv with hlink | hheld
    · exact hlink hzero
    · omega
  have hself : (s.deref i).icache i = (s.icache i).withRef ((s.icache i).ref - 1) := update_self ..
  refine ⟨s.deref i, if_neg hnot, ?_, fun k ↦ ?_⟩
  · refine h.of_update h.inv.deref rfl rfl rfl (fun k hk ↦ ?_) ?_ (h.inum i)
    · rw [Pi.sub_apply, Pi.single_eq_of_ne hk, Nat.sub_zero]
    · rw [Pi.sub_apply, Pi.single_eq_same]
      change (s.icache i).ref - 1 = _
      omega
  · obtain rfl | hne := eq_or_ne k i
    · rw [hself]
      rfl
    · rw [State.deref, State.setCache_of_ne hne]

end Refs

/-! ## The tree -/

/-- The inode that a directory has under a name. -/
def State.child (s : State) (n : ℕ) (name : CString) : Option ℕ :=
  if (s.ino n).type = tDir then
    ((dirents s.disk (s.ino n)).find? fun e ↦ e.inum ≠ 0 ∧ namecmp name e).map fun e ↦ e.inum.toNat
  else none

/-- Look up names one after the other, from inode `n` on. -/
def State.walk (s : State) (n : ℕ) (names : List CString) : Option ℕ := names.foldlM s.child n

/-- The inodes `T` are a tree of directories: they are allocated, an inode that has no links is held
by somebody, and the entries of a directory name inodes of the tree. -/
structure Tree (s : State) (T : Set ℕ) : Prop where
  inv : Inv s
  lt : ∀ n ∈ T, n < s.sb.ninodes.toNat
  type : ∀ n ∈ T, (s.ino n).type ≠ 0
  held : ∀ n ∈ T, (s.ino n).nlink ≠ 0 ∨ ∃ k, 0 < (s.icache k).ref ∧ (s.icache k).inum = n
  whole : ∀ n ∈ T, (s.ino n).type = tDir → (s.ino n).size.toNat % 16 = 0
  entries : ∀ n ∈ T, (s.ino n).type = tDir →
    ∀ e ∈ dirents s.disk (s.ino n), e.inum ≠ 0 → e.inum.toNat ∈ T

section Walk

variable {s₀ s s' : State} {T : Set ℕ} {c : Fin ninode → ℕ} {i j : Fin ninode} {n m : ℕ}
  {dev : Devsw} {name : CString}

theorem Tree.child_mem (h : Tree s T) (hn : n ∈ T) (hm : s.child n name = some m) : m ∈ T := by
  obtain ⟨hdir, hm⟩ := Option.ite_none_right_eq_some.mp hm
  obtain ⟨e, he, rfl⟩ := Option.map_eq_some_iff.mp hm
  have htest : e.inum ≠ 0 ∧ namecmp name e := by simpa using List.find?_some he
  exact h.entries n hn hdir e (List.mem_of_find?_eq_some he) htest.1

theorem Refs.keeps (h : Refs s₀ s c) (hT : Tree s₀ T) (hi : 0 < c i)
    (hn : (s.icache i).inum ∈ T) (hv : (s.icache i).valid = true) :
    (s.icache i).din.nlink ≠ 0 ∨ 0 < (s₀.icache i).ref := by
  rw [(h.inv.copy i (h.pos hi) hv).1, h.ino_eq]
  refine (hT.held _ hn).imp_right fun ⟨k, hk, hinum⟩ ↦ ?_
  have hk' : 0 < (s.icache k).ref := by
    rw [h.ref]
    omega
  obtain rfl := h.inv.distinct k i hk' (h.pos hi) ((h.inum k hk).trans hinum)
  exact hk

end Walk

/-! ## The walk -/

/-- Where `namex` goes: through all names, or through all but the last, of which it is only sure
that it could be looked up. -/
def State.resolve (s : State) (parent : Bool) : ℕ → List CString → Option ℕ
  | n, [] => if parent then none else some n
  | n, name :: names =>
    if (s.ino n).type = tDir then
      if parent ∧ names = [] then some n
      else (s.child n name).bind fun m ↦ s.resolve parent m names
    else none

/-- The result of a walk to `target`: a reference to that inode, or nothing. -/
inductive Answer (s₀ : State) (t : Kernel) : Option ℕ → Option (Fin ninode) → Prop
  | found {j : Fin ninode} {n : ℕ} (refs : Refs s₀ t.fs (Pi.single j 1))
      (inum : (t.fs.icache j).inum = n) : Answer s₀ t (some n) (some j)
  | missing (refs : Refs s₀ t.fs 0) : Answer s₀ t none none

/-- No inode is locked. -/
def Kernel.Unlocked (t : Kernel) : Prop := ∀ k, t.busy k = false

/-- At most one entry of the inode cache is free. -/
def State.Full (s : State) : Prop :=
  ∀ a b, (s.icache a).ref = 0 → (s.icache b).ref = 0 → a = b

section Loop

variable {s₀ s s' : State} {T : Set ℕ} {c : Fin ninode → ℕ} {i j ip : Fin ninode} {n m : ℕ}
  {dev : Devsw} {t : Kernel} {b : Fin ninode → Bool}

theorem update_unlock (hb : b i = false) : update (update b i true) i false = b := by
  rw [update_idem, ← hb, update_eq_self]

/-- The lock of `i` is given back, and its reference. -/
theorem Refs.iunlockput (h : Refs s₀ s c) (hT : Tree s₀ T) (hi : 0 < c i)
    (hn : (s.icache i).inum ∈ T) (hb : b i = false) :
    ∃ s', Kernel.iunlockput ⟨s, update b i true⟩ i = some ⟨s', b⟩ ∧
      Refs s₀ s' (c - Pi.single i 1) ∧ ∀ k, (s'.icache k).inum = (s.icache k).inum := by
  obtain ⟨s', hs, hrefs, hinum⟩ := h.iput hi (h.keeps hT hi hn)
  refine ⟨s', ?_, hrefs, hinum⟩
  have hunlock : Kernel.iunlock ⟨s, update b i true⟩ i = some ⟨s, b⟩ := by
    rw [Kernel.iunlock, update_unlock hb]
    exact if_pos ⟨update_self .., h.pos hi⟩
  rw [Kernel.iunlockput, hunlock, Option.bind_some, Kernel.iput,
    if_neg fun hbusy ↦ Bool.false_ne_true (hb.symm.trans hbusy.2), hs, Option.map_some]

theorem Kernel.flags_eq (hb : (t.fs.icache j).ref = 0 → t.busy j = false) :
    t.flags j = t.busy := by
  rw [Kernel.flags]
  split_ifs with href
  · rw [← hb href, update_eq_self]
  · rfl

theorem Refs.lock (h : Refs s₀ t.fs (Pi.single ip 1)) (hT : Tree s₀ T) (hb : t.Unlocked)
    (hn : (t.fs.icache ip).inum ∈ T) : ∃ s, t.ilock ip = some ⟨s, update t.busy ip true⟩ ∧
      Refs s₀ s (Pi.single ip 1) ∧ (s.icache ip).din = s₀.ino (t.fs.icache ip).inum ∧
      (s.icache ip).inum = (t.fs.icache ip).inum := by
  have hpos : 0 < (Pi.single ip 1 : Fin ninode → ℕ) ip := by rw [Pi.single_eq_same]; decide
  obtain ⟨s, hs, hrefs, hdin, -, hinum⟩ := h.ilock (h.pos hpos) (hT.type _ hn)
  refine ⟨s, ?_, hrefs, hdin, hinum ip⟩
  rw [Kernel.ilock, hb ip, if_neg Bool.false_ne_true, hs, Option.map_some]

/-- `dirlookup` on the way. It fails only if the cache is full. -/
theorem Refs.dirlookup (dev : Devsw) (name : CString) (h : Refs s₀ s (Pi.single ip 1))
    (hT : Tree s₀ T) (hn : (s.icache ip).inum = n) (hnT : n ∈ T)
    (hdin : (s.icache ip).din = s₀.ino n) (hdir : (s₀.ino n).type = tDir)
    (hb : ∀ k, k ≠ ip → b k = false) :
    (s₀.child n name = none ∧
      Kernel.dirlookup ⟨s, b⟩ dev ip name = some (none, ⟨s, b⟩)) ∨
    (∃ m j s', s₀.child n name = some m ∧
      Kernel.dirlookup ⟨s, b⟩ dev ip name = some (some j, ⟨s', b⟩) ∧
      Refs s₀ s' (Pi.single ip 1 + Pi.single j 1) ∧ (s'.icache j).inum = m ∧
      (s'.icache ip).inum = n) ∨
    (Kernel.dirlookup ⟨s, b⟩ dev ip name = none ∧ s₀.Full) := by
  have hone : (Pi.single ip 1 : Fin ninode → ℕ) ip = 1 := Pi.single_eq_same ..
  have hpos : 0 < (s.icache ip).ref := h.pos (by rw [hone]; decide)
  have hf := hT.inv.filled n (hT.lt n hnT) (Or.inl hdir)
  obtain ⟨off, hlookup⟩ : ∃ off, s.dirlookup dev ip name = s.yields off (s₀.child n name) := by
    rw [← h.disk] at hf
    have heq := State.dirlookup_eq dev name (by rw [hdin, hdir]) (by rwa [hdin])
      (by rw [hdin]; exact hT.whole n hnT hdir)
    rw [State.child, if_pos hdir, ← hdin, ← h.disk]
    exact ⟨_, heq⟩
  cases hchild : s₀.child n name with
  | none =>
    rw [hchild, State.yields] at hlookup
    exact Or.inl ⟨rfl, by rw [Kernel.dirlookup, hlookup, Option.map_some]⟩
  | some m =>
    have hm := hT.lt m (hT.child_mem hnT hchild)
    rw [hchild, State.yields] at hlookup
    rw [← h.sb] at hm
    cases hget : s.iget m with
    | none =>
      rw [hget, Option.map_none] at hlookup
      refine Or.inr (Or.inr ⟨by rw [Kernel.dirlookup, hlookup, Option.map_none], ?_⟩)
      intro x y hx hy
      by_contra hxy
      -- one of the two is still free
      have hfree : ∃ k, (s.icache k).ref = 0 := by
        obtain rfl | hne := eq_or_ne x ip
        · exact ⟨y, by rw [h.ref, hy, Pi.single_eq_of_ne (Ne.symm hxy), Nat.add_zero]⟩
        · exact ⟨x, by rw [h.ref, hx, Pi.single_eq_of_ne hne, Nat.add_zero]⟩
      obtain ⟨j, s', hs'⟩ := State.exists_iget (n := m) hfree
      cases hget.symm.trans hs'
    | some x =>
      obtain ⟨j, s'⟩ := x
      obtain ⟨hrefs, hinum⟩ := h.iget hm hget
      obtain ⟨-, -, hinum', -⟩ := State.icache_of_iget hget hpos
      refine Or.inr (Or.inl ⟨m, j, s', rfl, ?_, hrefs, hinum, hinum'.trans hn⟩)
      have hflags : Kernel.flags ⟨s, b⟩ j = b := by
        refine Kernel.flags_eq fun href ↦ hb j ?_
        rintro rfl
        exact hpos.ne' href
      rw [Kernel.dirlookup, hlookup, hget, Option.map_some, Option.map_some]
      simp only [hflags]

theorem single_sub_self (i : Fin ninode) :
    (Pi.single i 1 : Fin ninode → ℕ) - Pi.single i 1 = 0 := funext fun _ ↦ Nat.sub_self _

theorem add_single_sub (i j : Fin ninode) :
    (Pi.single i 1 + Pi.single j 1 : Fin ninode → ℕ) - Pi.single i 1 = Pi.single j 1 :=
  funext fun _ ↦ Nat.add_sub_cancel_left ..

theorem Refs.namexLoop (dev : Devsw) (parent : Bool) (fuel : ℕ) (hT : Tree s₀ T)
    {path : List UInt8} {name : Fin 14 → UInt8} (h : Refs s₀ t.fs (Pi.single ip 1))
    (hb : t.Unlocked) (hn : (t.fs.icache ip).inum = n) (hnT : n ∈ T)
    (hfuel : path.length < fuel) :
    (∃ r name' t', Kernel.namexLoop dev parent fuel path name ip t = some (r, name', t') ∧
      t'.Unlocked ∧ Answer s₀ t' (s₀.resolve parent n (components path)) r ∧
      (parent = true → r ≠ none → (components path).getLast? = some (nameOf name'))) ∨
    (Kernel.namexLoop dev parent fuel path name ip t = none ∧ s₀.Full) := by
  have hone (i : Fin ninode) : 0 < (Pi.single i 1 : Fin ninode → ℕ) i := by
    rw [Pi.single_eq_same]
    decide
  induction fuel generalizing path name ip t n with
  | zero => omega
  | succ fuel ih =>
    rw [Kernel.namexLoop]
    cases hskip : skipelem path name with
    | none =>
      rw [skipelem_eq_none_iff.mp hskip]
      cases parent with
      | false =>
        refine Or.inl ⟨some ip, name, t, rfl, hb, .found h hn, fun hp ↦ ?_⟩
        cases hp
      | true =>
        obtain ⟨s', hs, hrefs, -⟩ := h.iput (hone ip) (h.keeps hT (hone ip) (hn ▸ hnT))
        rw [single_sub_self] at hrefs
        refine Or.inl ⟨none, name, ⟨s', t.busy⟩, ?_, hb, .missing hrefs, fun _ hr ↦ absurd rfl hr⟩
        simp only [if_true]
        rw [Kernel.iput, if_neg fun hbusy ↦ Bool.false_ne_true ((hb ip).symm.trans hbusy.2), hs,
          Option.map_some, Option.map_some]
    | some x =>
      obtain ⟨rest, name'⟩ := x
      obtain ⟨hcomps, hlen, hrest⟩ := components_of_skipelem hskip
      obtain ⟨s, hlock, hrefs, hdin, hinum⟩ := h.lock hT hb (hn ▸ hnT)
      rw [hn] at hdin hinum
      simp only [hlock, Option.bind_some, hdin]
      rw [hcomps, State.resolve]
      -- the way out when there is no next inode
      have hout : ∃ r name'' t', (Kernel.iunlockput ⟨s, update t.busy ip true⟩ ip).map
          (fun t ↦ ((none : Option (Fin ninode)), name', t)) = some (r, name'', t') ∧
            t'.Unlocked ∧ Answer s₀ t' none r ∧ (parent = true → r ≠ none →
              (nameOf name' :: components rest).getLast? = some (nameOf name'')) := by
        obtain ⟨s', hs, hrefs', -⟩ := hrefs.iunlockput hT (hone ip) (hinum ▸ hnT) (hb ip)
        rw [single_sub_self] at hrefs'
        exact ⟨none, name', ⟨s', t.busy⟩, by rw [hs, Option.map_some], hb, .missing hrefs',
          fun _ hr ↦ absurd rfl hr⟩
      by_cases hdir : (s₀.ino n).type = tDir
      · rw [if_neg (not_not.mpr hdir), if_pos hdir]
        by_cases hstop : parent = true ∧ rest = []
        · obtain ⟨rfl, rfl⟩ := hstop
          have hnil := hrest.mp rfl
          rw [if_pos ⟨rfl, rfl⟩, hnil, if_pos ⟨rfl, rfl⟩]
          refine Or.inl ⟨some ip, name', ⟨s, t.busy⟩, ?_, hb, .found hrefs hinum, fun _ _ ↦ rfl⟩
          rw [Kernel.iunlock, if_pos ⟨update_self .., hrefs.pos (hone ip)⟩, update_unlock (hb ip),
            Option.map_some]
        · rw [if_neg hstop, if_neg (by rwa [← hrest])]
          have hbusy (k : Fin ninode) (hk : k ≠ ip) : update t.busy ip true k = false := by
            rw [update_of_ne hk, hb k]
          obtain ⟨hchild, hlookup⟩ | ⟨m, j, s', hchild, hlookup, hrefs', hj, hip⟩ |
              ⟨hlookup, hfull⟩ :=
            hrefs.dirlookup dev (nameOf name') hT hinum hnT hdin hdir hbusy
          · rw [hchild, hlookup, Option.bind_some]
            obtain ⟨r, name'', t', hput, hanswer⟩ := hout
            refine Or.inl ⟨r, name'', t', ?_, hanswer⟩
            rw [← hput]
            simp only [Option.map_eq_bind]
            rfl
          · -- the reference to `ip` is exchanged for one to `j`
            obtain ⟨s'', hput, hrefs'', hinum''⟩ := hrefs'.iunlockput hT
              (by rw [Pi.add_apply]; exact Nat.add_pos_left (hone ip) _)
              (hip ▸ hnT) (hb ip)
            rw [add_single_sub] at hrefs''
            rw [hchild, hlookup, Option.bind_some]
            simp only [hput, Option.bind_some]
            refine Or.imp ?_ id (ih (t := ⟨s'', t.busy⟩) hrefs'' hb ((hinum'' j).trans hj)
              (hT.child_mem hnT hchild) (Nat.lt_of_lt_of_le hlen (by omega)))
            rintro ⟨r, name'', t', hs, hb', hanswer, hlast⟩
            refine ⟨r, name'', t', hs, hb', hanswer, fun hp hr ↦ ?_⟩
            rw [List.getLast?_cons, hlast hp hr, Option.getD_some]
          · rw [hlookup]
            exact Or.inr ⟨rfl, hfull⟩
      · rw [if_pos hdir, if_neg hdir]
        exact Or.inl hout

def State.start (s : State) (cwd : Fin ninode) (path : CString) : ℕ :=
  if path.byte 0 = slash then rootino else (s.icache cwd).inum

theorem Tree.namex (dev : Devsw) (cwd : Fin ninode) (path : CString) (parent : Bool)
    (name : Fin 14 → UInt8) (hT : Tree t.fs T) (hb : t.Unlocked)
    (hcwd : 0 < (t.fs.icache cwd).ref) (hstart : t.fs.start cwd path ∈ T) :
    (∃ r name' t', t.namex dev cwd path parent name = some (r, name', t') ∧ t'.Unlocked ∧
      Answer t.fs t' (t.fs.resolve parent (t.fs.start cwd path) (components path.bytes)) r ∧
      (parent = true → r ≠ none → (components path.bytes).getLast? = some (nameOf name'))) ∨
    (t.namex dev cwd path parent name = none ∧ t.fs.Full) := by
  have hrefl := Refs.refl hT.inv
  rw [Kernel.namex]
  rw [State.start] at hstart ⊢
  split_ifs at hstart ⊢ with hslash
  · cases hget : t.fs.iget rootino with
    | none =>
      refine Or.inr ⟨by rw [Kernel.iget, hget]; rfl, fun a _ ha ↦ ?_⟩
      obtain ⟨j, s', hs'⟩ := State.exists_iget (n := rootino) ⟨a, ha⟩
      cases hget.symm.trans hs'
    | some x =>
      obtain ⟨ip, s⟩ := x
      obtain ⟨hrefs, hinum⟩ := hrefl.iget (hT.lt _ hstart) hget
      rw [zero_add] at hrefs
      have hflags : t.flags ip = t.busy := Kernel.flags_eq fun _ ↦ hb ip
      rw [Kernel.iget, hget, Option.map_some, Option.bind_some]
      simp only [hflags]
      exact Refs.namexLoop dev parent _ hT (t := ⟨s, t.busy⟩) hrefs hb hinum hstart
        (Nat.lt_succ_self _)
  · have hrefs := hrefl.idup hcwd
    rw [zero_add] at hrefs
    refine Refs.namexLoop dev parent _ hT (t := t.idup cwd) hrefs hb ?_ hstart (Nat.lt_succ_self _)
    rw [Kernel.idup, State.idup, State.setCache_self]
    rfl

end Loop

section Resolve

variable {s : State} {n : ℕ} {names : List CString}

theorem State.resolve_false : s.resolve false n names = s.walk n names := by
  induction names generalizing n with
  | nil => rfl
  | cons name names ih =>
    rw [State.resolve, State.walk, List.foldlM_cons]
    by_cases hdir : (s.ino n).type = tDir
    · rw [if_pos hdir, if_neg fun h ↦ Bool.false_ne_true h.1]
      exact Option.bind_congr fun m _ ↦ ih
    · have hchild : s.child n name = none := if_neg hdir
      rw [if_neg hdir, hchild]
      rfl

/-- All components but the last are looked up, and the last one could be. -/
def State.parent (s : State) (n : ℕ) (names : List CString) : Option ℕ :=
  if names = [] then none
  else (s.walk n names.dropLast).bind fun m ↦ if (s.ino m).type = tDir then some m else none

theorem State.resolve_true : s.resolve true n names = s.parent n names := by
  induction names generalizing n with
  | nil => rfl
  | cons name names ih =>
    rw [State.resolve, State.parent, if_neg (List.cons_ne_nil _ _)]
    by_cases hdir : (s.ino n).type = tDir
    · rw [if_pos hdir]
      cases names with
      | nil => exact (if_pos ⟨rfl, rfl⟩).trans (if_pos hdir).symm
      | cons name' names =>
        rw [if_neg fun h ↦ List.cons_ne_nil _ _ h.2, List.dropLast_cons_cons, State.walk,
          List.foldlM_cons]
        cases s.child n name with
        | none => rfl
        | some m =>
          rw [Option.bind_some, ih, State.parent, if_neg (List.cons_ne_nil _ _)]
          rfl
    · rw [if_neg hdir]
      cases names with
      | nil => exact (if_neg hdir).symm
      | cons name' names =>
        have hchild : s.child n name = none := if_neg hdir
        rw [List.dropLast_cons_cons, State.walk, List.foldlM_cons, hchild]
        rfl

end Resolve

/-- **Path resolution.** `namei` walks through all components of the path and `nameiparent` through
all but the last, which it leaves in `name`. Afterwards no inode is locked, and there is one more
reference to the inode that has been found and none to another. They return unless at most one entry
of the inode cache is free. -/
theorem path_resolution (dev : Devsw) (cwd : Fin ninode) (path : CString) (name : Fin 14 → UInt8)
    {t : Kernel} {T : Set ℕ} (hT : Tree t.fs T) (hb : t.Unlocked)
    (hcwd : 0 < (t.fs.icache cwd).ref) (hstart : t.fs.start cwd path ∈ T) :
    (¬t.fs.Full → (t.namei dev cwd path name).isSome ∧
      (t.nameiparent dev cwd path name).isSome) ∧
    (∀ r t', t.namei dev cwd path name = some (r, t') → t'.Unlocked ∧
      Answer t.fs t' (t.fs.walk (t.fs.start cwd path) (components path.bytes)) r) ∧
    ∀ r name' t', t.nameiparent dev cwd path name = some (r, name', t') → t'.Unlocked ∧
      Answer t.fs t' (t.fs.parent (t.fs.start cwd path) (components path.bytes)) r ∧
      (r ≠ none → (components path.bytes).getLast? = some (nameOf name')) := by
  have hnamei := hT.namex dev cwd path false name hb hcwd hstart
  have hparent := hT.namex dev cwd path true name hb hcwd hstart
  rw [State.resolve_false] at hnamei
  rw [State.resolve_true] at hparent
  refine ⟨fun hfull ↦ ⟨?_, ?_⟩, fun r t' hs ↦ ?_, fun r name' t' hs ↦ ?_⟩
  · obtain ⟨r, name', t', hs, -⟩ | ⟨-, hf⟩ := hnamei
    · rw [Kernel.namei, hs]
      rfl
    · exact absurd hf hfull
  · obtain ⟨r, name', t', hs, -⟩ | ⟨-, hf⟩ := hparent
    · rw [Kernel.nameiparent, hs]
      rfl
    · exact absurd hf hfull
  · obtain ⟨x, hx, heq⟩ := Option.map_eq_some_iff.mp hs
    obtain ⟨r', name', t'', hs', hb', hanswer, -⟩ | ⟨hnone, -⟩ := hnamei
    · obtain rfl := Option.some.inj (hx.symm.trans hs')
      obtain ⟨rfl, rfl⟩ := Prod.mk.inj heq
      exact ⟨hb', hanswer⟩
    · cases hx.symm.trans hnone
  · obtain ⟨r', name'', t'', hs', hb', hanswer, hlast⟩ | ⟨hnone, -⟩ := hparent
    · obtain ⟨rfl, heq⟩ := Prod.mk.inj (Option.some.inj (hs.symm.trans hs'))
      obtain ⟨rfl, rfl⟩ := Prod.mk.inj heq
      exact ⟨hb', hanswer, hlast rfl⟩
    · cases hs.symm.trans hnone

def pathDA : CString := ⟨[47, 100, 47, 97], by decide⟩

theorem exists_nested : ∃ s, execute (State.exec noDevices) small nested = some s ∧
    Tree s {1, 2, 3} ∧ ¬s.Full ∧ 0 < (s.icache ⟨0, by decide⟩).ref ∧
    s.walk rootino (components pathDA.bytes) = some 3 ∧
    s.parent rootino (components pathDA.bytes) = some 2 := by
  have hrun : (execute (State.exec noDevices) small nested).map (fun s ↦ decide (
      (∀ n ∈ [1, 2, 3], n < s.sb.ninodes.toNat ∧ (s.ino n).type ≠ 0 ∧ (s.ino n).nlink ≠ 0 ∧
        (s.ino n).size.toNat % 16 = 0 ∧ ∀ e ∈ dirents s.disk (s.ino n), e.inum.toNat ∈ [1, 2, 3]) ∧
      ((s.icache ⟨1, by decide⟩).ref = 0 ∧ (s.icache ⟨2, by decide⟩).ref = 0) ∧
      0 < (s.icache ⟨0, by decide⟩).ref ∧ s.walk rootino (components pathDA.bytes) = some 3 ∧
      s.parent rootino (components pathDA.bytes) = some 2)) = some true := by decide +kernel
  obtain ⟨s, hs, hend⟩ := Option.map_eq_some_iff.mp hrun
  obtain ⟨htree, ⟨h1, h2⟩, href, hwalk, hparent⟩ := of_decide_eq_true hend
  have hstep {s s' : State} {a : Op} (h : Inv s) (hs : Step noDevices s a s') : Inv s' :=
    (h.step hs).1
  have hinv : Inv s := (trace_of_execute (fun _ _ _ ↦ id) hs).1.invariant
    (ownership_small.inv consistent_small) hstep
  have htree' (n : ℕ) (hn : n ∈ ({1, 2, 3} : Set ℕ)) := htree n (by simpa using hn)
  refine ⟨s, hs, ⟨hinv, fun n hn ↦ (htree' n hn).1, fun n hn ↦ (htree' n hn).2.1,
    fun n hn ↦ Or.inl (htree' n hn).2.2.1, fun n hn _ ↦ (htree' n hn).2.2.2.1,
    fun n hn _ e he _ ↦ ?_⟩, fun h ↦ absurd (h _ _ h1 h2) (by decide), href, hwalk, hparent⟩
  simpa using (htree' n hn).2.2.2.2 e he

/-- `namei` finds the file `a`, and `nameiparent` the directory `d` and the name `a`. -/
theorem path_resolution_nested : ∃ s, execute (State.exec noDevices) small nested = some s ∧
    (∃ j t', Kernel.namei ⟨s, fun _ ↦ false⟩ noDevices ⟨0, by decide⟩ pathDA (fun _ ↦ 0) =
      some (some j, t') ∧ (t'.fs.icache j).inum = 3 ∧ t'.Unlocked) ∧
    ∃ j name t', Kernel.nameiparent ⟨s, fun _ ↦ false⟩ noDevices ⟨0, by decide⟩ pathDA
      (fun _ ↦ 0) = some (some j, name, t') ∧ (t'.fs.icache j).inum = 2 ∧
        (nameOf name).bytes = [97] := by
  obtain ⟨s, hs, htree, hfull, href, hwalk, hparent⟩ := exists_nested
  obtain ⟨hsome, hnamei, hnameip⟩ := path_resolution noDevices ⟨0, by decide⟩ pathDA (fun _ ↦ 0)
    (t := ⟨s, fun _ ↦ false⟩) htree (fun _ ↦ rfl) href (Or.inl rfl)
  have hstart : s.start ⟨0, by decide⟩ pathDA = rootino := rfl
  rw [hstart, hwalk] at hnamei
  rw [hstart, hparent] at hnameip
  obtain ⟨⟨r, t'⟩, hr⟩ := Option.isSome_iff_exists.mp (hsome hfull).1
  obtain ⟨⟨rp, name, tp⟩, hrp⟩ := Option.isSome_iff_exists.mp (hsome hfull).2
  obtain ⟨hb, hanswer⟩ := hnamei r t' hr
  obtain ⟨-, hanswerp, hlast⟩ := hnameip rp name tp hrp
  cases hanswer with
  | found _ hinum =>
    cases hanswerp with
    | found _ hinump =>
      have hname : some (nameOf name) = some (truncated [97]) := (hlast (by simp)).symm
      refine ⟨s, hs, ⟨_, t', hr, hinum, hb⟩, _, name, tp, hrp, hinump, ?_⟩
      rw [Option.some.inj hname]
      decide

end SistemasOperacionais.Xv6.Fs
