import SistemasOperacionais.Xv6.Fs.Layout

/-!
# The buffers of `read` and `write`

`syscall.c`, `sysfile.c` and the functions they hand a user buffer to: `sys_read` and `sys_write`
fetch a pointer and a length from the user stack, `argptr` checks them, and `fileread` and
`filewrite` pass both on to a pipe, to a device or to an inode. What is recorded are the user
addresses that are stored to (`sysRead`) or loaded from (`sysWrite`), in order; the data itself
plays no role.

The length is an `int` in some of these functions and a `uint` in others. The word is the same, so
the model has one type of words, and `toInt` where the source compares as `int`.

A process is smaller than `KERNBASE`, because `allocuvm` does not let it grow further.
-/

namespace SistemasOperacionais.Xv6.UserBuffer

open Fs

def kernbase : ℕ := 0x80000000

def nofile : ℕ := 16

def ndev : ℤ := 10

/-- `CONSOLE`, the only device in `devsw` -/
def console : ℤ := 1

/-- `((LOGSIZE-1-1-2) / 2) * 512` -/
def maxWrite : ℕ := (30 - 1 - 1 - 2) / 2 * 512

def toInt (w : UInt32) : ℤ := if w.toNat < 2 ^ 31 then w.toNat else w.toNat - 2 ^ 32

structure Inode where
  /-- `type == T_DEV` -/
  dev : Bool
  major : ℤ
  size : UInt32

inductive Target
  | none
  | pipe
  | inode (ip : Inode)

structure File where
  target : Target
  readable : Bool
  writable : Bool
  off : UInt32

structure Process where
  sz : UInt32
  sz_le : sz.toNat ≤ kernbase
  esp : UInt32
  mem : UInt32 → UInt8
  ofile : Fin nofile → Option File

/-- `n` addresses from `addr` on, with the wrap-around of pointers. -/
def block (addr : UInt32) (n : ℕ) : List UInt32 :=
  (List.range n).map fun k ↦ addr + UInt32.ofNat k

/-! ## Pipes and devices

`served` is the number of bytes that the pipe or the console gives, or that the pipe takes, before
the loop is left for another reason than its bound: the pipe is empty, the line is over, the reader
is gone, the process is killed. -/

/-- The loop over `i < n` of `piperead`, `pipewrite` and `consoleread`. -/
def serve (served : ℕ) (addr n : UInt32) : List UInt32 := block addr (min served (toInt n).toNat)

/-- `consolewrite` loads all its bytes. -/
def consolewrite (addr n : UInt32) : List UInt32 := block addr (toInt n).toNat

/-- There is a driver in `devsw`. -/
def driver (major : ℤ) : Bool := decide (0 ≤ major) && decide (major < ndev) && major == console

/-! ## Inodes -/

/-- The loop of `readi` and `writei`, which goes on block by block: the buffer from `addr` on. -/
def chunks : ℕ → ℕ → ℕ → UInt32 → List UInt32
  | 0, _, _, _ => []
  | fuel + 1, off, n, addr =>
    if n = 0 then []
    else
      let m := min n (bsize - off % bsize)
      block addr m ++ chunks fuel (off + m) (n - m) (addr + UInt32.ofNat m)

/-- The number of bytes that `readi` copies; `none` if it returns `-1`. -/
def readLength (ip : Inode) (off n : UInt32) : Option ℕ :=
  if ip.size < off ∨ off + n < off then none
  else some (if ip.size < off + n then ip.size - off else n).toNat

def readi (served : ℕ) (ip : Inode) (dst off n : UInt32) : List UInt32 :=
  if ip.dev then if driver ip.major then serve served dst n else []
  else
    match readLength ip off n with
    | none => []
    | some m => chunks m off.toNat m dst

/-- `writei`, with the inode after it; `none` if it returns `-1`. -/
def writei (ip : Inode) (src off n : UInt32) : List UInt32 × Option Inode :=
  if ip.dev then if driver ip.major then (consolewrite src n, some ip) else ([], none)
  else if ip.size < off ∨ off + n < off then ([], none)
  else if maxfile * bsize < (off + n).toNat then ([], none)
  else (chunks n.toNat off.toNat n.toNat src,
    some { ip with size := if 0 < n ∧ ip.size < off + n then off + n else ip.size })

/-! ## Files -/

def fileread (served : ℕ) (f : File) (addr n : UInt32) : List UInt32 :=
  if f.readable = false then []
  else
    match f.target with
    | .pipe => serve served addr n
    | .inode ip => readi served ip addr f.off n
    | .none => []

/-- The loop of `filewrite`, with `i` bytes written. -/
def writeLoop (addr : UInt32) (n : ℕ) : ℕ → Inode → UInt32 → ℕ → List UInt32
  | 0, _, _, _ => []
  | fuel + 1, ip, off, i =>
    if i < n then
      let n1 := min (n - i) maxWrite
      match writei ip (addr + UInt32.ofNat i) off (UInt32.ofNat n1) with
      | (loads, none) => loads
      | (loads, some ip) => loads ++ writeLoop addr n fuel ip (off + UInt32.ofNat n1) (i + n1)
    else []

def filewrite (served : ℕ) (f : File) (addr n : UInt32) : List UInt32 :=
  if f.writable = false then []
  else
    match f.target with
    | .pipe => serve served addr n
    | .inode ip => writeLoop addr (toInt n).toNat (toInt n).toNat ip f.off 0
    | .none => []

/-! ## Arguments -/

namespace Process

variable (p : Process)

def fetchint (addr : UInt32) : Option UInt32 :=
  if p.sz ≤ addr ∨ p.sz < addr + 4 then none
  else some ((p.mem addr).toUInt32 + 256 * (p.mem (addr + 1)).toUInt32 +
    65536 * (p.mem (addr + 2)).toUInt32 + 16777216 * (p.mem (addr + 3)).toUInt32)

/-- Where the argument is on the user stack. -/
def argAddr (n : ℕ) : UInt32 := p.esp + 4 + 4 * UInt32.ofNat n

def argint (n : ℕ) : Option UInt32 := p.fetchint (p.argAddr n)

def argptr (n : ℕ) (size : UInt32) : Option UInt32 :=
  (p.argint n).bind fun i ↦ if p.sz ≤ i ∨ p.sz < i + size then none else some i

def argfd (n : ℕ) : Option File :=
  (p.argint n).bind fun fd ↦
    if h : 0 ≤ toInt fd ∧ (toInt fd).toNat < nofile then p.ofile ⟨(toInt fd).toNat, h.2⟩ else none

/-- The file, the pointer and the length that `sys_read` and `sys_write` go on with. -/
def args : Option (File × UInt32 × UInt32) :=
  (p.argfd 0).bind fun f ↦ (p.argint 2).bind fun n ↦ (p.argptr 1 n).map fun addr ↦ (f, addr, n)

/-- The user addresses that `sys_read` stores to. -/
def sysRead (served : ℕ) : List UInt32 :=
  match p.args with
  | none => []
  | some (f, addr, n) => fileread served f addr n

/-- The loads of `argint`. -/
def argLoads (n : ℕ) : List UInt32 := if (p.argint n).isSome then block (p.argAddr n) 4 else []

/-- The user addresses that `sys_write` loads from: its arguments, as far as it gets, and its
buffer. -/
def sysWrite (served : ℕ) : List UInt32 :=
  p.argLoads 0 ++
    (if (p.argfd 0).isSome then p.argLoads 2 ++ if (p.argint 2).isSome then p.argLoads 1 else []
    else []) ++
    match p.args with
    | none => []
    | some (f, addr, n) => filewrite served f addr n

end Process

/-! ## What is loaded and stored -/

variable {addr off n : UInt32} {sz : UInt32}

def Inside (sz : UInt32) (l : List UInt32) : Prop := ∀ a ∈ l, a < sz

theorem inside_nil (sz : UInt32) : Inside sz [] := fun _ h ↦ absurd h List.not_mem_nil

theorem inside_append {l l' : List UInt32} :
    Inside sz (l ++ l') ↔ Inside sz l ∧ Inside sz l' := by
  simp only [Inside, List.mem_append, or_imp, forall_and]

theorem toNat_add_ofNat {k : ℕ} (h : addr.toNat + k < 2 ^ 32) :
    (addr + UInt32.ofNat k).toNat = addr.toNat + k := by
  rw [UInt32.toNat_add, UInt32.toNat_ofNat', Nat.add_mod_mod, Nat.mod_eq_of_lt h]

theorem inside_block_iff {m : ℕ} (haddr : addr < sz) :
    Inside sz (block addr m) ↔ addr.toNat + m ≤ sz.toNat := by
  have hsz := sz.toNat_lt
  rw [UInt32.lt_iff_toNat_lt] at haddr
  constructor
  · intro h
    by_contra hlt
    -- the address `sz` itself would be in the block
    have hmem : addr + UInt32.ofNat (sz.toNat - addr.toNat) ∈ block addr m :=
      List.mem_map.mpr ⟨_, List.mem_range.mpr (by omega), rfl⟩
    have hin := UInt32.lt_iff_toNat_lt.mp (h _ hmem)
    rw [toNat_add_ofNat (by omega)] at hin
    omega
  · intro h a ha
    obtain ⟨k, hk, rfl⟩ := List.mem_map.mp ha
    rw [List.mem_range] at hk
    rw [UInt32.lt_iff_toNat_lt, toNat_add_ofNat (by omega)]
    omega

theorem block_add (addr : UInt32) (m k : ℕ) :
    block addr m ++ block (addr + UInt32.ofNat m) k = block addr (m + k) := by
  simp only [block, List.range_add, List.map_append, List.map_map]
  congr 1
  refine List.map_congr_left fun j _ ↦ ?_
  simp only [Function.comp_apply, UInt32.ofNat_add, UInt32.add_assoc]

theorem chunks_eq (off m : ℕ) (addr : UInt32) {fuel : ℕ} (hfuel : m ≤ fuel) :
    chunks fuel off m addr = block addr m := by
  induction fuel generalizing off m addr with
  | zero => rw [Nat.le_zero.mp hfuel]; rfl
  | succ fuel ih =>
    rw [chunks]
    split_ifs with h0
    · rw [h0]
      rfl
    · have hmod : off % bsize < bsize := Nat.mod_lt _ (by decide)
      simp only
      rw [ih _ (m - min m (bsize - off % bsize)) _ (by omega), block_add,
        Nat.add_sub_of_le (min_le_left _ _)]

/-! ## Lengths -/

theorem toNat_toInt {n : UInt32} (hn : 0 ≤ toInt n) : (toInt n).toNat = n.toNat := by
  have hlt := n.toNat_lt
  unfold toInt at hn ⊢
  split_ifs at hn ⊢ <;> omega

/-- What `argptr` has checked, in the numbers that are meant. A negative length stands for no
bytes. -/
theorem add_le_of_check (hsz : sz.toNat ≤ kernbase) (haddr : addr < sz) (hend : addr + n ≤ sz) :
    addr.toNat + (toInt n).toNat ≤ sz.toNat := by
  rw [UInt32.lt_iff_toNat_lt] at haddr
  rw [UInt32.le_iff_toNat_le, UInt32.toNat_add] at hend
  unfold kernbase at hsz
  unfold toInt
  split_ifs with hn
  · rw [Nat.mod_eq_of_lt (by omega)] at hend
    omega
  · have hlt := n.toNat_lt
    omega

theorem readLength_le {ip : Inode} {m : ℕ} (h : readLength ip off n = some m) : m ≤ n.toNat := by
  unfold readLength at h
  split_ifs at h with hbad hlong
  · obtain rfl := Option.some.inj h
    rw [not_or, UInt32.not_lt, UInt32.not_lt] at hbad
    have hoff := UInt32.le_iff_toNat_le.mp hbad.1
    rw [UInt32.toNat_sub_of_le _ _ hbad.1]
    have hlong := UInt32.lt_iff_toNat_lt.mp hlong
    rw [UInt32.toNat_add] at hlong
    have hmod := Nat.mod_le (off.toNat + n.toNat) (2 ^ 32)
    omega
  · exact (Option.some.inj h).ge

/-! ## The calls -/

variable {p : Process} {served : ℕ}

theorem inside_serve (haddr : addr < sz) (hbuf : addr.toNat + (toInt n).toNat ≤ sz.toNat) :
    Inside sz (serve served addr n) :=
  (inside_block_iff haddr).mpr (by omega)

theorem writei_loads (ip : Inode) (addr off : UInt32) (hn : n.toNat < 2 ^ 31) :
    (writei ip addr off n).1 = [] ∨ (writei ip addr off n).1 = block addr n.toNat := by
  have hint : (toInt n).toNat = n.toNat := by
    rw [toInt, if_pos hn, Int.toNat_natCast]
  unfold writei
  split_ifs
  · exact .inr (by rw [consolewrite, hint])
  · exact .inl rfl
  · exact .inl rfl
  · exact .inl rfl
  · exact .inr (chunks_eq _ _ _ le_rfl)
  · exact .inr (chunks_eq _ _ _ le_rfl)

theorem inside_writeLoop {m : ℕ} (hbuf : addr.toNat + m ≤ sz.toNat) (fuel : ℕ) (ip : Inode)
    (off : UInt32) (i : ℕ) : Inside sz (writeLoop addr m fuel ip off i) := by
  induction fuel generalizing ip off i with
  | zero => exact inside_nil sz
  | succ fuel ih =>
    rw [writeLoop]
    split_ifs with hi
    · have hsz := sz.toNat_lt
      have hn1 : (UInt32.ofNat (min (m - i) maxWrite)).toNat = min (m - i) maxWrite := by
        rw [UInt32.toNat_ofNat', Nat.mod_eq_of_lt (by omega)]
      have hmax : maxWrite < 2 ^ 31 := by decide
      have hstart : (addr + UInt32.ofNat i).toNat = addr.toNat + i := toNat_add_ofNat (by omega)
      have hloads : Inside sz
          (writei ip (addr + UInt32.ofNat i) off (UInt32.ofNat (min (m - i) maxWrite))).1 := by
        obtain hnil | hblock := writei_loads ip (addr + UInt32.ofNat i) off
          (n := UInt32.ofNat (min (m - i) maxWrite)) (by omega)
        · rw [hnil]
          exact inside_nil sz
        · rw [hblock]
          refine (inside_block_iff (UInt32.lt_iff_toNat_lt.mpr (by omega))).mpr ?_
          omega
      simp only
      generalize writei ip (addr + UInt32.ofNat i) off (UInt32.ofNat (min (m - i) maxWrite)) = r
        at hloads
      obtain ⟨loads, next⟩ := r
      cases next with
      | none => exact hloads
      | some ip => exact inside_append.mpr ⟨hloads, ih ip _ _⟩
    · exact inside_nil sz

/-- Nothing that `filewrite` loads is outside. -/
theorem inside_filewrite (f : File) (haddr : addr < sz)
    (hbuf : addr.toNat + (toInt n).toNat ≤ sz.toNat) : Inside sz (filewrite served f addr n) := by
  unfold filewrite
  split_ifs
  · exact inside_nil sz
  · cases f.target with
    | none => exact inside_nil sz
    | pipe => exact inside_serve haddr hbuf
    | inode ip => exact inside_writeLoop hbuf _ ip _ _

/-- The files for which a negative length is not refused. -/
def File.inode (f : File) : Option Inode :=
  match f.target with
  | .inode ip => if f.readable = true ∧ ip.dev = false then some ip else none
  | _ => none

/-- `fileread` stores outside in one case only. -/
theorem inside_fileread_iff (f : File) (haddr : addr < sz)
    (hbuf : addr.toNat + (toInt n).toNat ≤ sz.toNat) :
    Inside sz (fileread served f addr n) ↔ ¬∃ ip m, f.inode = some ip ∧ toInt n < 0 ∧
      readLength ip f.off n = some m ∧ sz.toNat < addr.toNat + m := by
  obtain ⟨target, readable, writable, off⟩ := f
  cases readable with
  | false =>
    refine iff_of_true (inside_nil sz) ?_
    rintro ⟨ip, m, hinode, -⟩
    cases target <;> simp [File.inode] at hinode
  | true =>
    cases target with
    | none => exact iff_of_true (inside_nil sz) (by simp [File.inode])
    | pipe => exact iff_of_true (inside_serve haddr hbuf) (by simp [File.inode])
    | inode ip =>
      obtain ⟨dev, major, size⟩ := ip
      cases dev with
      | true =>
        refine iff_of_true ?_ (by simp [File.inode])
        change Inside sz (if driver major = true then serve served addr n else [])
        split_ifs
        · exact inside_serve haddr hbuf
        · exact inside_nil sz
      | false =>
        change Inside sz (match readLength ⟨false, major, size⟩ off n with
          | none => []
          | some m => chunks m off.toNat m addr) ↔ _
        cases hlen : readLength ⟨false, major, size⟩ off n with
        | none =>
          refine iff_of_true (inside_nil sz) ?_
          rintro ⟨ip, m, hinode, -, hm, -⟩
          obtain rfl := Option.some.inj hinode
          cases hlen.symm.trans hm
        | some m =>
          simp only
          rw [chunks_eq _ _ _ le_rfl, inside_block_iff haddr]
          constructor
          · rintro hle ⟨ip, m', hinode, -, hm', hlt⟩
            obtain rfl := Option.some.inj hinode
            obtain rfl := Option.some.inj (hlen.symm.trans hm')
            omega
          · intro hnot
            by_contra hgt
            refine hnot ⟨⟨false, major, size⟩, m, rfl, ?_, hlen, by omega⟩
            -- a length that is not negative has been checked
            by_contra hneg
            have hle := readLength_le hlen
            rw [toNat_toInt (not_lt.mp hneg)] at hbuf
            omega

namespace Process

theorem lt_of_argint {k : ℕ} {w : UInt32} (h : p.argint k = some w) :
    p.argAddr k < p.sz ∧ p.argAddr k + 4 ≤ p.sz := by
  unfold argint fetchint at h
  split_ifs at h with hbad
  rw [not_or, UInt32.not_le, UInt32.not_lt] at hbad
  exact hbad

theorem inside_argLoads (k : ℕ) : Inside p.sz (p.argLoads k) := by
  unfold argLoads
  split_ifs with hsome
  · obtain ⟨w, hw⟩ := Option.isSome_iff_exists.mp hsome
    obtain ⟨hlt, hle⟩ := lt_of_argint hw
    refine (inside_block_iff hlt).mpr ?_
    have hbuf := add_le_of_check p.sz_le hlt hle
    rwa [toNat_toInt (by decide)] at hbuf
  · exact inside_nil p.sz

theorem args_eq_some {f : File} (h : p.args = some (f, addr, n)) :
    addr < p.sz ∧ addr.toNat + (toInt n).toNat ≤ p.sz.toNat := by
  obtain ⟨g, -, h⟩ := Option.bind_eq_some_iff.mp h
  obtain ⟨m, -, h⟩ := Option.bind_eq_some_iff.mp h
  obtain ⟨a, ha, heq⟩ := Option.map_eq_some_iff.mp h
  obtain ⟨rfl, rfl, rfl⟩ : g = f ∧ a = addr ∧ m = n := by simpa using heq
  obtain ⟨i, -, hcheck⟩ := Option.bind_eq_some_iff.mp ha
  split_ifs at hcheck with hbad
  obtain rfl := Option.some.inj hcheck
  rw [not_or, UInt32.not_le, UInt32.not_lt] at hbad
  exact ⟨hbad.1, add_le_of_check p.sz_le hbad.1 hbad.2⟩

theorem inside_sysWrite (p : Process) (served : ℕ) : Inside p.sz (p.sysWrite served) := by
  unfold sysWrite
  rw [inside_append, inside_append]
  refine ⟨⟨inside_argLoads 0, ?_⟩, ?_⟩
  · split_ifs
    · exact inside_append.mpr ⟨inside_argLoads 2, inside_argLoads 1⟩
    · exact inside_append.mpr ⟨inside_argLoads 2, inside_nil _⟩
    · exact inside_nil _
  · cases hargs : p.args with
    | none => exact inside_nil _
    | some r =>
      obtain ⟨f, addr, n⟩ := r
      obtain ⟨haddr, hbuf⟩ := args_eq_some hargs
      exact inside_filewrite f haddr hbuf

/-- A read with a negative length that `argptr` lets through, of a file that is neither a pipe nor a
device, which has more bytes behind its offset than the process has behind the buffer: `readi` takes
the length for a large number and replaces it by what is left of the file. -/
def Escapes (p : Process) : Prop :=
  ∃ f addr n ip m, p.args = some (f, addr, n) ∧ f.inode = some ip ∧ toInt n < 0 ∧
    readLength ip f.off n = some m ∧ p.sz.toNat < addr.toNat + m

/-- **User pointers stay in the process**, except for the reads that escape. -/
theorem user_pointers_iff (p : Process) (served : ℕ) :
    Inside p.sz (p.sysRead served) ∧ Inside p.sz (p.sysWrite served) ↔ ¬p.Escapes := by
  rw [and_iff_left (inside_sysWrite p served), sysRead]
  cases hargs : p.args with
  | none =>
    refine iff_of_true (inside_nil _) ?_
    rintro ⟨f, addr, n, ip, m, h, -⟩
    cases hargs.symm.trans h
  | some r =>
    obtain ⟨f, addr, n⟩ := r
    obtain ⟨haddr, hbuf⟩ := args_eq_some hargs
    refine (inside_fileread_iff f haddr hbuf).trans (not_congr ?_)
    constructor
    · rintro ⟨ip, m, h⟩
      exact ⟨f, addr, n, ip, m, hargs, h⟩
    · rintro ⟨f', addr', n', ip, m, h, hrest⟩
      obtain ⟨rfl, rfl, rfl⟩ : f = f' ∧ addr = addr' ∧ n = n' := by
        simpa using Option.some.inj (hargs.symm.trans h)
      exact ⟨ip, m, hrest⟩

/-- `read(0, 4000, -1)` in a process of one page, from a file of one block. -/
def readMinusOne : Process where
  sz := 4096
  sz_le := by decide
  esp := 0
  mem a := if 12 ≤ a then 0xff else if a = 8 then 0xa0 else if a = 9 then 0x0f else 0
  ofile _ := some ⟨.inode ⟨false, 0, 512⟩, true, false, 0⟩

theorem user_pointers_fail : ¬Inside readMinusOne.sz (readMinusOne.sysRead 0) := by
  intro h
  have hmem : 4096 ∈ readMinusOne.sysRead 0 := by decide +kernel
  exact absurd (h 4096 hmem) (by decide)

end Process

end SistemasOperacionais.Xv6.UserBuffer
