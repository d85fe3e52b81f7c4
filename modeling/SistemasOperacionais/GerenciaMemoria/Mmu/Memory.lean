import SistemasOperacionais.GerenciaMemoria.Mmu.Model

/-!
# Lists of blocks in the memory of `MMU.c`

The memory is read as a list of blocks, each the address of its header and its `tam`. What the
program needs of a memory is collected in `Acesso`: writes are seen where they are made and nowhere
else, as long as the headers involved do not overlap. Both readings of the memory provide it, so
each edit of the list is followed through the memory once: writing a size, taking a block out, and
putting one in.
-/

namespace SistemasOperacionais.Mmu

open Foundations

/-! ## Integers -/

theorem wrap_of_inteiro {x : ℤ} (h : Inteiro x) : wrap x = x := by
  obtain ⟨hlo, hhi⟩ := h
  refine Int.bmod_eq_of_le ?_ ?_
  · norm_num at hlo ⊢
    omega
  · norm_num at hhi ⊢
    omega

theorem inteiro_wrap (x : ℤ) : Inteiro (wrap x) := by
  have hlo := Int.le_bmod (x := x) (m := 2 ^ 32) (by norm_num)
  have hhi := Int.bmod_lt (x := x) (m := 2 ^ 32) (by norm_num)
  rw [Inteiro, wrap]
  norm_num at hlo hhi ⊢
  omega

theorem wrap_of_overflow {x : ℤ} (h : 2 ^ 31 ≤ x) (h' : x < 2 ^ 32) : wrap x = x - 2 ^ 32 := by
  refine (Int.bmod_eq_iff (by norm_num)).mpr ⟨?_, ?_, ?_⟩
  · norm_num at h ⊢
    omega
  · norm_num at h' ⊢
    omega
  · simp

/-! ## Accesses -/

/-- The effect of writes on later reads, for headers related by `R`: it has to hold between the
header written and the header read. A value read back is the value written if it fits its field; the
pointers that do are those of `W`. -/
structure Acesso {μ : Type} (M : Memoria μ) (R : ℕ → ℕ → Prop) (W : ℕ → Prop) : Prop where
  tam_setTam {m : μ} {a b : ℕ} {v : ℤ} : R a b → Inteiro v →
    M.tam (M.setTam m a v) b = if b = a then v else M.tam m b
  next_setTam {m : μ} {a b : ℕ} {v : ℤ} : R a b → M.next (M.setTam m a v) b = M.next m b
  prev_setTam {m : μ} {a b : ℕ} {v : ℤ} : R a b → M.prev (M.setTam m a v) b = M.prev m b
  tam_setNext {m : μ} {a b v : ℕ} : R a b → M.tam (M.setNext m a v) b = M.tam m b
  next_setNext {m : μ} {a b v : ℕ} : R a b → W v →
    M.next (M.setNext m a v) b = if b = a then v else M.next m b
  prev_setNext {m : μ} {a b v : ℕ} : R a b → M.prev (M.setNext m a v) b = M.prev m b
  tam_setPrev {m : μ} {a b v : ℕ} : R a b → M.tam (M.setPrev m a v) b = M.tam m b
  next_setPrev {m : μ} {a b v : ℕ} : R a b → M.next (M.setPrev m a v) b = M.next m b
  prev_setPrev {m : μ} {a b v : ℕ} : R a b → W v →
    M.prev (M.setPrev m a v) b = if b = a then v else M.prev m b
  tam_corta {m : μ} {a b : ℕ} {t s : ℤ} : M.tam (M.corta m a t s).2 b = M.tam m b
  next_corta {m : μ} {a b : ℕ} {t s : ℤ} : M.next (M.corta m a t s).2 b = M.next m b
  prev_corta {m : μ} {a b : ℕ} {t s : ℤ} : M.prev (M.corta m a t s).2 b = M.prev m b
  recua_avanca {a : ℕ} : W a → M.recua (M.avanca a) = a
  zero : W 0

theorem acesso_registros : Acesso registros (fun _ _ ↦ True) fun _ ↦ True where
  tam_setTam _ _ := by simp only [registros, Function.update_apply]; split <;> rfl
  next_setTam _ := by simp only [registros, Function.update_apply]; split <;> simp_all
  prev_setTam _ := by simp only [registros, Function.update_apply]; split <;> simp_all
  tam_setNext _ := by simp only [registros, Function.update_apply]; split <;> simp_all
  next_setNext _ _ := by simp only [registros, Function.update_apply]; split <;> rfl
  prev_setNext _ := by simp only [registros, Function.update_apply]; split <;> simp_all
  tam_setPrev _ := by simp only [registros, Function.update_apply]; split <;> simp_all
  next_setPrev _ := by simp only [registros, Function.update_apply]; split <;> simp_all
  prev_setPrev _ _ := by simp only [registros, Function.update_apply]; split <;> rfl
  tam_corta := rfl
  next_corta := rfl
  prev_corta := rfl
  recua_avanca _ := rfl
  zero := trivial

/-- Two headers in the bytes of the memory are the same one or have no byte in common. -/
def Separados (a b : ℕ) : Prop := a = b ∨ a + 24 ≤ b ∨ b + 24 ≤ a

theorem wrap_load_store {m : ByteMemory} {a : ℕ} {v : ℤ} (h : Inteiro v) :
    wrap ((m.store a 4 (v % 2 ^ 32).toNat).load a 4 : ℕ) = v := by
  have hnonneg : 0 ≤ v % 2 ^ 32 := Int.emod_nonneg _ (by norm_num)
  have hlt : (v % 2 ^ 32).toNat < 256 ^ 4 := by
    have := Int.emod_lt_of_pos v (show (0 : ℤ) < 2 ^ 32 by norm_num)
    omega
  rw [ByteMemory.load_store_self, Nat.mod_eq_of_lt hlt, Int.toNat_of_nonneg hnonneg]
  exact (Int.emod_bmod v (2 ^ 32)).trans (wrap_of_inteiro h)

theorem load_store_word {m : ByteMemory} {a b k v : ℕ} (h : Separados a b) (_ : k + 8 ≤ 24)
    (hv : v < 2 ^ 64) :
    (m.store (a + k) 8 v).load (b + k) 8 = if b = a then v else m.load (b + k) 8 := by
  by_cases hab : b = a
  · rw [if_pos hab, hab, ByteMemory.load_store_self, Nat.mod_eq_of_lt (by norm_num; omega)]
  · rw [if_neg hab, ByteMemory.load_store_of_disjoint]
    rcases h with h | h | h <;> omega

theorem load_store_field {m : ByteMemory} {a b i n j k v : ℕ} (h : Separados a b)
    (hij : i + n ≤ j ∨ j + k ≤ i) (hi : i + n ≤ 24) (hj : j + k ≤ 24) :
    (m.store (a + i) n v).load (b + j) k = m.load (b + j) k := by
  refine ByteMemory.load_store_of_disjoint ?_
  rcases h with h | h | h <;> omega

theorem acesso_bytes : Acesso bytes Separados (· < 2 ^ 64) where
  tam_setTam {m a b v} h hv := by
    simp only [bytes]
    by_cases hab : b = a
    · rw [if_pos hab, hab, wrap_load_store hv]
    · rw [if_neg hab, ByteMemory.load_store_of_disjoint]
      rcases h with h | h | h <;> omega
  -- one field read after another was written: the two lie apart in the same header or in two
  next_setTam {m a b v} h := by
    simp only [bytes]
    exact load_store_field (i := 0) h (by omega) (by omega) (by omega)
  prev_setTam {m a b v} h := by
    simp only [bytes]
    exact load_store_field (i := 0) h (by omega) (by omega) (by omega)
  tam_setNext {m a b v} h := by
    simp only [bytes]
    rw [← add_zero b, load_store_field h (by omega) (by omega) (by omega)]
  next_setNext {m a b v} h hv := by
    simp only [bytes]
    rw [load_store_word h (by omega) hv]
  prev_setNext {m a b v} h := by
    simp only [bytes]
    rw [load_store_field h (by omega) (by omega) (by omega)]
  tam_setPrev {m a b v} h := by
    simp only [bytes]
    rw [← add_zero b, load_store_field h (by omega) (by omega) (by omega)]
  next_setPrev {m a b v} h := by
    simp only [bytes]
    rw [load_store_field h (by omega) (by omega) (by omega)]
  prev_setPrev {m a b v} h hv := by
    simp only [bytes]
    rw [load_store_word h (by omega) hv]
  tam_corta := rfl
  next_corta := rfl
  prev_corta := rfl
  recua_avanca {a} h := by
    simp only [bytes, endereco, holeSize_eq]
    omega
  zero := by norm_num

/-! ## Lists of blocks in a memory -/

/-- `m` holds the blocks `bs`, doubly linked from `lista`; their headers do not overlap. -/
structure Rep {μ : Type} (M : Memoria μ) (R : ℕ → ℕ → Prop) (W : ℕ → Prop) (lista : ℕ) (m : μ)
    (bs : List (ℕ × ℤ)) : Prop where
  chain : DChain 0 (M.next m) (M.prev m) lista (bs.map Prod.fst)
  tam_eq : ∀ x ∈ bs, M.tam m x.1 = x.2
  nodup : (bs.map Prod.fst).Nodup
  apart : ∀ a ∈ bs.map Prod.fst, ∀ b ∈ bs.map Prod.fst, R a b
  word : ∀ a ∈ bs.map Prod.fst, W a

namespace Memoria

variable {μ : Type} (M : Memoria μ)

/-- The memory after the block `q` was fused into the block `p` before it. -/
def funde (m : μ) (p q : ℕ) (v : ℤ) : μ :=
  M.ligaPrev (M.setNext (M.setTam m p v) p (M.next m q)) (M.next m q) p

/-- The memory after the block `c` was split off the end of the block `a`. -/
def cortado (m : μ) (a c : ℕ) (v w : ℤ) : μ :=
  M.ligaPrev (M.setTam (M.setNext (M.setPrev (M.setNext (M.setTam m c w) c (M.next m a)) c a)
    a c) a v) (M.next m a) c

end Memoria

section

variable {μ : Type} {M : Memoria μ} {R : ℕ → ℕ → Prop} {W : ℕ → Prop} {m : μ}
  {lista a b c n p q : ℕ} {t u v w : ℤ} {bs xs ys : List (ℕ × ℤ)}

namespace Acesso

theorem tam_ligaPrev (hM : Acesso M R W) (h : n ≠ 0 → R n b) :
    M.tam (M.ligaPrev m n p) b = M.tam m b := by
  rw [Memoria.ligaPrev]
  split
  · exact hM.tam_setPrev (h ‹_›)
  · rfl

theorem next_ligaPrev (hM : Acesso M R W) (h : n ≠ 0 → R n b) :
    M.next (M.ligaPrev m n p) b = M.next m b := by
  rw [Memoria.ligaPrev]
  split
  · exact hM.next_setPrev (h ‹_›)
  · rfl

theorem prev_ligaPrev (hM : Acesso M R W) (h : n ≠ 0 → R n b) (hb : b ≠ 0) (hp : W p) :
    M.prev (M.ligaPrev m n p) b = if b = n then p else M.prev m b := by
  rw [Memoria.ligaPrev]
  split
  · exact hM.prev_setPrev (h ‹_›) hp
  · rw [if_neg]
    rintro rfl
    exact absurd hb ‹_›

/-- What the six writes of a split leave in the fields of any block they do not damage. -/
theorem cortado (hM : Acesso M R W) (hv : Inteiro v) (hw : Inteiro w) (hRa : R a b) (hRc : R c b)
    (hRn : M.next m a ≠ 0 → R (M.next m a) b) (hb : b ≠ 0) (ha : W a) (hc : W c)
    (hn : W (M.next m a)) :
    M.tam (M.cortado m a c v w) b = (if b = a then v else if b = c then w else M.tam m b) ∧
    M.next (M.cortado m a c v w) b =
      (if b = a then c else if b = c then M.next m a else M.next m b) ∧
    M.prev (M.cortado m a c v w) b =
      (if b = M.next m a then c else if b = c then a else M.prev m b) := by
  refine ⟨?_, ?_, ?_⟩
  · rw [Memoria.cortado, hM.tam_ligaPrev hRn, hM.tam_setTam hRa hv, hM.tam_setNext hRa,
      hM.tam_setPrev hRc, hM.tam_setNext hRc, hM.tam_setTam hRc hw]
  · rw [Memoria.cortado, hM.next_ligaPrev hRn, hM.next_setTam hRa, hM.next_setNext hRa hc,
      hM.next_setPrev hRc, hM.next_setNext hRc hn, hM.next_setTam hRc]
  · rw [Memoria.cortado, hM.prev_ligaPrev hRn hb hc, hM.prev_setTam hRa, hM.prev_setNext hRa,
      hM.prev_setPrev hRc ha, hM.prev_setNext hRc, hM.prev_setTam hRc]

end Acesso

namespace Rep

theorem ne_zero (h : Rep M R W lista m bs) (ha : a ∈ bs.map Prod.fst) : a ≠ 0 :=
  h.chain.ne_null a ha

theorem links (h : Rep M R W lista m (xs ++ (a, t) :: ys)) :
    M.next m a = (ys.map Prod.fst).headD 0 ∧ M.prev m a = (xs.map Prod.fst).getLastD 0 := by
  obtain ⟨e, he⟩ := h.chain.dseg
  rw [List.map_append, List.map_cons] at he
  obtain ⟨d, r, hxs, -, hprev, hys⟩ := dseg_append.mp he
  exact ⟨hys.ends.1, hprev.trans hxs.ends.2⟩

theorem notMem (h : Rep M R W lista m (xs ++ (a, t) :: ys)) : a ∉ (xs ++ ys).map Prod.fst := by
  have hnd := h.nodup
  rw [List.map_append, List.map_cons, List.nodup_middle, ← List.map_append] at hnd
  exact (List.nodup_cons.mp hnd).1

theorem tam_other {x : ℕ × ℤ} (h : Rep M R W lista m (xs ++ (a, t) :: ys)) (hx : x ∈ xs ++ ys) :
    x.1 ≠ a ∧ M.tam m x.1 = x.2 :=
  ⟨ne_of_mem_of_not_mem (List.mem_map_of_mem hx) h.notMem,
    h.tam_eq x ((List.Sublist.append_left (List.sublist_cons_self _ _) _).subset hx)⟩

theorem next_mem (h : Rep M R W lista m (xs ++ (a, t) :: ys)) (hn : M.next m a ≠ 0) :
    M.next m a ∈ (xs ++ (a, t) :: ys).map Prod.fst := by
  rw [h.links.1] at hn ⊢
  cases ys with
  | nil => exact absurd rfl hn
  | cons y ys => simp

theorem next_word (hM : Acesso M R W) (h : Rep M R W lista m (xs ++ (a, t) :: ys)) :
    W (M.next m a) := by
  by_cases hn : M.next m a = 0
  · rw [hn]
    exact hM.zero
  · exact h.word _ (h.next_mem hn)

theorem tam_mid (h : Rep M R W lista m (xs ++ (a, t) :: ys)) : M.tam m a = t :=
  h.tam_eq (a, t) (by simp)

theorem setTam (hM : Acesso M R W) (h : Rep M R W lista m (xs ++ (a, t) :: ys)) (hv : Inteiro v) :
    Rep M R W lista (M.setTam m a v) (xs ++ (a, v) :: ys) := by
  have hR : ∀ b ∈ (xs ++ (a, t) :: ys).map Prod.fst, R a b := h.apart a (by simp)
  have haddr : (xs ++ (a, v) :: ys).map Prod.fst = (xs ++ (a, t) :: ys).map Prod.fst := by simp
  refine ⟨haddr ▸ h.chain.congr fun b hb ↦ ⟨hM.next_setTam (hR b hb), hM.prev_setTam (hR b hb)⟩,
    fun x hx ↦ ?_, haddr ▸ h.nodup, haddr ▸ h.apart, haddr ▸ h.word⟩
  rw [hM.tam_setTam (hR _ (haddr ▸ List.mem_map_of_mem hx)) hv]
  rcases List.mem_cons.mp (List.perm_middle.mem_iff.mp hx) with rfl | hx
  · rw [if_pos rfl]
  · obtain ⟨hne, htam⟩ := h.tam_other hx
    rw [if_neg hne, htam]

/-- Replacing the blocks between two blocks of the list: the links outside the replaced part may
change only where it is left and where it is entered again. -/
theorem chain_splice {m' : μ} {d : ℕ} (zs zs' : List (ℕ × ℤ))
    (h : Rep M R W lista m (xs ++ (a, t) :: (zs ++ ys)))
    (hnext : ∀ b ∈ (xs ++ ys).map Prod.fst, M.next m' b = M.next m b)
    (hprev : ∀ b ∈ (xs ++ (a, t) :: ys).map Prod.fst,
      M.prev m' b = if b = (ys.map Prod.fst).headD 0 then d else M.prev m b)
    (hseg : DSeg (M.next m') (M.prev m') a (M.next m' a) (zs'.map Prod.fst) d
      ((ys.map Prod.fst).headD 0)) (hne : ∀ b ∈ zs'.map Prod.fst, b ≠ 0) :
    DChain 0 (M.next m') (M.prev m') lista ((xs ++ (a, v) :: (zs' ++ ys)).map Prod.fst) := by
  have hc := h.chain
  have hnd := h.nodup
  simp only [List.map_append, List.map_cons] at hc hnd hnext hprev ⊢
  -- the block that is entered again is none of those before the replaced part
  have hhead : ∀ b, b ∉ ys.map Prod.fst → b ≠ 0 → b ≠ (ys.map Prod.fst).headD 0 := by
    rintro b hb hb0 rfl
    cases ys with
    | nil => exact hb0 rfl
    | cons y ys => exact hb List.mem_cons_self
  obtain ⟨-, hndy, hdisj⟩ := List.nodup_append.mp hnd
  obtain ⟨hay, hndy⟩ := List.nodup_cons.mp hndy
  refine hc.splice (List.nodup_append.mp hndy).2.1 (fun b hb ↦ ⟨hnext b (by simp [hb]), ?_⟩) ?_
    hseg hne (fun b hb ↦ hnext b (by simp [hb])) fun b hb ↦ hprev b (by simp [hb])
  · rw [hprev b (by simp [hb]), if_neg]
    exact hhead b (fun hby ↦ hdisj b hb b (by simp [hby]) rfl) (h.ne_zero (by simp [hb]))
  · rw [hprev a (by simp), if_neg]
    exact hhead a (fun hay' ↦ hay (List.mem_append_right _ hay')) (h.ne_zero (by simp))

theorem desliga (hM : Acesso M R W) (h : Rep M R W lista m (xs ++ (p, u) :: (q, w) :: ys)) :
    Rep M R W lista (M.ligaPrev (M.setNext m p (M.next m q)) (M.next m q) p)
      (xs ++ (p, u) :: ys) := by
  have hq : Rep M R W lista m ((xs ++ [(p, u)]) ++ (q, w) :: ys) := by simpa using h
  have hsub : (xs ++ (p, u) :: ys).Sublist (xs ++ (p, u) :: (q, w) :: ys) := by simp
  have haddr := hsub.map Prod.fst
  have hnd := h.nodup.sublist haddr
  have hRp : ∀ b ∈ (xs ++ (p, u) :: ys).map Prod.fst, R p b :=
    fun b hb ↦ h.apart p (by simp) b (haddr.subset hb)
  have hRn : ∀ b ∈ (xs ++ (p, u) :: ys).map Prod.fst, M.next m q ≠ 0 → R (M.next m q) b :=
    fun b hb hn ↦ h.apart _ (by simpa using hq.next_mem hn) b (haddr.subset hb)
  refine ⟨chain_splice (d := p) [(q, w)] [] h ?_ ?_ ?_ ?_, fun x hx ↦ ?_, hnd,
    fun b hb c hc ↦ h.apart b (haddr.subset hb) c (haddr.subset hc),
    fun b hb ↦ h.word b (haddr.subset hb)⟩
  · intro b hb
    have hb' : b ∈ (xs ++ (p, u) :: ys).map Prod.fst := by
      exact ((List.Sublist.append_left (List.sublist_cons_self _ _) _).map Prod.fst).subset hb
    -- only `p` is given a new successor
    have hbp : b ≠ p := by
      rintro rfl
      rw [List.map_append, List.map_cons, List.nodup_middle, ← List.map_append] at hnd
      exact (List.nodup_cons.mp hnd).1 hb
    rw [hM.next_ligaPrev (hRn b hb'), hM.next_setNext (hRp b hb') (hq.next_word hM), if_neg hbp]
  · intro b hb
    rw [hM.prev_ligaPrev (hRn b hb) (h.ne_zero (haddr.subset hb)) (h.word p (by simp)),
      hM.prev_setNext (hRp b hb), hq.links.1]
  · refine ⟨?_, rfl⟩
    rw [hM.next_ligaPrev (hRn p (by simp)), hM.next_setNext (hRp p (by simp)) (hq.next_word hM),
      if_pos rfl, hq.links.1]
  · simp
  · have hx' := List.mem_map_of_mem (f := Prod.fst) hx
    rw [hM.tam_ligaPrev (hRn _ hx'), hM.tam_setNext (hRp _ hx')]
    exact h.tam_eq x (hsub.subset hx)

theorem funde (hM : Acesso M R W) (h : Rep M R W lista m (xs ++ (p, u) :: (q, w) :: ys))
    (hv : Inteiro v) : Rep M R W lista (M.funde m p q v) (xs ++ (p, v) :: ys) := by
  have hnext : M.next (M.setTam m p v) q = M.next m q :=
    hM.next_setTam (h.apart p (by simp) q (by simp))
  have h' := desliga hM (h.setTam hM hv)
  rwa [hnext] at h'

/-- Putting a new block into the list, with the end of the block before it. -/
theorem cortado (hM : Acesso M R W) (h : Rep M R W lista m (xs ++ (a, t) :: ys)) (hv : Inteiro v)
    (hw : Inteiro w) (hc0 : c ≠ 0) (hc : W c) (hcs : c ∉ (xs ++ (a, t) :: ys).map Prod.fst)
    (hR : ∀ b ∈ (xs ++ (a, t) :: ys).map Prod.fst, R c b ∧ R b c) (hRc : R c c) :
    Rep M R W lista (M.cortado m a c v w) (xs ++ (a, v) :: (c, w) :: ys) := by
  have hperm : ((xs ++ (a, v) :: (c, w) :: ys).map Prod.fst).Perm
      (c :: (xs ++ (a, t) :: ys).map Prod.fst) := by
    simp only [List.map_append, List.map_cons]
    exact (List.Perm.append_left _ (List.Perm.swap _ _ _)).trans List.perm_middle
  have hmem : ∀ b, b ∈ (xs ++ (a, v) :: (c, w) :: ys).map Prod.fst ↔
      b = c ∨ b ∈ (xs ++ (a, t) :: ys).map Prod.fst := fun b ↦ hperm.mem_iff.trans List.mem_cons
  have hapart : ∀ b ∈ (xs ++ (a, v) :: (c, w) :: ys).map Prod.fst,
      ∀ b' ∈ (xs ++ (a, v) :: (c, w) :: ys).map Prod.fst, R b b' := by
    intro b hb b' hb'
    rcases (hmem b).mp hb with rfl | hold
    · rcases (hmem b').mp hb' with rfl | hold'
      · exact hRc
      · exact (hR b' hold').1
    · rcases (hmem b').mp hb' with rfl | hold'
      · exact (hR b hold).2
      · exact h.apart b hold b' hold'
  -- the three fields of every block after the writes, from the access laws
  have hcampos : ∀ b ∈ (xs ++ (a, v) :: (c, w) :: ys).map Prod.fst, b ≠ 0 → _ := fun b hb hb0 ↦
    hM.cortado (m := m) (a := a) (c := c) (b := b) hv hw (hapart a (by simp) b hb)
      (hapart c (by simp) b hb) (fun hn ↦ hapart _ ((hmem _).mpr (Or.inr (h.next_mem hn))) b hb)
      hb0 (h.word a (by simp)) hc (h.next_word hM)
  have hold : ∀ b ∈ (xs ++ (a, t) :: ys).map Prod.fst, b ≠ c ∧ _ := fun b hb ↦
    ⟨ne_of_mem_of_not_mem hb hcs, hcampos b ((hmem b).mpr (Or.inr hb)) (h.ne_zero hb)⟩
  have hnew := hcampos c (by simp) hc0
  have hca : c ≠ a := (hold a (by simp)).1.symm
  have hcn : c ≠ M.next m a := by
    intro heq
    by_cases hn : M.next m a = 0
    · exact hc0 (heq.trans hn)
    · exact hcs (heq ▸ h.next_mem hn)
  refine ⟨chain_splice (d := c) [] [(c, w)] h ?_ ?_ ?_ ?_, ?_, ?_, hapart, ?_⟩
  · intro b hb
    obtain ⟨hbc, -, hnext, -⟩ := hold b
      (((List.Sublist.append_left (List.sublist_cons_self _ _) _).map Prod.fst).subset hb)
    rw [hnext, if_neg (ne_of_mem_of_not_mem hb h.notMem), if_neg hbc]
  · intro b hb
    obtain ⟨hbc, -, -, hprev⟩ := hold b hb
    rw [hprev, if_neg hbc, h.links.1]
  · obtain ⟨-, -, hnext, -⟩ := hold a (by simp)
    refine ⟨?_, ?_, ?_, rfl⟩
    · rw [hnext, if_pos rfl]
    · rw [hnew.2.2, if_neg hcn, if_pos rfl]
    · rw [hnew.2.1, if_neg hca, if_pos rfl, h.links.1]
  · simpa using hc0
  · intro x hx
    -- sizes: the block that was split, the new one, and the others
    have hcases : x = (a, v) ∨ x = (c, w) ∨ x ∈ xs ++ ys := by
      simp only [List.mem_append, List.mem_cons] at hx ⊢
      tauto
    rcases hcases with rfl | rfl | hx
    · rw [(hold a (by simp)).2.1, if_pos rfl]
    · rw [hnew.1, if_neg hca, if_pos rfl]
    · obtain ⟨hxa, htam⟩ := h.tam_other hx
      obtain ⟨hxc, htam', -⟩ := hold x.1 (List.mem_map_of_mem
        ((List.Sublist.append_left (List.sublist_cons_self _ _) _).subset hx))
      rw [htam', if_neg hxa, if_neg hxc, htam]
  · exact hperm.nodup_iff.mpr (List.nodup_cons.mpr ⟨hcs, h.nodup⟩)
  · intro b hb
    rcases (hmem b).mp hb with rfl | hold
    · exact hc
    · exact h.word b hold

end Rep

end

end SistemasOperacionais.Mmu
