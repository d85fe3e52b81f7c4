import SistemasOperacionais.GerenciaMemoria.Busca
import Mathlib.Data.List.MinMax

/-!
# The fit policies of `gm (falta next).c`

`bestFit` and `worstFit` are read here as searches for an extremum: among the blocks of the free
list that are large enough they pick the first one of least, or of greatest, size. The comparison
with `List.argmin` and `List.argmax` is exact, ties included.

The second half is about the text of the two functions. The running best is kept in the variables of
the caller, through `anteriorMelhor = ant` and `melhor = at`; sizes are `int`, the bound
`tam + sizeof(struct header)` is a `size_t`, and so the first comparison of the loop is made on 64
bits without a sign, and the others on 32 bits with one. `Maquina` says all of this, and the
searches on it simulate those on numbers.
-/

namespace SistemasOperacionais.Gm

open Foundations

/-! ## Searching for an extremum -/

/-- The blocks of a list that can serve a request of `t`. -/
def candidatos (s : Estado) (t : ℕ) (l : List ℕ) : List ℕ := l.filter fun b ↦ t + 16 ≤ s.tam b

/-- The block before `b` in `l`, or `b` itself when it comes first. -/
def predecessor (l : List ℕ) (b : ℕ) : ℕ := (l.takeWhile (· ≠ b)).getLastD b

section Politica

variable {s : Estado} {t : ℕ}

theorem candidatos_append_of_lt {l : List ℕ} {b : ℕ} (h : s.tam b < t + 16) :
    candidatos s t (l ++ [b]) = candidatos s t l := by
  simp [candidatos, h]

theorem candidatos_append_of_le {l : List ℕ} {b : ℕ} (h : t + 16 ≤ s.tam b) :
    candidatos s t (l ++ [b]) = candidatos s t l ++ [b] := by
  simp [candidatos, h]

theorem predecessor_append {pre post : List ℕ} {b : ℕ} (h : (pre ++ b :: post).Nodup) :
    predecessor (pre ++ b :: post) b = pre.getLastD b := by
  have hpre : ∀ a ∈ pre, decide (a ≠ b) = true := by
    intro a ha
    have := (List.nodup_append.mp h).2.2 a ha b List.mem_cons_self
    simpa using this
  rw [predecessor, List.takeWhile_append_of_pos hpre]
  simp

theorem Percurso.ant_eq {L done l : List ℕ} {ant p : ℕ} (h : Percurso s L done (p :: l) ant p)
    (hnd : L.Nodup) : ant = predecessor L p := by
  have hL := h.eq
  rw [h.ant p rfl, hL, predecessor_append (hL ▸ hnd)]

/-- What the loop of `bestFit` knows after it has passed the blocks of `done`, a part of `L`. -/
def Melhor (s : Estado) (t : ℕ) (L done : List ℕ) (am mm : ℕ) (found : Bool) : Prop :=
  if found then (candidatos s t done).argmin s.tam = some mm ∧ am = predecessor L mm
  else candidatos s t done = []

theorem bestFitLoop_melhor {L done l : List ℕ} {n am mm ant p : ℕ} {found : Bool}
    (hw : Percurso s L done l ant p) (hnd : L.Nodup) (h0 : 0 ∉ L)
    (hinv : Melhor s t L done am mm found) (hn : l.length < n) :
    ∃ am' mm' found', bestFitLoop s t n am mm found ant p = .ok (am', mm', found') ∧
      Melhor s t L L am' mm' found' := by
  induction n generalizing done l p am mm found ant with
  | zero => exact absurd hn (Nat.not_lt_zero _)
  | succ n ih =>
    cases l with
    | nil =>
      have hL := hw.eq
      rw [List.append_nil] at hL
      rw [bestFitLoop, if_pos (hw.chain.eq_nil_iff.mp rfl)]
      exact ⟨am, mm, found, rfl, hL ▸ hinv⟩
    | cons b l =>
      obtain ⟨rfl, hp, hw'⟩ := hw.avanca
      have hn' : l.length < n := Nat.lt_of_succ_lt_succ hn
      have hpred := hw.ant_eq hnd
      rw [bestFitLoop, if_neg hp, Estado.lerTam_of_ne hp, Estado.lerProx_of_ne hp, sizeofHeader_eq]
      simp only [bind, Except.bind]
      by_cases hlt : s.tam p < t + 16
      · rw [if_pos hlt]
        refine ih hw' ?_ hn'
        rwa [Melhor, candidatos_append_of_lt hlt]
      · rw [if_neg hlt]
        have hcand := candidatos_append_of_le (l := done) (not_lt.mp hlt)
        cases found with
        | false =>
          simp only [Bool.not_false, if_true]
          have hnone : candidatos s t done = [] := hinv
          refine ih hw' ⟨?_, hpred⟩ hn'
          rw [hcand, hnone, List.nil_append, List.argmin_singleton]
        | true =>
          obtain ⟨hmin, hpm⟩ : (candidatos s t done).argmin s.tam = some mm ∧
              am = predecessor L mm := hinv
          have hmem : mm ∈ L := by
            rw [hw.eq]
            exact List.mem_append_left _ (List.mem_of_mem_filter (List.argmin_mem hmin))
          have hmm : mm ≠ 0 := ne_of_mem_of_not_mem hmem h0
          simp only [Bool.not_true, Bool.false_eq_true, if_false, Estado.lerTam_of_ne hmm]
          -- the new block replaces the best so far only when it is strictly smaller
          by_cases hgt : (s.tam mm : ℤ) - t > (s.tam p : ℤ) - t
          · rw [if_pos (decide_eq_true hgt)]
            refine ih hw' ⟨?_, hpred⟩ hn'
            have hsm : s.tam p < s.tam mm := by omega
            rw [hcand, List.argmin_concat, hmin]
            exact if_pos hsm
          · rw [if_neg (by simpa using hgt)]
            refine ih hw' ⟨?_, hpm⟩ hn'
            have hsm : ¬ s.tam p < s.tam mm := by omega
            rw [hcand, List.argmin_concat, hmin]
            exact if_neg hsm

/-- What the loop of `worstFit` knows; `maiorTam` is `-1` as long as no block has fitted. -/
def Maior (s : Estado) (t : ℕ) (L done : List ℕ) (am mm : ℕ) (mt : ℤ) : Prop :=
  if mt = -1 then candidatos s t done = []
  else (candidatos s t done).argmax s.tam = some mm ∧ am = predecessor L mm ∧ mt = s.tam mm

theorem worstFitLoop_maior {L done l : List ℕ} {n am mm ant p : ℕ} {mt : ℤ}
    (hw : Percurso s L done l ant p) (hnd : L.Nodup) (hinv : Maior s t L done am mm mt)
    (hn : l.length < n) :
    ∃ am' mm' mt', worstFitLoop s t n am mm mt ant p = .ok (am', mm', mt') ∧
      Maior s t L L am' mm' mt' := by
  induction n generalizing done l p am mm mt ant with
  | zero => exact absurd hn (Nat.not_lt_zero _)
  | succ n ih =>
    cases l with
    | nil =>
      have hL := hw.eq
      rw [List.append_nil] at hL
      rw [worstFitLoop, if_pos (hw.chain.eq_nil_iff.mp rfl)]
      exact ⟨am, mm, mt, rfl, hL ▸ hinv⟩
    | cons b l =>
      obtain ⟨rfl, hp, hw'⟩ := hw.avanca
      have hn' : l.length < n := Nat.lt_of_succ_lt_succ hn
      have hpred := hw.ant_eq hnd
      have hpos : (s.tam p : ℤ) ≠ -1 := by omega
      rw [worstFitLoop, if_neg hp, Estado.lerTam_of_ne hp, Estado.lerProx_of_ne hp, sizeofHeader_eq]
      simp only [bind, Except.bind]
      by_cases hlt : s.tam p < t + 16
      · rw [if_pos hlt]
        refine ih hw' ?_ hn'
        rwa [Maior, candidatos_append_of_lt hlt]
      · rw [if_neg hlt]
        have hcand := candidatos_append_of_le (l := done) (not_lt.mp hlt)
        by_cases hmt : mt = -1
        · rw [Maior, if_pos hmt] at hinv
          rw [if_pos (by omega)]
          refine ih hw' ?_ hn'
          rw [Maior, if_neg hpos, hcand, hinv, List.nil_append, List.argmax_singleton]
          exact ⟨rfl, hpred, rfl⟩
        · rw [Maior, if_neg hmt] at hinv
          obtain ⟨hmax, hpm, rfl⟩ := hinv
          -- equal sizes keep the block found first
          by_cases hgt : (s.tam p : ℤ) > s.tam mm
          · rw [if_pos hgt]
            refine ih hw' ?_ hn'
            rw [Maior, if_neg hpos, hcand, List.argmax_concat, hmax]
            exact ⟨if_pos (by omega), hpred, rfl⟩
          · rw [if_neg hgt]
            refine ih hw' ?_ hn'
            rw [Maior, if_neg hmt, hcand, List.argmax_concat, hmax]
            exact ⟨if_neg (by omega), hpm, rfl⟩

/-- `*ant` and `*at` after a search that found `o`: both `NULL` when nothing was found. -/
def saida (l : List ℕ) : Option ℕ → ℕ × ℕ
  | none => (0, 0)
  | some b => (predecessor l b, b)

theorem bestFit_eq {p n : ℕ} {l : List ℕ} (hc : Chain 0 s.prox p l) (hn : l.length < n) :
    bestFit n s p p t = .ok (saida l ((candidatos s t l).argmin s.tam)) := by
  have hstart : Melhor s t l [] p p false := rfl
  obtain ⟨am, mm, found, hrun, hinv⟩ := bestFitLoop_melhor (.inicio hc) hc.nodup
    (fun h ↦ hc.ne_null 0 h rfl) hstart hn
  rw [bestFit, hrun]
  cases found with
  | false =>
    have hnone : candidatos s t l = [] := hinv
    rw [hnone, List.argmin_nil]
    rfl
  | true =>
    obtain ⟨hmin, rfl⟩ : (candidatos s t l).argmin s.tam = some mm ∧ am = predecessor l mm := hinv
    rw [hmin]
    rfl

theorem worstFit_eq {p n : ℕ} {l : List ℕ} (hc : Chain 0 s.prox p l) (hn : l.length < n) :
    worstFit n s p p t = .ok (saida l ((candidatos s t l).argmax s.tam)) := by
  have hstart : Maior s t l [] p p (-1) := by
    rw [Maior, if_pos rfl]
    rfl
  obtain ⟨am, mm, mt, hrun, hinv⟩ := worstFitLoop_maior (.inicio hc) hc.nodup hstart hn
  rw [worstFit, hrun]
  simp only [bind, Except.bind, pure, Except.pure]
  by_cases hmt : mt = -1
  · rw [Maior, if_pos hmt] at hinv
    rw [if_neg (not_not.mpr hmt), hinv, List.argmax_nil, saida]
  · rw [Maior, if_neg hmt] at hinv
    obtain ⟨hmax, rfl, -⟩ := hinv
    rw [if_pos hmt, hmax, saida]

end Politica

/-! ## The functions as they are written -/

namespace Maquina

/-- A `struct header` with its `int` field. -/
structure Header where
  tam : BitVec 32
  prox : ℕ
  deriving DecidableEq, Repr

/-- What the two searches work on: the headers, and the variables of type `struct header *`, both by
address. -/
structure Memoria where
  header : ℕ → Header
  ponteiro : ℕ → ℕ

/-- The headers as numbers. The list starts where the caller says, so the globals do not matter. -/
def Memoria.estado (s : Memoria) : Estado where
  header a := ⟨(s.header a).tam.toNat, (s.header a).prox⟩
  listaLivres := 0
  endBaseMemoria := 0
  escritas := []

/-- The statement `*v = p`, for a variable at `v`. -/
def Memoria.atribui (s : Memoria) (v p : ℕ) : Memoria :=
  ⟨s.header, Function.update s.ponteiro v p⟩

/-- The header at `p`, or a fault. -/
def Memoria.ler (s : Memoria) (p : ℕ) : Except Falha Header :=
  if p = 0 then .error .nulo else .ok (s.header p)

/-- `atual->tam < tam+sizeof(struct header)`: the sum is a `size_t`, so both sides are extended to
64 bits and compared without a sign. -/
def pequeno (t tam : BitVec 32) : Bool :=
  (t.signExtend 64).ult (tam.signExtend 64 + BitVec.ofNat 64 sizeofHeader)

/-- The loop of `worstFit`; `anteriorMaior` and `maior` are the addresses it stores through. -/
def worstFitLoop (tam : BitVec 32) (anteriorMaior maior : ℕ) :
    ℕ → Memoria → BitVec 32 → ℕ → ℕ → Except Falha (Memoria × BitVec 32)
  | 0, _, _, _, _ => .error .combustivel
  | n + 1, s, maiorTam, anterior, atual =>
    if atual = 0 then .ok (s, maiorTam)
    else do
      let h ← s.ler atual
      if pequeno h.tam tam then worstFitLoop tam anteriorMaior maior n s maiorTam atual h.prox
      else if maiorTam.slt h.tam then
        let s := (s.atribui maior atual).atribui anteriorMaior anterior
        worstFitLoop tam anteriorMaior maior n s h.tam atual h.prox
      else worstFitLoop tam anteriorMaior maior n s maiorTam atual h.prox

/-- `worstFit(ant, at, tam)`, for variables at the addresses `ant` and `alvo`. -/
def worstFit (n : ℕ) (s : Memoria) (ant alvo : ℕ) (tam : BitVec 32) : Except Falha Memoria := do
  let anteriorMaior := ant
  let maior := alvo
  let (s, maiorTam) ←
    worstFitLoop tam anteriorMaior maior n s (-1) (s.ponteiro ant) (s.ponteiro alvo)
  if maiorTam ≠ -1 then
    let s := s.atribui ant (s.ponteiro anteriorMaior)
    return s.atribui alvo (s.ponteiro maior)
  else return (s.atribui alvo 0).atribui ant 0

def bestFitLoop (tam : BitVec 32) (anteriorMelhor melhor : ℕ) :
    ℕ → Memoria → Bool → ℕ → ℕ → Except Falha (Memoria × Bool)
  | 0, _, _, _, _ => .error .combustivel
  | n + 1, s, found, anterior, atual =>
    if atual = 0 then .ok (s, found)
    else do
      let h ← s.ler atual
      if pequeno h.tam tam then bestFitLoop tam anteriorMelhor melhor n s found atual h.prox
      else
        let troca ← if !found then .ok true else do
          let m ← s.ler (s.ponteiro melhor)
          .ok ((h.tam - tam).slt (m.tam - tam))
        if troca then
          let s := (s.atribui melhor atual).atribui anteriorMelhor anterior
          bestFitLoop tam anteriorMelhor melhor n s true atual h.prox
        else bestFitLoop tam anteriorMelhor melhor n s found atual h.prox

def bestFit (n : ℕ) (s : Memoria) (ant alvo : ℕ) (tam : BitVec 32) : Except Falha Memoria := do
  let anteriorMelhor := ant
  let melhor := alvo
  let (s, found) ←
    bestFitLoop tam anteriorMelhor melhor n s false (s.ponteiro ant) (s.ponteiro alvo)
  if found then
    let s := s.atribui ant (s.ponteiro anteriorMelhor)
    return s.atribui alvo (s.ponteiro melhor)
  else return (s.atribui alvo 0).atribui ant 0

/-- A free list: an acyclic chain of headers from `p` whose sizes are sizes, that is, not negative
as an `int`. -/
structure ListaLivre (s : Memoria) (p : ℕ) (l : List ℕ) : Prop where
  chain : Chain 0 (fun b ↦ (s.header b).prox) p l
  tam_nonneg : ∀ b ∈ l, 0 ≤ (s.header b).tam.toInt

/-- The memory `s'` differs from `s` at most in the variables at `ant` and `alvo`, which now hold
`x.1` and `x.2`. In particular no header has been written. -/
structure Guarda (s s' : Memoria) (ant alvo : ℕ) (x : ℕ × ℕ) : Prop where
  header_eq : s'.header = s.header
  ant_eq : s'.ponteiro ant = x.1
  alvo_eq : s'.ponteiro alvo = x.2
  frame : ∀ v, v ≠ ant → v ≠ alvo → s'.ponteiro v = s.ponteiro v

section Simulacao

variable {s : Memoria} {ant alvo : ℕ} {tam : BitVec 32}

theorem toInt_eq_of_nonneg {x : BitVec 32} (h : 0 ≤ x.toInt) :
    x.toInt = x.toNat ∧ x.toNat < 2 ^ 31 := by
  rw [BitVec.toInt_eq_toNat_cond] at h ⊢
  have := x.isLt
  split at h <;> split <;> omega

theorem signExtend_toNat {x : BitVec 32} (h : 0 ≤ x.toInt) : (x.signExtend 64).toNat = x.toNat := by
  have hlt := (toInt_eq_of_nonneg h).2
  have hmsb : x.msb = false := by
    rw [BitVec.msb_eq_decide, decide_eq_false_iff_not]
    omega
  rw [BitVec.signExtend_eq_setWidth_of_msb_false hmsb, BitVec.toNat_setWidth,
    Nat.mod_eq_of_lt (by omega)]

theorem pequeno_iff {t : BitVec 32} (ht : 0 ≤ t.toInt) (htam : 0 ≤ tam.toInt) :
    pequeno t tam = true ↔ t.toNat < tam.toNat + 16 := by
  have hlt := (toInt_eq_of_nonneg htam).2
  rw [pequeno, BitVec.ult_eq_decide, decide_eq_true_iff, BitVec.toNat_add, signExtend_toNat ht,
    signExtend_toNat htam, sizeofHeader_eq, BitVec.toNat_ofNat]
  omega

/-- The differences that `bestFit` compares do not overflow. -/
theorem toInt_sub_eq {x : BitVec 32} (hx : 0 ≤ x.toInt) (htam : 0 ≤ tam.toInt) :
    (x - tam).toInt = x.toNat - tam.toNat := by
  obtain ⟨ex, hx⟩ := toInt_eq_of_nonneg hx
  obtain ⟨et, ht⟩ := toInt_eq_of_nonneg htam
  rw [BitVec.toInt_sub, ex, et, Int.bmod_eq_of_le (by omega) (by omega)]

theorem atribui_self {v p : ℕ} : (s.atribui v p).ponteiro v = p := Function.update_self ..

theorem atribui_of_ne {v w p : ℕ} (h : w ≠ v) : (s.atribui v p).ponteiro w = s.ponteiro w :=
  Function.update_of_ne h ..

theorem Guarda.refl : Guarda s s ant alvo (s.ponteiro ant, s.ponteiro alvo) :=
  ⟨rfl, rfl, rfl, fun _ _ _ ↦ rfl⟩

theorem Guarda.of_atribui {s' : Memoria} {p a : ℕ} {x : ℕ × ℕ}
    (h : Guarda ((s.atribui alvo p).atribui ant a) s' ant alvo x) : Guarda s s' ant alvo x := by
  refine ⟨h.header_eq, h.ant_eq, h.alvo_eq, fun v hant halvo ↦ ?_⟩
  rw [h.frame v hant halvo, atribui_of_ne hant, atribui_of_ne halvo]

theorem atribui_ponteiro {p a : ℕ} (hne : ant ≠ alvo) :
    ((s.atribui alvo p).atribui ant a).ponteiro ant = a ∧
      ((s.atribui alvo p).atribui ant a).ponteiro alvo = p := by
  rw [atribui_of_ne hne.symm]
  exact ⟨atribui_self, atribui_self⟩

theorem ListaLivre.tail {p : ℕ} {l : List ℕ} (h : ListaLivre s p (p :: l)) :
    ListaLivre s (s.header p).prox l :=
  ⟨(Chain.cons_iff.mp h.chain).2.2, fun b hb ↦ h.tam_nonneg b (List.mem_cons_of_mem _ hb)⟩

theorem ler_of_ne {p : ℕ} (h : p ≠ 0) : s.ler p = .ok (s.header p) := if_neg h

theorem bestFitLoop_sim {l : List ℕ} {n p anterior am mm : ℕ} {found found' : Bool}
    (hl : ListaLivre s p l) (htam : 0 ≤ tam.toInt) (hne : ant ≠ alvo)
    (hbest : found = true → 0 ≤ (s.header (s.ponteiro alvo)).tam.toInt)
    (hrun : Gm.bestFitLoop s.estado tam.toNat n (s.ponteiro ant) (s.ponteiro alvo) found anterior p
      = .ok (am, mm, found')) :
    ∃ s', bestFitLoop tam ant alvo n s found anterior p = .ok (s', found') ∧
      Guarda s s' ant alvo (am, mm) := by
  induction n generalizing s l p anterior found with
  | zero => exact absurd hrun (by simp [Gm.bestFitLoop])
  | succ n ih =>
    rw [Gm.bestFitLoop] at hrun
    rw [bestFitLoop]
    by_cases hp : p = 0
    · rw [if_pos hp] at hrun ⊢
      simp only [Except.ok.injEq, Prod.mk.injEq] at hrun
      obtain ⟨rfl, rfl, rfl⟩ := hrun
      exact ⟨s, rfl, Guarda.refl⟩
    · obtain ⟨l, rfl⟩ := hl.chain.exists_cons hp
      have hsize := hl.tam_nonneg p List.mem_cons_self
      have hl' := hl.tail
      rw [if_neg hp, Estado.lerTam_of_ne hp, Estado.lerProx_of_ne hp, sizeofHeader_eq] at hrun
      rw [if_neg hp, ler_of_ne hp]
      simp only [bind, Except.bind] at hrun ⊢
      by_cases hlt : s.estado.tam p < tam.toNat + 16
      · rw [if_pos hlt] at hrun
        rw [if_pos ((pequeno_iff hsize htam).mpr hlt)]
        exact ih hl' hbest hrun
      · rw [if_neg hlt] at hrun
        rw [if_neg fun h ↦ hlt ((pequeno_iff hsize htam).mp h)]
        -- storing the new choice changes no header, so the list is the same one
        have hstore : Gm.bestFitLoop s.estado tam.toNat n anterior p true p (s.header p).prox
              = .ok (am, mm, found') →
            ∃ s', bestFitLoop tam ant alvo n ((s.atribui alvo p).atribui ant anterior) true p
                (s.header p).prox = .ok (s', found') ∧ Guarda s s' ant alvo (am, mm) := by
          intro h
          obtain ⟨ea, ep⟩ := atribui_ponteiro (s := s) (p := p) (a := anterior) hne
          have hsize' : true = true → 0 ≤ (s.header
              (((s.atribui alvo p).atribui ant anterior).ponteiro alvo)).tam.toInt := by
            rw [ep]
            exact fun _ ↦ hsize
          obtain ⟨s', hs', hg⟩ := ih (s := (s.atribui alvo p).atribui ant anterior)
            ⟨hl'.chain, hl'.tam_nonneg⟩ hsize' (by rw [ea, ep]; exact h)
          exact ⟨s', hs', hg.of_atribui⟩
        cases found with
        | false => exact hstore hrun
        | true =>
          simp only [Bool.not_true, Bool.false_eq_true, if_false] at hrun ⊢
          by_cases hb : s.ponteiro alvo = 0
          · rw [hb] at hrun
            exact absurd hrun (by simp [Estado.lerTam])
          · have hbs := hbest rfl
            rw [Estado.lerTam_of_ne hb] at hrun
            rw [ler_of_ne hb]
            simp only at hrun ⊢
            have hcmp : ((s.header p).tam - tam).slt ((s.header (s.ponteiro alvo)).tam - tam)
                = decide ((s.estado.tam (s.ponteiro alvo) : ℤ) - tam.toNat
                  > (s.estado.tam p : ℤ) - tam.toNat) := by
              rw [BitVec.slt_eq_decide, toInt_sub_eq hsize htam, toInt_sub_eq hbs htam]
              rfl
            rw [hcmp]
            split at hrun
            · rename_i hgt
              rw [if_pos hgt]
              exact hstore hrun
            · rename_i hgt
              rw [if_neg hgt]
              exact ih hl' hbest hrun

theorem worstFitLoop_sim {l : List ℕ} {n p anterior am mm : ℕ} {maiorTam : BitVec 32} {mt : ℤ}
    (hl : ListaLivre s p l) (htam : 0 ≤ tam.toInt) (hne : ant ≠ alvo)
    (hrun : Gm.worstFitLoop s.estado tam.toNat n (s.ponteiro ant) (s.ponteiro alvo) maiorTam.toInt
      anterior p = .ok (am, mm, mt)) :
    ∃ s' x, worstFitLoop tam ant alvo n s maiorTam anterior p = .ok (s', x) ∧ x.toInt = mt ∧
      Guarda s s' ant alvo (am, mm) := by
  induction n generalizing s l p anterior maiorTam with
  | zero => exact absurd hrun (by simp [Gm.worstFitLoop])
  | succ n ih =>
    rw [Gm.worstFitLoop] at hrun
    rw [worstFitLoop]
    by_cases hp : p = 0
    · rw [if_pos hp] at hrun ⊢
      simp only [Except.ok.injEq, Prod.mk.injEq] at hrun
      obtain ⟨rfl, rfl, rfl⟩ := hrun
      exact ⟨s, maiorTam, rfl, rfl, Guarda.refl⟩
    · obtain ⟨l, rfl⟩ := hl.chain.exists_cons hp
      have hsize := hl.tam_nonneg p List.mem_cons_self
      have hl' := hl.tail
      rw [if_neg hp, Estado.lerTam_of_ne hp, Estado.lerProx_of_ne hp, sizeofHeader_eq] at hrun
      rw [if_neg hp, ler_of_ne hp]
      simp only [bind, Except.bind] at hrun ⊢
      by_cases hlt : s.estado.tam p < tam.toNat + 16
      · rw [if_pos hlt] at hrun
        rw [if_pos ((pequeno_iff hsize htam).mpr hlt)]
        exact ih hl' hrun
      · rw [if_neg hlt] at hrun
        rw [if_neg fun h ↦ hlt ((pequeno_iff hsize htam).mp h)]
        have hint : (s.header p).tam.toInt = s.estado.tam p := (toInt_eq_of_nonneg hsize).1
        by_cases hgt : (s.estado.tam p : ℤ) > maiorTam.toInt
        · rw [if_pos hgt] at hrun
          rw [if_pos (by rw [BitVec.slt_eq_decide, hint]; exact decide_eq_true hgt)]
          obtain ⟨ea, ep⟩ := atribui_ponteiro (s := s) (p := p) (a := anterior) hne
          obtain ⟨s', x, hs', hx, hg⟩ := ih (s := (s.atribui alvo p).atribui ant anterior)
            ⟨hl'.chain, hl'.tam_nonneg⟩ (by rw [ea, ep, hint]; exact hrun)
          exact ⟨s', x, hs', hx, hg.of_atribui⟩
        · rw [if_neg hgt] at hrun
          rw [if_neg (by rw [BitVec.slt_eq_decide, hint, decide_eq_true_iff]; exact hgt)]
          exact ih hl' hrun

/-- The last assignments of the two functions: a choice is copied onto itself, and its absence is
stored as two null pointers. -/
theorem Guarda.of_final {s' : Memoria} {x : ℕ × ℕ} {achou : Bool} {y : ℕ × ℕ} (hne : ant ≠ alvo)
    (h : Guarda s s' ant alvo x) (hy : y = if achou then x else (0, 0)) :
    Guarda s (if achou then (s'.atribui ant (s'.ponteiro ant)).atribui alvo
        ((s'.atribui ant (s'.ponteiro ant)).ponteiro alvo)
      else (s'.atribui alvo 0).atribui ant 0) ant alvo y := by
  subst hy
  cases achou with
  | false =>
    obtain ⟨ea, ep⟩ := atribui_ponteiro (s := s') (p := 0) (a := 0) hne
    refine ⟨h.header_eq, ea, ep, fun v hant halvo ↦ ?_⟩
    exact (atribui_of_ne hant).trans ((atribui_of_ne halvo).trans (h.frame v hant halvo))
  | true =>
    refine ⟨h.header_eq, ?_, ?_, fun v hant halvo ↦ ?_⟩
    · exact (atribui_of_ne hne).trans (atribui_self.trans h.ant_eq)
    · exact atribui_self.trans ((atribui_of_ne hne.symm).trans h.alvo_eq)
    · exact (atribui_of_ne halvo).trans ((atribui_of_ne hant).trans (h.frame v hant halvo))

theorem bestFit_sim {l : List ℕ} {n : ℕ} {x : ℕ × ℕ} (hl : ListaLivre s (s.ponteiro alvo) l)
    (htam : 0 ≤ tam.toInt) (hne : ant ≠ alvo)
    (hrun : Gm.bestFit n s.estado (s.ponteiro ant) (s.ponteiro alvo) tam.toNat = .ok x) :
    ∃ s', bestFit n s ant alvo tam = .ok s' ∧ Guarda s s' ant alvo x := by
  rw [Gm.bestFit] at hrun
  cases hloop : Gm.bestFitLoop s.estado tam.toNat n (s.ponteiro ant) (s.ponteiro alvo) false
      (s.ponteiro ant) (s.ponteiro alvo) with
  | error f =>
    rw [hloop] at hrun
    exact absurd hrun (by simp [bind, Except.bind])
  | ok r =>
    obtain ⟨am, mm, found⟩ := r
    obtain ⟨s', hs', hg⟩ := bestFitLoop_sim hl htam hne (by simp) hloop
    rw [hloop] at hrun
    rw [bestFit, hs']
    have hx : x = if found then (am, mm) else (0, 0) := by
      cases found <;> exact (Except.ok.inj hrun).symm
    refine ⟨_, ?_, hg.of_final hne hx⟩
    cases found <;> rfl

theorem worstFit_sim {l : List ℕ} {n : ℕ} {x : ℕ × ℕ} (hl : ListaLivre s (s.ponteiro alvo) l)
    (htam : 0 ≤ tam.toInt) (hne : ant ≠ alvo)
    (hrun : Gm.worstFit n s.estado (s.ponteiro ant) (s.ponteiro alvo) tam.toNat = .ok x) :
    ∃ s', worstFit n s ant alvo tam = .ok s' ∧ Guarda s s' ant alvo x := by
  rw [Gm.worstFit] at hrun
  cases hloop : Gm.worstFitLoop s.estado tam.toNat n (s.ponteiro ant) (s.ponteiro alvo) (-1)
      (s.ponteiro ant) (s.ponteiro alvo) with
  | error f =>
    rw [hloop] at hrun
    exact absurd hrun (by simp [bind, Except.bind])
  | ok r =>
    obtain ⟨am, mm, mt⟩ := r
    have hstart : (-1 : BitVec 32).toInt = -1 := by decide
    rw [← hstart] at hloop
    obtain ⟨s', y, hs', hy, hg⟩ := worstFitLoop_sim hl htam hne hloop
    rw [← hstart, hloop] at hrun
    -- `maiorTam` is `-1` as an `int` exactly when it is `-1` as a number
    have hiff : mt ≠ -1 ↔ y ≠ -1 := by
      rw [← hy, ← hstart, ne_eq, BitVec.toInt_inj]
    have hx : x = if decide (mt ≠ -1) then (am, mm) else (0, 0) := by
      simp only [bind, Except.bind, hstart] at hrun
      split_ifs at hrun with h <;> simp only [pure, Except.pure, Except.ok.injEq] at hrun
      · rw [if_pos (decide_eq_true h), hrun]
      · rw [if_neg (by simpa using h), hrun]
    refine ⟨_, ?_, hg.of_final hne hx⟩
    rw [worstFit, hs']
    simp only [bind, Except.bind]
    by_cases h : mt ≠ -1
    · rw [if_pos (hiff.mp h), if_pos (decide_eq_true h)]
      rfl
    · rw [if_neg fun hy ↦ h (hiff.mpr hy), if_neg (by simpa using h)]
      rfl

/-- What a search returns when it found `o` among the blocks of `l`: the variables hold `o` and its
predecessor, nothing else has changed, and both are null exactly when no block fits. -/
def Resultado (s : Memoria) (ant alvo : ℕ) (tam : BitVec 32) (l : List ℕ) (o : Option ℕ)
    (r : Except Falha Memoria) : Prop :=
  ∃ s', r = .ok s' ∧ Guarda s s' ant alvo (saida l o) ∧
    (s'.ponteiro alvo = 0 ↔ ∀ b ∈ l, s.estado.tam b < tam.toNat + 16) ∧
    (s'.ponteiro ant = 0 ↔ ∀ b ∈ l, s.estado.tam b < tam.toNat + 16)

theorem predecessor_mem {l : List ℕ} {b : ℕ} (h : b ∈ l) : predecessor l b ∈ l := by
  rw [predecessor]
  cases hw : l.takeWhile (· ≠ b) with
  | nil => exact h
  | cons c w =>
    have hmem : (c :: w).getLastD b ∈ c :: w := by
      rw [List.getLastD_cons]
      exact List.getLastD_mem_cons ..
    rw [← hw] at hmem ⊢
    exact (List.takeWhile_prefix _).subset hmem

theorem resultado_of_guarda {s' : Memoria} {l : List ℕ} {o : Option ℕ} {r : Except Falha Memoria}
    (hl : ListaLivre s (s.ponteiro alvo) l) (hr : r = .ok s')
    (hg : Guarda s s' ant alvo (saida l o))
    (hnone : o = none ↔ candidatos s.estado tam.toNat l = [])
    (hmem : ∀ b ∈ o, b ∈ l) : Resultado s ant alvo tam l o r := by
  have hfit : o = none ↔ ∀ b ∈ l, s.estado.tam b < tam.toNat + 16 := by
    rw [hnone, candidatos, List.filter_eq_nil_iff]
    simp
  refine ⟨s', hr, hg, ?_, ?_⟩
  · rw [hg.alvo_eq, ← hfit]
    cases o with
    | none => simp [saida]
    | some b => simpa [saida] using hl.chain.ne_null b (hmem b rfl)
  · rw [hg.ant_eq, ← hfit]
    cases o with
    | none => simp [saida]
    | some b => simpa [saida] using hl.chain.ne_null _ (predecessor_mem (hmem b rfl))

end Simulacao

/-- Three blocks of 40, 60 and 40 bytes at 16, 32 and 48; the variables are at 1 and 2. -/
def tresBlocos : Memoria where
  header a :=
    if a = 16 then ⟨40, 32⟩ else if a = 32 then ⟨60, 48⟩ else if a = 48 then ⟨40, 0⟩ else ⟨0, 0⟩
  ponteiro _ := 16

end Maquina

end SistemasOperacionais.Gm
