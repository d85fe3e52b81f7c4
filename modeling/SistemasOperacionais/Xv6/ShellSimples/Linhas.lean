import SistemasOperacionais.Xv6.ShellSimples.Model

/-!
# Lines and commands of the simple shells

The input is a list of lines, and what the user expects is one command for every line with a word in
it, until a line says `exit`. The shell works on the pieces that `gets` gives it. A piece never goes
beyond the end of a line (`Corte`), so the calls of `exec` for a line can be read off the pieces of
that line alone.

Since the last character of every piece is lost and the words hold every character but the spaces,
a line is executed as it stands only if it is one piece and what is lost is its newline, or a space
(`comandos_eq_iff`).
-/

namespace SistemasOperacionais.Xv6.ShellSimples

open Foundations

variable {P : Programa} {s : List UInt8} {i j k n : ℕ}

/-! ## The lines and the pieces -/

/-- The calls of `exec` for a list of pieces, as long as `fork` succeeds. -/
def comandos (P : Programa) : ℕ → List (List UInt8) → List (ℕ × Argv)
  | _, [] => []
  | k, c :: cs =>
    match acao P c with
    | .volta => comandos P (k + c.count novaLinha) cs
    | .sai => []
    | .filho argv => (k, argv) :: comandos P (k + c.count novaLinha) cs

theorem roda_execs : (roda P (fun _ ↦ false) i n k s).execs = comandos P k (pedacos i s) := by
  induction i generalizing n k s with
  | zero => rfl
  | succ i ih =>
    simp only [roda, pedacos, comandos]
    cases ha : acao P (lerLinha s).1 with
    | volta => exact ih
    | sai => rfl
    | filho argv => exact congrArg ((k, argv) :: ·) ih

variable {a b cs : List (List UInt8)} {c l f t : List UInt8}

theorem mem_comandos_cons {x : ℕ × Argv} (h : x ∈ comandos P k (c :: cs)) :
    (x.1 = k ∧ acao P c = .filho x.2) ∨ x ∈ comandos P (k + c.count novaLinha) cs := by
  rw [comandos] at h
  cases ha : acao P c with
  | volta =>
    rw [ha] at h
    exact .inr h
  | sai =>
    rw [ha] at h
    exact absurd h List.not_mem_nil
  | filho argv =>
    rw [ha] at h
    rcases List.mem_cons.mp h with rfl | h
    · exact .inl ⟨rfl, rfl⟩
    · exact .inr h

theorem le_of_mem_comandos {x : ℕ × Argv} (h : x ∈ comandos P k cs) : k ≤ x.1 := by
  induction cs generalizing k with
  | nil => exact absurd h List.not_mem_nil
  | cons c cs ih =>
    rcases mem_comandos_cons h with ⟨hk, -⟩ | h
    · exact hk.ge
    · exact (Nat.le_add_right _ _).trans (ih h)

theorem exists_of_mem_comandos {x : ℕ × Argv} (h : x ∈ comandos P k cs) :
    ∃ c ∈ cs, acao P c = .filho x.2 := by
  induction cs generalizing k with
  | nil => exact absurd h List.not_mem_nil
  | cons c cs ih =>
    rcases mem_comandos_cons h with ⟨-, ha⟩ | h
    · exact ⟨c, List.mem_cons_self, ha⟩
    · obtain ⟨c', hc', ha⟩ := ih h
      exact ⟨c', List.mem_cons_of_mem _ hc', ha⟩

theorem comandos_append (h : ∀ c ∈ a, acao P c ≠ .sai) : comandos P k (a ++ b) =
    comandos P k a ++ comandos P (k + a.flatten.count novaLinha) b := by
  induction a generalizing k with
  | nil => rfl
  | cons c a ih =>
    have hrec := ih (k := k + c.count novaLinha) fun c' hc' ↦ h c' (List.mem_cons_of_mem _ hc')
    rw [List.cons_append, comandos, comandos, List.flatten_cons, List.count_append, ← Nat.add_assoc]
    cases ha : acao P c with
    | volta => exact hrec
    | sai => exact absurd ha (h c List.mem_cons_self)
    | filho argv => exact congrArg ((k, argv) :: ·) hrec

/-- Whether or not some pieces make the shell stop, their own calls do not depend on the others. -/
theorem comandos_append_cases (P : Programa) (k : ℕ) (a b : List (List UInt8)) :
    comandos P k (a ++ b) = comandos P k a ∨
      comandos P k (a ++ b) =
        comandos P k a ++ comandos P (k + a.flatten.count novaLinha) b := by
  induction a generalizing k with
  | nil => exact .inr rfl
  | cons c a ih =>
    rw [List.cons_append, comandos, comandos, List.flatten_cons, List.count_append, ← Nat.add_assoc]
    cases ha : acao P c with
    | volta => exact ih _
    | sai => exact .inl rfl
    | filho argv =>
      rcases ih (k + c.count novaLinha) with heq | heq
      · exact .inl (congrArg ((k, argv) :: ·) heq)
      · exact .inr (congrArg ((k, argv) :: ·) heq)

theorem comandos_nil : comandos P k (pedacos i []) = [] := by
  rw [← roda_execs (n := 0), roda_nil]

/-! ### What `gets` reads of a line -/

theorem length_getsLoop_le (n : ℕ) (s : List UInt8) : (getsLoop n s).1.length ≤ n := by
  induction n generalizing s with
  | zero => exact le_rfl
  | succ n ih =>
    cases s with
    | nil => exact Nat.zero_le _
    | cons c s =>
      rw [getsLoop]
      split
      · exact Nat.succ_le_succ (Nat.zero_le n)
      · exact Nat.succ_le_succ (ih s)

theorem getsLoop_ne_nil (n : ℕ) (hs : s ≠ []) : (getsLoop (n + 1) s).1 ≠ [] := by
  cases s with
  | nil => exact absurd rfl hs
  | cons c s =>
    rw [getsLoop]
    split <;> exact List.cons_ne_nil _ _

theorem retorno_notMem_dropLast (n : ℕ) (s : List UInt8) :
    retorno ∉ (getsLoop n s).1.dropLast := by
  induction n generalizing s with
  | zero => exact List.not_mem_nil
  | succ n ih =>
    cases s with
    | nil => exact List.not_mem_nil
    | cons c s =>
      rw [getsLoop]
      split
      · exact List.not_mem_nil
      · rename_i hc
        rw [not_or] at hc
        cases hbuf : (getsLoop n s).1 with
        | nil => exact List.not_mem_nil
        | cons x buf =>
          rw [List.dropLast_cons_of_ne_nil (List.cons_ne_nil _ _), ← hbuf, List.mem_cons, not_or]
          exact ⟨fun h ↦ hc.2 h.symm, ih s⟩

/-- The end of a line: a newline, or the end of the input. -/
def fim (terminada : Bool) : List UInt8 := if terminada then [novaLinha] else []

/-- The line `l` with its end and the rest `t` of the input. -/
def entrada (terminada : Bool) (l t : List UInt8) : List UInt8 := l ++ fim terminada ++ t

/-- There is input behind a line only if a newline ends it. -/
def Segue (terminada : Bool) (t : List UInt8) : Prop := terminada = false → t = []

variable {term : Bool}

/-- `gets` reads a line with its end, or a part of the line. -/
theorem getsLoop_entrada (n : ℕ) (hl : novaLinha ∉ l) (ht : Segue term t) :
    getsLoop n (entrada term l t) = (l ++ fim term, t) ∨
      ∃ c l', l = c ++ l' ∧ l' ++ fim term ≠ [] ∧
        getsLoop n (entrada term l t) = (c, entrada term l' t) := by
  induction l generalizing n with
  | nil =>
    cases term with
    | false =>
      rw [ht rfl]
      left
      cases n <;> rfl
    | true =>
      cases n with
      | zero => exact .inr ⟨[], [], rfl, List.cons_ne_nil _ _, rfl⟩
      | succ n => exact .inl rfl
  | cons x l ih =>
    rw [List.mem_cons, not_or] at hl
    cases n with
    | zero => exact .inr ⟨[], x :: l, rfl, List.cons_ne_nil _ _, rfl⟩
    | succ n =>
      have hcons : entrada term (x :: l) t = x :: entrada term l t := rfl
      rw [hcons, getsLoop]
      split
      · -- a carriage return; it may be all there is
        by_cases hresto : l ++ fim term = []
        · obtain ⟨rfl, hfim⟩ := List.append_eq_nil_iff.mp hresto
          exact .inl (by rw [entrada, hfim]; rfl)
        · exact .inr ⟨[x], l, rfl, hresto, rfl⟩
      · rcases ih n hl.2 with heq | ⟨c, l', hlc, hne, heq⟩
        · exact .inl (by rw [heq]; rfl)
        · exact .inr ⟨x :: c, l', by rw [hlc]; rfl, hne, by rw [heq]⟩

theorem getsLoop_of_length_le (hl : novaLinha ∉ l) (hr : retorno ∉ l) (ht : Segue term t)
    (hn : (l ++ fim term).length ≤ n) :
    getsLoop n (entrada term l t) = (l ++ fim term, t) := by
  induction l generalizing n with
  | nil =>
    cases term with
    | false =>
      rw [ht rfl]
      cases n <;> rfl
    | true =>
      cases n with
      | zero => exact absurd hn (by decide)
      | succ n => rfl
  | cons x l ih =>
    rw [List.mem_cons, not_or] at hl hr
    cases n with
    | zero => exact absurd hn (by simp)
    | succ n =>
      have hcons : entrada term (x :: l) t = x :: entrada term l t := rfl
      have hx : ¬ (x = novaLinha ∨ x = retorno) := by
        rintro (rfl | rfl)
        · exact hl.1 rfl
        · exact hr.1 rfl
      rw [hcons, getsLoop, if_neg hx, ih hl.2 hr.2 (Nat.le_of_succ_le_succ hn)]
      rfl

/-- The pieces of a line: all but the last are parts of the line only. -/
inductive Corte (term : Bool) (t : List UInt8) : List UInt8 → List (List UInt8) → Prop
  | toda {l : List UInt8} : lerLinha (entrada term l t) = (l ++ fim term, t) →
      Corte term t l [l ++ fim term]
  | parte {c l : List UInt8} {cs : List (List UInt8)} :
      lerLinha (entrada term (c ++ l) t) = (c, entrada term l t) → c ≠ [] →
      l ++ fim term ≠ [] → Corte term t l cs → Corte term t (c ++ l) (c :: cs)

theorem entrada_ne_nil (h : l ++ fim term ≠ []) : entrada term l t ≠ [] := by
  intro hnil
  exact h (List.append_eq_nil_iff.mp hnil).1

theorem exists_corte (hl : novaLinha ∉ l) (ht : Segue term t) : ∃ cs, Corte term t l cs := by
  induction hlen : l.length using Nat.strong_induction_on generalizing l with
  | _ m ih =>
    rcases getsLoop_entrada 80 hl ht with heq | ⟨c, l', rfl, hne, heq⟩
    · exact ⟨_, .toda heq⟩
    · have hc : c ≠ [] := by
        have hnil : c ++ l' ++ fim term ≠ [] := by
          rw [List.append_assoc]
          exact fun h ↦ hne (List.append_eq_nil_iff.mp h).2
        have hread := getsLoop_ne_nil 79 (entrada_ne_nil (t := t) hnil)
        rwa [heq] at hread
      have hpos : 0 < c.length := List.length_pos_iff.mpr hc
      rw [List.mem_append, not_or] at hl
      obtain ⟨cs, hcs⟩ := ih l'.length (by rw [← hlen, List.length_append]; omega) hl.2 rfl
      exact ⟨c :: cs, .parte heq hc hne hcs⟩

theorem Corte.pedacos_eq (h : Corte term t l cs) (i : ℕ) :
    pedacos (cs.length + i) (entrada term l t) = cs ++ pedacos i t := by
  induction h with
  | toda heq =>
    rw [List.length_singleton, Nat.add_comm, pedacos, heq]
    rfl
  | parte heq hc hne hcs ih =>
    rw [List.length_cons, Nat.add_right_comm, pedacos, heq, ih]
    rfl

theorem Corte.exists_cons (h : Corte term t l cs) : ∃ c cs', cs = c :: cs' := by
  cases h with
  | toda heq => exact ⟨_, _, rfl⟩
  | parte heq hc hne hcs => exact ⟨_, _, rfl⟩

theorem Corte.eq_of_lerLinha (h : Corte term t l cs)
    (hread : lerLinha (entrada term l t) = (l ++ fim term, t)) : cs = [l ++ fim term] := by
  cases h with
  | toda _ => rfl
  | parte heq hc hne hcs =>
    rw [heq, List.append_assoc] at hread
    exact absurd (List.self_eq_append_right.mp (Prod.mk.inj hread).1) hne

theorem Corte.flatten (h : Corte term t l cs) : cs.flatten = l ++ fim term := by
  induction h with
  | toda heq => simp
  | parte heq hc hne hcs ih => rw [List.flatten_cons, ih, List.append_assoc]

theorem Corte.ne_nil (h : Corte term t l cs) (hne : l ++ fim term ≠ []) :
    ∀ c ∈ cs, c ≠ [] := by
  induction h with
  | toda heq => simpa using hne
  | parte heq hc hne' hcs ih => exact List.forall_mem_cons.mpr ⟨hc, ih hne'⟩

theorem dropLast_fim_subset (l : List UInt8) (term : Bool) : (l ++ fim term).dropLast ⊆ l := by
  cases term with
  | false =>
    rw [fim, if_neg Bool.false_ne_true, List.append_nil]
    exact List.dropLast_subset l
  | true =>
    rw [fim, if_pos rfl, List.dropLast_concat]
    exact List.Subset.refl l

theorem Corte.dropLast_subset (h : Corte term t l cs) : ∀ c ∈ cs, c.dropLast ⊆ l := by
  induction h with
  | toda heq => simpa using dropLast_fim_subset _ _
  | @parte c l cs heq hc hne hcs ih =>
    refine List.forall_mem_cons.mpr ⟨?_, fun c' hc' ↦ List.Subset.trans (ih c' hc') ?_⟩
    · exact List.Subset.trans (List.dropLast_subset c) (List.subset_append_left c l)
    · exact List.subset_append_right c l

theorem Corte.fst_eq (h : Corte term t l cs) (hl : novaLinha ∉ l) {x : ℕ × Argv}
    (hx : x ∈ comandos P k cs) : x.1 = k := by
  induction h with
  | toda heq =>
    rcases mem_comandos_cons hx with ⟨hk, -⟩ | hx
    · exact hk
    · exact absurd hx List.not_mem_nil
  | parte heq hc hne hcs ih =>
    rw [List.mem_append, not_or] at hl
    rcases mem_comandos_cons hx with ⟨hk, -⟩ | hx
    · exact hk
    · rw [List.count_eq_zero.mpr hl.1, Nat.add_zero] at hx
      exact ih hl.2 hx

/-! ## When a line is executed as it stands -/

/-- The vector that the line `l` stands for. -/
def alvo (l : List UInt8) : Argv := (words espaco l).map some ++ [none]

/-- What a line must be like: no null byte and no carriage return, at most nineteen words, and short
enough to be one piece. The last character of a line that no newline ends is lost, so it has to be a
space. -/
structure Boa (term : Bool) (l : List UInt8) : Prop where
  semNulo : 0 ∉ l
  semRetorno : retorno ∉ l
  poucas : (words espaco l).length ≤ 19
  cabe : if term then l.length ≤ 79 else l.length ≤ 80 ∧ l.getLast? = some espaco

theorem cadeia_of_notMem (h : 0 ∉ c) : cadeia c = c := by
  rw [cadeia, List.takeWhile_eq_self_iff]
  intro x hx
  simpa using ne_of_mem_of_not_mem hx h

theorem aparada_of_notMem (h : 0 ∉ c) : aparada c = c.dropLast := by
  rw [aparada, cadeia_of_notMem h]

theorem zero_notMem_aparada (c : List UInt8) : 0 ∉ aparada c := by
  intro hmem
  simpa using List.mem_takeWhile_imp (List.dropLast_subset _ hmem)

theorem palavras_eq_of_acao {us : List Palavra} (hus : us ≠ [])
    (h : acao P c = .filho (us.map some ++ [none])) : palavras c = us ∧ us.length ≤ 19 := by
  rw [acao_eq] at h
  split_ifs at h with hv hnil hsair
  · cases us with
    | nil => exact absurd rfl hus
    | cons w us => cases h
  · exact vetor_eq_iff.mp (Acao.filho.inj h)

theorem letras_eq (h : palavras c = words espaco l) :
    (aparada c).filter (· ≠ espaco) = l.filter (· ≠ espaco) := by
  rw [← flatten_words, ← flatten_words, ← h]
  rfl

theorem words_eq_nil_of_subset {l' : List UInt8} (hl : words espaco l = []) (h : l' ⊆ l) :
    words espaco l' = [] :=
  words_eq_nil_iff.mpr fun x hx ↦ words_eq_nil_iff.mp hl x (h hx)

theorem zero_notMem_fim (term : Bool) : (0 : UInt8) ∉ fim term := by
  cases term <;> decide

theorem Corte.zero_notMem (h : Corte term t l cs) (hl : 0 ∉ l) : ∀ c ∈ cs, 0 ∉ c := by
  intro c hc hmem
  have hflat : (0 : UInt8) ∈ l ++ fim term := by
    rw [← h.flatten]
    exact List.mem_flatten.mpr ⟨c, hc, hmem⟩
  rcases List.mem_append.mp hflat with hmem | hmem
  · exact hl hmem
  · exact zero_notMem_fim term hmem

theorem Corte.acao_of_espacos (h : Corte term t l cs) (hne : l ++ fim term ≠ [])
    (hl : words espaco l = []) : ∀ c ∈ cs, acao P c = .filho [none, none] := by
  intro c hc
  have hzero : (0 : UInt8) ∉ l := fun hmem ↦ absurd (words_eq_nil_iff.mp hl 0 hmem) (by decide)
  have hz : 0 ∉ c := h.zero_notMem hzero c hc
  have hnil : palavras c = [] := by
    rw [palavras, aparada_of_notMem hz]
    exact words_eq_nil_of_subset hl (h.dropLast_subset c hc)
  rw [acao_eq, cadeia_of_notMem hz, if_neg (h.ne_nil hne c hc), if_pos hnil]

/-- If the line is executed as it stands, then some piece has its words, and so all its letters. -/
theorem zero_notMem_of_mem {x : ℕ × Argv} (hw : words espaco l ≠ []) (hx : x ∈ comandos P k cs)
    (halvo : x.2 = alvo l) : 0 ∉ l ∧ (words espaco l).length ≤ 19 := by
  obtain ⟨c, -, ha⟩ := exists_of_mem_comandos hx
  rw [halvo, alvo] at ha
  obtain ⟨hpal, hle⟩ := palavras_eq_of_acao hw ha
  refine ⟨fun hmem ↦ zero_notMem_aparada c ?_, hle⟩
  have hletra : (0 : UInt8) ∈ (aparada c).filter (· ≠ espaco) := by
    rw [letras_eq hpal]
    exact List.mem_filter.mpr ⟨hmem, by decide⟩
  exact (List.mem_filter.mp hletra).1

theorem comandos_of_filho {argv : Argv} (h : acao P c = .filho argv) :
    comandos P k (c :: cs) = (k, argv) :: comandos P (k + c.count novaLinha) cs := by
  rw [comandos, h]

/-- A piece with something in it makes the shell stop or execute something. -/
theorem exists_filho (hz : 0 ∉ c) (hc : c ≠ []) (h : comandos P k (c :: cs) ≠ []) :
    ∃ argv, acao P c = .filho argv := by
  rcases acao_cases P c with ⟨hv, -⟩ | ⟨-, -, ha⟩ | ⟨-, -, argv, ha⟩
  · rw [cadeia_of_notMem hz] at hv
    exact absurd hv hc
  · rw [comandos, ha] at h
    exact absurd rfl h
  · exact ⟨argv, ha⟩

theorem filter_eq_nil_of_letras {c l : List UInt8}
    (h : c.dropLast.filter (· ≠ espaco) = (c ++ l).filter (· ≠ espaco)) : words espaco l = [] := by
  have hlen := congrArg List.length h
  have hle : (c.dropLast.filter (· ≠ espaco)).length ≤ (c.filter (· ≠ espaco)).length :=
    ((List.dropLast_sublist c).filter _).length_le
  rw [List.filter_append, List.length_append] at hlen
  have hnil : l.filter (· ≠ espaco) = [] := List.length_eq_zero_iff.mp (by omega)
  rw [words_eq_nil_iff]
  simpa using List.filter_eq_nil_iff.mp hnil

theorem Corte.eq_singleton (h : Corte term t l cs) (hw : words espaco l ≠ []) (hz : 0 ∉ l)
    (heq : (comandos P k cs).map Prod.snd = [alvo l]) :
    lerLinha (entrada term l t) = (l ++ fim term, t) ∧ cs = [l ++ fim term] := by
  cases h with
  | toda hread => exact ⟨hread, rfl⟩
  | @parte c l cs hread hc hne hcs =>
    exfalso
    have hzc : 0 ∉ c := fun hmem ↦ hz (List.mem_append_left l hmem)
    have hsome : comandos P k (c :: cs) ≠ [] := by
      intro hnil
      rw [hnil] at heq
      cases heq
    obtain ⟨argv, ha⟩ := exists_filho hzc hc hsome
    rw [comandos_of_filho ha, List.map_cons] at heq
    obtain ⟨rfl, hrest⟩ := List.cons.inj heq
    -- the first piece has all the letters, the others are blank
    have hpal := (palavras_eq_of_acao hw ha).1
    have hletras := letras_eq hpal
    rw [aparada_of_notMem hzc] at hletras
    have hblank : words espaco l = [] := filter_eq_nil_of_letras hletras
    have hnone := hcs.acao_of_espacos (P := P) hne hblank
    obtain ⟨c', cs', rfl⟩ := hcs.exists_cons
    rw [comandos_of_filho (hnone c' List.mem_cons_self)] at hrest
    cases hrest

theorem boa_of_lerLinha (hread : lerLinha (entrada term l t) = (l ++ fim term, t))
    (hw : words espaco l ≠ []) (hz : 0 ∉ l) (hle : (words espaco l).length ≤ 19)
    (hpal : palavras (l ++ fim term) = words espaco l) : Boa term l := by
  have hlen : (l ++ fim term).length ≤ 80 := by
    have h := length_getsLoop_le 80 (entrada term l t)
    rwa [show getsLoop 80 (entrada term l t) = _ from hread] at h
  have hret : retorno ∉ (l ++ fim term).dropLast := by
    have h := retorno_notMem_dropLast 80 (entrada term l t)
    rwa [show getsLoop 80 (entrada term l t) = _ from hread] at h
  cases term with
  | true =>
    rw [fim, if_pos rfl] at hlen hret
    rw [List.dropLast_concat] at hret
    rw [List.length_append, List.length_singleton] at hlen
    exact ⟨hz, hret, hle, Nat.le_of_succ_le_succ hlen⟩
  | false =>
    rw [fim, if_neg Bool.false_ne_true, List.append_nil] at hlen hret hpal
    have hletras := letras_eq hpal
    rw [aparada_of_notMem hz] at hletras
    rcases List.eq_nil_or_concat' l with rfl | ⟨l₀, x, rfl⟩
    · exact absurd rfl hw
    · rw [List.dropLast_concat] at hret hletras
      rw [List.filter_append, List.self_eq_append_right] at hletras
      have hx : x = espaco := by simpa using hletras
      subst hx
      refine ⟨hz, ?_, hle, hlen, by simp⟩
      rw [List.mem_append, not_or]
      exact ⟨hret, by decide⟩

theorem acao_of_boa (h : Boa term l) (hw : words espaco l ≠ [])
    (hsair : (words espaco l).head? ≠ some sair) : acao P (l ++ fim term) = .filho (alvo l) := by
  have hz : 0 ∉ l ++ fim term := by
    rw [List.mem_append, not_or]
    exact ⟨h.semNulo, zero_notMem_fim term⟩
  have hne : l ++ fim term ≠ [] := by
    intro hnil
    rw [(List.append_eq_nil_iff.mp hnil).1] at hw
    exact hw rfl
  have hpal : palavras (l ++ fim term) = words espaco l := by
    rw [palavras, aparada_of_notMem hz]
    cases term with
    | true => rw [fim, if_pos rfl, List.dropLast_concat]
    | false =>
      rw [fim, if_neg Bool.false_ne_true, List.append_nil]
      have hlast : l.dropLast ++ [espaco] = l := by
        exact List.dropLast_append_getLast? espaco h.cabe.2
      rw [← words_append_singleton, hlast]
  rw [acao_eq, cadeia_of_notMem hz, if_neg hne, hpal, if_neg hw, if_neg hsair,
    vetor_of_lt (Nat.lt_succ_of_le h.poucas), alvo]

theorem length_of_boa (h : Boa term l) : (l ++ fim term).length ≤ 80 := by
  have hcabe := h.cabe
  cases term with
  | true =>
    rw [fim, if_pos rfl, List.length_append, List.length_singleton]
    exact Nat.succ_le_succ hcabe
  | false =>
    rw [fim, if_neg Bool.false_ne_true, List.append_nil]
    exact hcabe.1

/-- **A line is executed once and as it stands if and only if it is a good one.** -/
theorem Corte.comandos_eq_iff (h : Corte term t l cs) (hl : novaLinha ∉ l) (ht : Segue term t)
    (hw : words espaco l ≠ []) (hsair : (words espaco l).head? ≠ some sair) :
    (comandos P k cs).map Prod.snd = [alvo l] ↔ Boa term l := by
  constructor
  · intro heq
    obtain ⟨x, hx, hxalvo⟩ := List.mem_map.mp (heq.symm ▸ List.mem_singleton_self (alvo l))
    obtain ⟨hz, hle⟩ := zero_notMem_of_mem hw hx hxalvo
    obtain ⟨hread, rfl⟩ := h.eq_singleton hw hz heq
    obtain ⟨c, hc, ha⟩ := exists_of_mem_comandos hx
    rw [List.mem_singleton.mp hc, hxalvo, alvo] at ha
    exact boa_of_lerLinha hread hw hz hle (palavras_eq_of_acao hw ha).1
  · intro hboa
    have hread := getsLoop_of_length_le hl hboa.semRetorno ht (length_of_boa hboa)
    rw [h.eq_of_lerLinha hread, comandos_of_filho (acao_of_boa hboa hw hsair)]
    rfl

/-! ## The whole input -/

/-- The lines of the input; no newline ends the last one, which may be empty. -/
def linhas (s : List UInt8) : List (List UInt8) := s.splitOn novaLinha

/-- Line `j` is a command: it has a word, and no line up to it says `exit`. -/
structure Comando (ls : List (List UInt8)) (j : ℕ) (l : List UInt8) : Prop where
  linha : ls[j]? = some l
  palavra : words espaco l ≠ []
  antes : ∀ l' ∈ ls.take (j + 1), (words espaco l').head? ≠ some sair

/-- From some iteration on, line `j` of the input has made exactly one child call `exec`, with the
words of the line. -/
def Executada (P : Programa) (s : List UInt8) (j : ℕ) (l : List UInt8) : Prop :=
  ∃ i₀, ∀ i ≥ i₀,
    ((roda P (fun _ ↦ false) i 0 0 s).execs.filter (·.1 = j)).map Prod.snd = [alvo l]

/-- The same about the pieces, when the lines are counted from `k`. -/
def ExecutadaDe (P : Programa) (k : ℕ) (s : List UInt8) (j : ℕ) (l : List UInt8) : Prop :=
  ∃ i₀, ∀ i ≥ i₀, ((comandos P k (pedacos i s)).filter (·.1 = k + j)).map Prod.snd = [alvo l]

theorem executada_iff : Executada P s j l ↔ ExecutadaDe P 0 s j l := by
  simp only [Executada, ExecutadaDe, roda_execs, Nat.zero_add]

theorem comando_zero {ls : List (List UInt8)} {l' : List UInt8} : Comando (l :: ls) 0 l' ↔
    l' = l ∧ words espaco l ≠ [] ∧ (words espaco l).head? ≠ some sair := by
  constructor
  · rintro ⟨hl, hw, ha⟩
    obtain rfl : l = l' := Option.some.inj hl
    exact ⟨rfl, hw, ha l List.mem_cons_self⟩
  · rintro ⟨rfl, hw, ha⟩
    exact ⟨rfl, hw, by simpa using ha⟩

theorem comando_succ {ls : List (List UInt8)} {l' : List UInt8} : Comando (l :: ls) (j + 1) l' ↔
    (words espaco l).head? ≠ some sair ∧ Comando ls j l' := by
  constructor
  · rintro ⟨hl, hw, ha⟩
    rw [List.take_succ_cons, List.forall_mem_cons] at ha
    exact ⟨ha.1, hl, hw, ha.2⟩
  · rintro ⟨hs, hl, hw, ha⟩
    refine ⟨hl, hw, ?_⟩
    rw [List.take_succ_cons, List.forall_mem_cons]
    exact ⟨hs, ha⟩

theorem linhas_of_notMem (hl : novaLinha ∉ l) : linhas l = [l] :=
  List.splitOn_eq_singleton hl

theorem linhas_append (hl : novaLinha ∉ l) : linhas (l ++ novaLinha :: t) = l :: linhas t := by
  rw [linhas, List.splitOn_append_cons_self, List.splitOn_eq_singleton hl]
  rfl

theorem linhas_induct {motive : List UInt8 → Prop} (ultima : ∀ l, novaLinha ∉ l → motive l)
    (linha : ∀ l t, novaLinha ∉ l → motive t → motive (l ++ novaLinha :: t)) (s : List UInt8) :
    motive s := by
  induction hlen : s.length using Nat.strong_induction_on generalizing s with
  | _ m ih =>
    by_cases hs : novaLinha ∈ s
    · obtain ⟨l, t, rfl, hl⟩ := List.eq_append_cons_of_mem hs
      refine linha l t hl (ih t.length ?_ t rfl)
      rw [← hlen, List.length_append, List.length_cons]
      omega
    · exact ultima s hs

theorem eventually_add_iff {p : ℕ → Prop} (m : ℕ) :
    (∃ i₀, ∀ i ≥ i₀, p i) ↔ ∃ i₀, ∀ i ≥ i₀, p (m + i) := by
  constructor
  · rintro ⟨i₀, h⟩
    exact ⟨i₀, fun i hi ↦ h (m + i) (by omega)⟩
  · rintro ⟨i₀, h⟩
    refine ⟨m + i₀, fun i hi ↦ ?_⟩
    have hm := h (i - m) (by omega)
    rwa [Nat.add_sub_cancel' (by omega)] at hm

theorem Corte.count_novaLinha (h : Corte term t l cs) (hl : novaLinha ∉ l) :
    cs.flatten.count novaLinha = if term then 1 else 0 := by
  rw [h.flatten, List.count_append, List.count_eq_zero.mpr hl, Nat.zero_add]
  cases term <;> rfl

theorem Corte.filter_comandos (h : Corte term t l cs) (hl : novaLinha ∉ l) (ht : Segue term t)
    (i : ℕ) : (comandos P k (cs ++ pedacos i t)).filter (·.1 = k) = comandos P k cs := by
  have hself : (comandos P k cs).filter (·.1 = k) = comandos P k cs := by
    rw [List.filter_eq_self]
    intro x hx
    simpa using h.fst_eq hl hx
  rcases comandos_append_cases P k cs (pedacos i t) with heq | heq
  · rw [heq, hself]
  · have hlater : (comandos P (k + cs.flatten.count novaLinha) (pedacos i t)).filter (·.1 = k) =
        [] := by
      cases term with
      | false =>
        rw [ht rfl, comandos_nil]
        rfl
      | true =>
        rw [List.filter_eq_nil_iff]
        intro x hx
        have hle := le_of_mem_comandos hx
        rw [h.count_novaLinha hl, if_pos rfl] at hle
        simpa using (show x.1 ≠ k by omega)
    rw [heq, List.filter_append, hself, hlater, List.append_nil]

theorem Corte.executadaDe_zero (h : Corte term t l cs) (hl : novaLinha ∉ l) (ht : Segue term t) :
    ExecutadaDe P k (entrada term l t) 0 l ↔ (comandos P k cs).map Prod.snd = [alvo l] := by
  rw [ExecutadaDe, eventually_add_iff cs.length]
  simp only [h.pedacos_eq, Nat.add_zero, h.filter_comandos hl ht]
  exact ⟨fun ⟨i₀, hi⟩ ↦ hi i₀ le_rfl, fun heq ↦ ⟨0, fun _ _ ↦ heq⟩⟩

theorem Corte.executadaDe_succ {l' : List UInt8} (h : Corte true t l cs) (hl : novaLinha ∉ l)
    (hsai : ∀ c ∈ cs, acao P c ≠ .sai) :
    ExecutadaDe P k (entrada true l t) (j + 1) l' ↔ ExecutadaDe P (k + 1) t j l' := by
  have hnil : (comandos P k cs).filter (·.1 = k + 1 + j) = [] := by
    rw [List.filter_eq_nil_iff]
    intro x hx
    have hk := h.fst_eq hl hx
    simpa using (show x.1 ≠ k + 1 + j by omega)
  rw [ExecutadaDe, ExecutadaDe, eventually_add_iff cs.length, ← Nat.add_assoc, Nat.add_right_comm]
  simp only [h.pedacos_eq, comandos_append hsai, h.count_novaLinha hl, List.filter_append, hnil,
    List.nil_append, if_pos]

theorem forall_comando_cons {ls : List (List UInt8)} {q : ℕ → List UInt8 → Prop} :
    (∀ j l', Comando (l :: ls) j l' → q j l') ↔
      ((words espaco l).head? ≠ some sair →
        (words espaco l ≠ [] → q 0 l) ∧ ∀ j l', Comando ls j l' → q (j + 1) l') := by
  constructor
  · intro h hs
    exact ⟨fun hw ↦ h 0 l (comando_zero.mpr ⟨rfl, hw, hs⟩),
      fun j l' hc ↦ h (j + 1) l' (comando_succ.mpr ⟨hs, hc⟩)⟩
  · rintro h (_ | j) l' hc
    · obtain ⟨rfl, hw, hs⟩ := comando_zero.mp hc
      exact (h hs).1 hw
    · obtain ⟨hs, hc⟩ := comando_succ.mp hc
      exact (h hs).2 j l' hc

theorem not_comando_nil : ¬ Comando [] j l := by
  intro h
  simpa using h.linha

theorem Corte.executadaDe_zero_iff (h : Corte term t l cs) (hl : novaLinha ∉ l) (ht : Segue term t)
    (hs : (words espaco l).head? ≠ some sair) :
    (words espaco l ≠ [] → ExecutadaDe P k (entrada term l t) 0 l) ↔
      (words espaco l ≠ [] → Boa term l) :=
  imp_congr_right fun hw ↦ (h.executadaDe_zero hl ht).trans (h.comandos_eq_iff hl ht hw hs)

/-- The pieces of a line that is blank, or is executed as it stands, do not make the shell stop. -/
theorem Corte.acao_ne_sai (h : Corte true t l cs) (hl : novaLinha ∉ l)
    (hs : (words espaco l).head? ≠ some sair) (hboa : words espaco l ≠ [] → Boa true l) :
    ∀ c ∈ cs, acao P c ≠ .sai := by
  intro c hc ha
  by_cases hw : words espaco l = []
  · rw [h.acao_of_espacos (by simp [fim]) hw c hc] at ha
    cases ha
  · have hread := getsLoop_of_length_le (t := t) hl (hboa hw).semRetorno Bool.noConfusion
      (length_of_boa (hboa hw))
    rw [h.eq_of_lerLinha hread] at hc
    rw [List.mem_singleton.mp hc, acao_of_boa (hboa hw) hw hs] at ha
    cases ha

theorem executadaDe_iff (P : Programa) (s : List UInt8) (k : ℕ) :
    (∀ j l, Comando (linhas s) j l → ExecutadaDe P k s j l) ↔
      ∀ j l, Comando (linhas s) j l → Boa (j + 1 < (linhas s).length) l := by
  induction s using linhas_induct generalizing k with
  | ultima l hl =>
    have ht : Segue false [] := fun _ ↦ rfl
    obtain ⟨cs, hcs⟩ := exists_corte hl ht
    have hent : entrada false l [] = l := by simp [entrada, fim]
    have hzero := fun hs ↦ hcs.executadaDe_zero_iff (P := P) (k := k) hl ht hs
    rw [hent] at hzero
    rw [linhas_of_notMem hl, forall_comando_cons, forall_comando_cons]
    refine imp_congr_right fun hs ↦ and_congr (hzero hs) ?_
    simp [not_comando_nil]
  | linha l t hl ih =>
    have ht : Segue true t := Bool.noConfusion
    obtain ⟨cs, hcs⟩ := exists_corte hl ht
    have hent : entrada true l t = l ++ novaLinha :: t := by simp [entrada, fim]
    have hpos : 0 < (linhas t).length := List.length_pos_iff.mpr (List.splitOn_ne_nil _ _)
    have hzero := fun hs ↦ hcs.executadaDe_zero_iff (P := P) (k := k) hl ht hs
    rw [linhas_append hl, forall_comando_cons, forall_comando_cons, ← hent]
    refine imp_congr_right fun hs ↦ ?_
    rw [hzero hs, List.length_cons, decide_eq_true (Nat.succ_lt_succ hpos)]
    refine and_congr_right fun hboa ↦ ?_
    simp only [hcs.executadaDe_succ hl (hcs.acao_ne_sai hl hs hboa), Nat.add_lt_add_iff_right]
    exact ih (k + 1)

/-- **Every command is executed once and as it stands if and only if every command is a good
line.** -/
theorem executada_comandos_iff (P : Programa) (s : List UInt8) :
    (∀ j l, Comando (linhas s) j l → Executada P s j l) ↔
      ∀ j l, Comando (linhas s) j l → Boa (j + 1 < (linhas s).length) l := by
  simp only [executada_iff]
  exact executadaDe_iff P s 0

/-- Of the input `ls`, with no newline, the command `l` is executed. -/
theorem not_executada_semNovaLinha :
    Comando (linhas [0x6C, 0x73]) 0 [0x6C, 0x73] ∧
      ¬ Executada prologo [0x6C, 0x73] 0 [0x6C, 0x73] := by
  refine ⟨⟨by decide, by decide, by decide⟩, ?_⟩
  rintro ⟨i₀, h⟩
  have hacao : acao prologo [0x6C, 0x73] = .filho [some [0x6C], none] := by decide
  have hexecs : (roda prologo (fun _ ↦ false) (i₀ + 1) 0 0 [0x6C, 0x73]).execs =
      [(0, [some [0x6C], none])] := by
    rw [roda_execs, pedacos, show lerLinha [0x6C, 0x73] = ([0x6C, 0x73], []) from rfl,
      comandos_of_filho hacao, comandos_nil]
  have heq := h (i₀ + 1) (Nat.le_succ i₀)
  rw [hexecs] at heq
  exact absurd heq (by decide)

end SistemasOperacionais.Xv6.ShellSimples
