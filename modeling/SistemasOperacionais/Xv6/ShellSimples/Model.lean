import SistemasOperacionais.Foundations.Words

/-!
# The simple shells: `shellsimples.c` and `shellcustom.c`

Both programs, the first as it is compiled with `__XV6`, have the same loop: read a line with
`gets`, remove its last character, cut it into words with `strtok`, and let a child execute it.
`gets` is the one of `ulib.c`: it gives at most 80 bytes, stops behind a newline or a carriage
return, and gives the empty string at the end of the input.

Of a run is recorded with which vectors the children call `exec`, and for which line of the input. A
vector is the list of the places of `argv` that have been assigned in the iteration; `none` is a
null pointer. `strtok` gives the words one after the other and then null pointers: see `strtoks`.

On a line without words the shell hands the null pointer to `strcmp`. A user program of xv6 starts
at address 0, so `strcmp` finds the code of the program there.
-/

namespace SistemasOperacionais.Xv6.ShellSimples

open Foundations

abbrev Palavra := List UInt8

abbrev Argv := List (Option Palavra)

def espaco : UInt8 := 0x20

def novaLinha : UInt8 := 0x0A

def retorno : UInt8 := 0x0D

def sair : Palavra := [0x65, 0x78, 0x69, 0x74]

/-- The program in memory: `zero` is the string at address 0. -/
structure Programa where
  zero : List UInt8
  zero_ne : zero ≠ sair

theorem prologo_ne : [0x55, 0x89, 0xE5] ≠ sair := by decide

/-- A program that starts with the first instructions of a function. -/
def prologo : Programa := ⟨[0x55, 0x89, 0xE5], prologo_ne⟩

/-! ## The program -/

/-- The loop of `gets`, with room for `n` more bytes: what it puts into the buffer, and the rest of
the input. -/
def getsLoop : ℕ → List UInt8 → List UInt8 × List UInt8
  | 0, s => ([], s)
  | _ + 1, [] => ([], [])
  | n + 1, c :: s =>
    if c = novaLinha ∨ c = retorno then ([c], s) else (c :: (getsLoop n s).1, (getsLoop n s).2)

def gets (max : ℕ) (s : List UInt8) : List UInt8 × List UInt8 := getsLoop (max - 1) s

/-- `gets(lc, 81)` -/
def lerLinha (s : List UInt8) : List UInt8 × List UInt8 := gets 81 s

/-- The string in the buffer. -/
def cadeia (buf : List UInt8) : List UInt8 := buf.takeWhile (· ≠ 0)

/-- `lc[strlen(lc)-1]=0` -/
def aparada (buf : List UInt8) : List UInt8 := (cadeia buf).dropLast

/-- `while( i < 20 && (argv[ i ] = strtok( 0, " " )) )`, with `n` places left. -/
def preenche : ℕ → List UInt8 → Argv
  | 0, _ => []
  | n + 1, s =>
    match token espaco s with
    | none => [none]
    | some (w, r) => some w :: preenche n r

/-- What the shell does with a line. -/
inductive Acao
  /-- `continue` -/
  | volta
  /-- `exit()` -/
  | sai
  /-- `fork()`, and the child calls `exec`. -/
  | filho (argv : Argv)
deriving DecidableEq

def acao (P : Programa) (buf : List UInt8) : Acao :=
  if cadeia buf = [] then .volta
  else
    match token espaco (aparada buf) with
    | none => if P.zero = sair then .sai else .filho (none :: preenche 19 [])
    | some (w, r) => if w = sair then .sai else .filho (some w :: preenche 19 r)

/-- What a number of iterations have done: the calls of `exec`, each with the number of the line of
the input with which it has started, and whether the shell has called `exit`. -/
structure Saida where
  execs : List (ℕ × Argv)
  saiu : Bool

/-- The loop of `main`: iterations left, calls of `fork` so far, lines so far, and the input.
`falha` says which calls of `fork` fail; the children terminate. -/
def roda (P : Programa) (falha : ℕ → Bool) : ℕ → ℕ → ℕ → List UInt8 → Saida
  | 0, _, _, _ => ⟨[], false⟩
  | i + 1, n, k, s =>
    let buf := (lerLinha s).1
    let resto := (lerLinha s).2
    let k' := k + buf.count novaLinha
    match acao P buf with
    | .volta => roda P falha i n k' resto
    | .sai => ⟨[], true⟩
    | .filho argv =>
      -- `printf(2, "Erro no fork\n" ); exit(  );`
      if falha n then ⟨[], true⟩
      else
        let r := roda P falha i (n + 1) k' resto
        ⟨(k, argv) :: r.execs, r.saiu⟩

/-! ## A line and its words -/

variable {P : Programa} {s buf : List UInt8}

/-- The words that `strtok` finds in a line. -/
def palavras (buf : List UInt8) : List Palavra := words espaco (aparada buf)

/-- The vector of a list of words: twenty places, and a null pointer if one is left. -/
def vetor (ws : List Palavra) : Argv :=
  (ws.take 20).map some ++ if ws.length < 20 then [none] else []

theorem preenche_eq (n : ℕ) (s : List UInt8) : preenche n s =
    ((words espaco s).take n).map some ++ if (words espaco s).length < n then [none] else [] := by
  induction n generalizing s with
  | zero => simp [preenche]
  | succ n ih =>
    rw [preenche]
    cases ht : token espaco s with
    | none =>
      rw [token_eq_none_iff.mp ht]
      rfl
    | some p =>
      obtain ⟨w, r⟩ := p
      rw [words_of_token ht]
      simp only [ih, List.take_succ_cons, List.map_cons, List.cons_append, List.length_cons,
        Nat.add_lt_add_iff_right]

/-- **What is done with a line depends on its words only.** -/
theorem acao_eq (P : Programa) (buf : List UInt8) : acao P buf =
    if cadeia buf = [] then .volta
    else if palavras buf = [] then .filho [none, none]
    else if (palavras buf).head? = some sair then .sai
    else .filho (vetor (palavras buf)) := by
  rw [acao]
  refine if_congr Iff.rfl rfl ?_
  cases ht : token espaco (aparada buf) with
  | none =>
    rw [if_pos (show palavras buf = [] from token_eq_none_iff.mp ht), if_neg P.zero_ne]
    rfl
  | some p =>
    obtain ⟨w, r⟩ := p
    have hw : palavras buf = w :: words espaco r := words_of_token ht
    rw [hw, if_neg (List.cons_ne_nil _ _), List.head?_cons]
    refine if_congr (by simp) rfl ?_
    have hlt : (words espaco r).length < 19 ↔ (words espaco r).length + 1 < 20 := by omega
    rw [preenche_eq, vetor, List.length_cons]
    simp only [hlt]
    rfl

theorem vetor_of_lt {ws : List Palavra} (h : ws.length < 20) :
    vetor ws = ws.map some ++ [none] := by
  rw [vetor, List.take_of_length_le h.le, if_pos h]

theorem vetor_of_le {ws : List Palavra} (h : 20 ≤ ws.length) :
    vetor ws = (ws.take 20).map some := by
  rw [vetor, if_neg (by omega), List.append_nil]

theorem none_notMem_vetor {ws : List Palavra} (h : 20 ≤ ws.length) : none ∉ vetor ws := by
  rw [vetor_of_le h]
  intro hmem
  obtain ⟨w, -, hw⟩ := List.mem_map.mp hmem
  exact Option.some_ne_none w hw

theorem vetor_eq_iff {ws us : List Palavra} :
    vetor ws = us.map some ++ [none] ↔ ws = us ∧ us.length ≤ 19 := by
  constructor
  · intro h
    by_cases hlt : ws.length < 20
    · rw [vetor_of_lt hlt] at h
      have heq : ws = us :=
        List.map_injective_iff.mpr (Option.some_injective _) (List.append_cancel_right h)
      subst heq
      exact ⟨rfl, by omega⟩
    · have hnone : none ∈ vetor ws := by rw [h]; simp
      exact absurd hnone (none_notMem_vetor (by omega))
  · rintro ⟨rfl, h⟩
    exact vetor_of_lt (by omega)

/-- A vector that `exec` can go through: it starts with a word, and a null pointer ends it inside
`argv[20]`. -/
structure Terminado (argv : Argv) : Prop where
  primeira : argv[0]? ≠ some none
  nulo : ∃ k ≤ 19, argv[k]? = some none

theorem terminado_vetor {ws : List Palavra} (hne : ws ≠ []) :
    Terminado (vetor ws) ↔ ws.length ≤ 19 := by
  constructor
  · rintro ⟨-, k, -, hk⟩
    by_contra hle
    exact none_notMem_vetor (by omega) (List.mem_of_getElem? hk)
  · intro hle
    rw [vetor_of_lt (by omega)]
    refine ⟨?_, ws.length, hle, by simp⟩
    cases ws with
    | nil => exact absurd rfl hne
    | cons w ws => simp

/-- **The vector of a line is terminated if and only if the line has between one and nineteen
words**, apart from the lines that execute nothing. A blank line makes `argv[0]` a null pointer, and
twenty words leave no place for the null pointer at the end. -/
theorem exec_terminado_iff (P : Programa) (s : List UInt8) :
    (∀ argv, acao P (lerLinha s).1 = .filho argv → Terminado argv) ↔
      cadeia (lerLinha s).1 = [] ∨ (palavras (lerLinha s).1).head? = some sair ∨
        1 ≤ (palavras (lerLinha s).1).length ∧ (palavras (lerLinha s).1).length ≤ 19 := by
  rw [acao_eq]
  generalize (lerLinha s).1 = buf
  by_cases hvazia : cadeia buf = []
  · simp [hvazia]
  rw [if_neg hvazia]
  by_cases hnil : palavras buf = []
  · rw [if_pos hnil, hnil]
    have hnot : ¬ Terminado [none, none] := fun h ↦ h.primeira rfl
    simp [hvazia, hnot]
  rw [if_neg hnil]
  by_cases hsair : (palavras buf).head? = some sair
  · simp [hsair]
  rw [if_neg hsair]
  have hpos : 1 ≤ (palavras buf).length := List.length_pos_iff.mpr hnil
  simp [hvazia, hsair, hpos, terminado_vetor hnil]

/-- An empty line, and a line with twenty words. -/
theorem not_exec_terminado :
    (acao prologo (lerLinha [novaLinha]).1 = .filho [none, none] ∧ ¬ Terminado [none, none]) ∧
      let vinte := List.replicate 20 [0x61]
      acao prologo (lerLinha ((List.replicate 20 [0x61, espaco]).flatten ++ [novaLinha])).1 =
          .filho (vinte.map some) ∧
        ¬ Terminado (vinte.map some) := by
  refine ⟨⟨?_, fun h ↦ h.primeira rfl⟩, ?_, ?_⟩
  · rw [acao_eq]
    decide
  · rw [acao_eq]
    decide
  · rintro ⟨-, k, -, hk⟩
    exact absurd (List.mem_of_getElem? hk) (by simp)

/-! ## The end of the input -/

/-- The pieces into which `gets` cuts the input: the first `i` of them. Behind the end of the input
they are empty. -/
def pedacos : ℕ → List UInt8 → List (List UInt8)
  | 0, _ => []
  | i + 1, s => (lerLinha s).1 :: pedacos i (lerLinha s).2

def pedaco : ℕ → List UInt8 → List UInt8
  | 0, s => (lerLinha s).1
  | i + 1, s => pedaco i (lerLinha s).2

/-- Piece `j` makes the shell call `exit`, if it gets there after `n` calls of `fork`. -/
def Para (falha : ℕ → Bool) (n : ℕ) (s : List UInt8) (j : ℕ) : Prop :=
  (palavras (pedaco j s)).head? = some sair ∨
    cadeia (pedaco j s) ≠ [] ∧ falha (n + (pedacos j s).countP (cadeia · ≠ [])) = true

variable {falha : ℕ → Bool} {i j k n : ℕ}

theorem palavras_of_cadeia (h : cadeia buf = []) : palavras buf = [] := by
  rw [palavras, aparada, h]
  rfl

theorem acao_cases (P : Programa) (buf : List UInt8) :
    (cadeia buf = [] ∧ acao P buf = .volta) ∨
    (cadeia buf ≠ [] ∧ (palavras buf).head? = some sair ∧ acao P buf = .sai) ∨
    (cadeia buf ≠ [] ∧ (palavras buf).head? ≠ some sair ∧ ∃ argv, acao P buf = .filho argv) := by
  rw [acao_eq]
  by_cases hvazia : cadeia buf = []
  · exact .inl ⟨hvazia, if_pos hvazia⟩
  rw [if_neg hvazia]
  by_cases hnil : palavras buf = []
  · exact .inr (.inr ⟨hvazia, by simp [hnil], _, if_pos hnil⟩)
  rw [if_neg hnil]
  by_cases hsair : (palavras buf).head? = some sair
  · exact .inr (.inl ⟨hvazia, hsair, if_pos hsair⟩)
  · exact .inr (.inr ⟨hvazia, hsair, _, if_neg hsair⟩)

theorem para_zero : Para falha n s 0 ↔
    (palavras (lerLinha s).1).head? = some sair ∨ cadeia (lerLinha s).1 ≠ [] ∧ falha n = true :=
  Iff.rfl

theorem para_succ : Para falha n s (j + 1) ↔
    Para falha (n + if cadeia (lerLinha s).1 = [] then 0 else 1) (lerLinha s).2 j := by
  rw [Para, Para, pedacos, pedaco, List.countP_cons]
  split_ifs <;> simp_all [Nat.add_assoc, Nat.add_comm 1]

/-- What the first `i` iterations do: they stop at the first piece that makes the shell call
`exit`. -/
theorem roda_saiu_iff : (roda P falha i n k s).saiu = true ↔ ∃ j < i, Para falha n s j := by
  induction i generalizing n k s with
  | zero => simp [roda]
  | succ i ih =>
    have hsplit : (∃ j < i + 1, Para falha n s j) ↔
        Para falha n s 0 ∨ ∃ j < i, Para falha n s (j + 1) := by
      constructor
      · rintro ⟨_ | j, hj, h⟩
        · exact .inl h
        · exact .inr ⟨j, Nat.lt_of_succ_lt_succ hj, h⟩
      · rintro (h | ⟨j, hj, h⟩)
        · exact ⟨0, Nat.succ_pos i, h⟩
        · exact ⟨j + 1, Nat.succ_lt_succ hj, h⟩
    rw [hsplit, para_zero]
    simp only [para_succ, roda]
    rcases acao_cases P (lerLinha s).1 with ⟨hv, ha⟩ | ⟨hv, hsair, ha⟩ | ⟨hv, hsair, argv, ha⟩
    · rw [ha, palavras_of_cadeia hv]
      simp [hv, ih]
    · rw [ha]
      simp [hsair]
    · rw [ha]
      cases hf : falha n with
      | true => simp [hv]
      | false => simp [hv, hsair, ih]

/-- **The shell calls `exit` if and only if a piece of the input has `exit` as its first word, or a
call of `fork` fails.** The end of the input is no reason to stop: `gets` then gives the empty
string, and on an empty string the shell goes on to the next one. -/
theorem para_iff (P : Programa) (falha : ℕ → Bool) (s : List UInt8) :
    (∃ i, (roda P falha i 0 0 s).saiu = true) ↔
      ∃ j, (palavras (pedaco j s)).head? = some sair ∨
        cadeia (pedaco j s) ≠ [] ∧ falha ((pedacos j s).countP (cadeia · ≠ [])) = true := by
  constructor
  · rintro ⟨i, hi⟩
    obtain ⟨j, -, hj⟩ := roda_saiu_iff.mp hi
    exact ⟨j, by simpa [Para] using hj⟩
  · rintro ⟨j, hj⟩
    exact ⟨j + 1, roda_saiu_iff.mpr ⟨j, Nat.lt_succ_self j, by simpa [Para] using hj⟩⟩

theorem roda_nil : roda P falha i n k [] = ⟨[], false⟩ := by
  induction i with
  | zero => rfl
  | succ i ih => exact ih

/-- With no input at all the shell never stops. -/
theorem not_para_nil : ¬ ∃ i, (roda prologo (fun _ ↦ false) i 0 0 []).saiu = true := by
  rintro ⟨i, hi⟩
  rw [roda_nil] at hi
  exact Bool.false_ne_true hi

end SistemasOperacionais.Xv6.ShellSimples
