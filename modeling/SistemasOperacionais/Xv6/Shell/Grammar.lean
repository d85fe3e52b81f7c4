import Mathlib.Data.List.GetD
import Mathlib.Data.List.TakeWhile
import SistemasOperacionais.Xv6.Shell.Model

/-!
# The grammar of the shell

The sequence of tokens that `gettoken` splits a string into, and the grammar over these tokens:

```text
line  ::= pipe '&'* [';' line]
pipe  ::= exec ['|' pipe]
exec  ::= '(' line ')' redir* | redir* (word redir*)*      with fewer than MAXARGS words
redir ::= ('<' | '>' | '>>') word
```

A derivation comes with the command that it stands for. What `peek` and `gettoken` say about a
cursor is said here in terms of the tokens behind it (`peek_eq`, `tokensAt_cases`), so that nothing
after this looks at characters.
-/

namespace SistemasOperacionais.Xv6.Shell

open CString

/-- The tokens. As in `Cmd`, what stands for a word is a parameter. -/
inductive Token (α : Type*)
  | word (w : α)
  | bar
  | lpar
  | rpar
  | semi
  | amp
  | lt
  | gt
  | append
deriving DecidableEq

namespace Token

variable {α β : Type*}

def map (f : α → β) : Token α → Token β
  | word w => word (f w)
  | bar => bar
  | lpar => lpar
  | rpar => rpar
  | semi => semi
  | amp => amp
  | lt => lt
  | gt => gt
  | append => append

/-- What `gettoken` returns for a token. -/
def code : Token α → UInt8
  | word _ => 'a'.toUInt8
  | bar => '|'.toUInt8
  | lpar => '('.toUInt8
  | rpar => ')'.toUInt8
  | semi => ';'.toUInt8
  | amp => '&'.toUInt8
  | lt => '<'.toUInt8
  | gt => '>'.toUInt8
  | append => '+'.toUInt8

/-- The symbol that a token starts with, as `peek` sees it; a word starts with none. -/
def lead : Token α → UInt8
  | word _ => 0
  | append => '>'.toUInt8
  | t => t.code

/-- The token that is no word. -/
def ofCode (c : UInt8) : Option (Token α) :=
  [bar, lpar, rpar, semi, amp, lt, gt, append].find? (·.code = c)

theorem code_ne_zero (t : Token α) : t.code ≠ 0 := by
  cases t <;> exact of_decide_eq_true rfl

theorem code_eq_word_iff {t : Token α} : t.code = 'a'.toUInt8 ↔ ∃ w, t = word w := by
  cases t with
  | word w => exact ⟨fun _ ↦ ⟨w, rfl⟩, fun _ ↦ rfl⟩
  | _ => exact iff_of_false (of_decide_eq_true rfl) (by simp)

end Token

/-! ## Scanning -/

section Scan

variable {p : UInt8 → Bool}

theorem scan_eq (l : List UInt8) (i : ℕ) : scan p l i = i + (l.takeWhile p).length := by
  induction l generalizing i with
  | nil => rfl
  | cons c l ih =>
    rw [scan, List.takeWhile_cons]
    split_ifs
    · rw [ih, List.length_cons]
      omega
    · rfl

variable (s : CString)

theorem le_scan (i : ℕ) : i ≤ scan p (s.bytes.drop i) i := by
  rw [scan_eq]
  exact Nat.le_add_right _ _

theorem scan_le {i : ℕ} (hi : i ≤ s.strlen) : scan p (s.bytes.drop i) i ≤ s.strlen := by
  have hlen := (List.takeWhile_sublist p (l := s.bytes.drop i)).length_le
  rw [List.length_drop] at hlen
  rw [scan_eq]
  unfold strlen at *
  omega

theorem get_eq_zero_of_le {i : ℕ} (hi : s.strlen ≤ i) : s.get i = 0 := List.getD_eq_default _ _ hi

theorem get_ne_zero {i : ℕ} (hi : i < s.strlen) : s.get i ≠ 0 := by
  rw [CString.get, List.getD_eq_getElem _ _ hi]
  intro h0
  exact s.zero_notMem (h0 ▸ List.getElem_mem hi)

theorem drop_eq_cons {i : ℕ} (hi : i < s.strlen) :
    s.bytes.drop i = s.get i :: s.bytes.drop (i + 1) := by
  rw [List.drop_eq_getElem_cons hi, CString.get, List.getD_eq_getElem _ _ hi]

/-- The scan goes on as long as the characters satisfy `p` … -/
theorem of_lt_scan {i k : ℕ} (hi : i ≤ k) (hk : k < scan p (s.bytes.drop i) i) :
    k < s.strlen ∧ p (s.get k) = true := by
  obtain ⟨d, rfl⟩ := Nat.exists_eq_add_of_le hi
  rw [scan_eq] at hk
  have hd : d < ((s.bytes.drop i).takeWhile p).length := by omega
  have hlt : i + d < s.bytes.length := by
    have hle := (List.takeWhile_sublist p (l := s.bytes.drop i)).length_le
    rw [List.length_drop] at hle
    omega
  have hget : s.get (i + d) = ((s.bytes.drop i).takeWhile p)[d] := by
    rw [CString.get, List.getD_eq_getElem _ _ hlt, (List.takeWhile_prefix p).getElem hd,
      List.getElem_drop]
  rw [hget]
  exact ⟨hlt, List.mem_takeWhile_imp (List.getElem_mem hd)⟩

/-- … and stops at one that does not, or at the end. -/
theorem scan_stops (i : ℕ) : s.strlen ≤ scan p (s.bytes.drop i) i ∨
    p (s.get (scan p (s.bytes.drop i) i)) = false := by
  induction hd : s.bytes.drop i generalizing i with
  | nil => exact .inl (List.drop_eq_nil_iff.mp hd)
  | cons c l ih =>
    have hi : i < s.strlen := by
      by_contra hge
      rw [List.drop_eq_nil_of_le (not_lt.mp hge)] at hd
      cases hd
    rw [drop_eq_cons s hi] at hd
    obtain ⟨rfl, rfl⟩ := List.cons.inj hd
    rw [scan]
    split_ifs with hp
    · exact ih (i + 1) rfl
    · exact .inr (Bool.eq_false_of_not_eq_true hp)

theorem scan_eq_self {i : ℕ} (h : p (s.get i) = false) : scan p (s.bytes.drop i) i = i := by
  by_cases hi : i < s.strlen
  · rw [drop_eq_cons s hi, scan, h]
    rfl
  · rw [List.drop_eq_nil_of_le (not_lt.mp hi)]
    rfl

theorem lt_scan {i : ℕ} (hi : i < s.strlen) (h : p (s.get i) = true) :
    i < scan p (s.bytes.drop i) i := by
  rw [drop_eq_cons s hi, scan, if_pos h]
  exact Nat.lt_of_succ_le (le_scan s (i + 1))

theorem get_skip (i : ℕ) : strchr whitespace (s.get (s.skip i)) = false := by
  obtain hend | hstop := scan_stops (p := strchr whitespace) s i
  · rw [skip, get_eq_zero_of_le s hend]
    rfl
  · exact hstop

@[simp] theorem skip_skip (i : ℕ) : s.skip (s.skip i) = s.skip i := scan_eq_self s (get_skip s i)

theorem le_skip (i : ℕ) : i ≤ s.skip i := le_scan s i

theorem skip_le {i : ℕ} (hi : i ≤ s.strlen) : s.skip i ≤ s.strlen := scan_le s hi

end Scan

/-! ## Tokens -/

/-- The two pointers enclose a word, and no word goes on behind it. -/
structure IsSpan (s : CString) (word : Span) : Prop where
  inside : ∀ k, word.1 ≤ k → k < word.2 → s.get k ≠ 0 ∧ isWord (s.get k) = true
  behind : s.get word.2 = 0 ∨ isWord (s.get word.2) = false
  le : word.1 ≤ word.2

def tokenOf (t : Lexeme) : Token Span := (Token.ofCode t.ret).getD (.word (t.q, t.eq))

/-- The tokens that `gettoken` returns one after the other. -/
def tokensFrom (s : CString) : ℕ → ℕ → List (Token Span)
  | 0, _ => []
  | n + 1, i =>
    let t := gettoken s i
    if t.ret = 0 then [] else tokenOf t :: tokensFrom s n t.ps

/-- The tokens behind a cursor; there are no more of them than characters. -/
def tokensAt (s : CString) (i : ℕ) : List (Token Span) := tokensFrom s (s.strlen - i) i

def slice (s : CString) (word : Span) : List UInt8 := (s.bytes.drop word.1).take (word.2 - word.1)

def tokens (s : CString) : List (Token (List UInt8)) := (tokensAt s 0).map (.map (slice s))

/-- What `gettoken` says about a token. -/
structure IsLexeme (s : CString) (i : ℕ) (t : Lexeme) (k : Token Span) : Prop where
  code : t.ret = k.code
  word : ∀ w, k = .word w → w = (t.q, t.eq) ∧ IsSpan s w
  lead : ∀ toks : List UInt8, toks ⊆ symbols → strchr toks (s.get (s.skip i)) = strchr toks k.lead
  lt : i < t.ps
  le : t.ps ≤ s.strlen

section Gettoken

variable {s : CString} {i : ℕ}

theorem strchr_eq_false {toks : List UInt8} {c : UInt8} (hsub : toks ⊆ symbols)
    (hc : strchr symbols c = false) : strchr toks c = false := by
  rw [strchr, List.contains_eq_mem, decide_eq_false_iff_not] at *
  exact fun hmem ↦ hc (hsub hmem)

/-- The switch on the first character: at the end, at a symbol, at a word. -/
theorem scanToken_cases (s : CString) (q : ℕ) :
    (s.get q = 0 ∧ scanToken s q = (0, q)) ∨
      (∃ k : Token Span, scanToken s q = (k.code, q + 1) ∧ s.get q = k.lead ∧
        Token.ofCode k.code = some k) ∨
      (scanToken s q = ('+'.toUInt8, q + 2) ∧ s.get q = '>'.toUInt8 ∧
        s.get (q + 1) = '>'.toUInt8) ∨
      (s.get q ≠ 0 ∧ strchr symbols (s.get q) = false ∧
        scanToken s q = ('a'.toUInt8, scan isWord (s.bytes.drop q) q)) := by
  unfold scanToken
  simp only
  split_ifs with h0 hsym hgt hgt2
  · exact .inl ⟨h0, by rw [h0]⟩
  · refine .inr (.inl ?_)
    simp only [strchr, List.map_cons, List.map_nil, List.contains_eq_mem, List.mem_cons,
      List.not_mem_nil, or_false, decide_eq_true_eq] at hsym
    rcases hsym with h | h | h | h | h | h
    · exact ⟨.bar, by rw [h]; rfl, h, rfl⟩
    · exact ⟨.lpar, by rw [h]; rfl, h, rfl⟩
    · exact ⟨.rpar, by rw [h]; rfl, h, rfl⟩
    · exact ⟨.semi, by rw [h]; rfl, h, rfl⟩
    · exact ⟨.amp, by rw [h]; rfl, h, rfl⟩
    · exact ⟨.lt, by rw [h]; rfl, h, rfl⟩
  · exact .inr (.inr (.inl ⟨rfl, hgt, hgt2⟩))
  · exact .inr (.inl ⟨.gt, by rw [hgt]; rfl, hgt, rfl⟩)
  · refine .inr (.inr (.inr ⟨h0, ?_, rfl⟩))
    simp only [strchr, symbols, List.map_cons, List.map_nil, List.contains_eq_mem, List.mem_cons,
      List.not_mem_nil, or_false, decide_eq_false_iff_not, decide_eq_true_eq] at hsym ⊢
    tauto

theorem ret_eq_zero_iff : (gettoken s i).ret = 0 ↔ s.get (s.skip i) = 0 := by
  change (scanToken s (s.skip i)).1 = 0 ↔ _
  obtain ⟨h0, h⟩ | ⟨k, h, hlead, hk⟩ | ⟨h, hgt, -⟩ | ⟨h0, -, h⟩ := scanToken_cases s (s.skip i)
  · simp [h, h0]
  · rw [h, hlead]
    refine iff_of_false k.code_ne_zero ?_
    cases k with
    | word w => cases hk
    | _ => decide
  · rw [h, hgt]
    exact iff_of_false (by decide : '+'.toUInt8 ≠ 0) (by decide)
  · rw [h]
    exact iff_of_false (by decide : 'a'.toUInt8 ≠ 0) h0

theorem isLexeme_of_symbol {k : Token Span} {n : ℕ}
    (h : scanToken s (s.skip i) = (k.code, n)) (hlead : s.get (s.skip i) = k.lead)
    (hk : Token.ofCode k.code = some k) (hn : s.skip i < n) (hle : n ≤ s.strlen) :
    tokenOf (gettoken s i) = k ∧ IsLexeme s i (gettoken s i) k := by
  have hret : (gettoken s i).ret = k.code := congrArg Prod.fst h
  have hps : (gettoken s i).ps = s.skip n := congrArg (fun r ↦ s.skip (Prod.snd r)) h
  refine ⟨by rw [tokenOf, hret, hk]; rfl, hret, ?_, fun toks _ ↦ by rw [hlead], ?_, ?_⟩
  · rintro w rfl
    cases hk
  · rw [hps]
    exact (le_skip s i).trans_lt (hn.trans_le (le_skip s n))
  · rw [hps]
    exact skip_le s hle

theorem isSpan_scan (q : ℕ) : IsSpan s (q, scan isWord (s.bytes.drop q) q) where
  inside k hk hlt := by
    obtain ⟨hlen, hword⟩ := of_lt_scan s hk hlt
    exact ⟨get_ne_zero s hlen, hword⟩
  behind := (scan_stops s q).imp_left (get_eq_zero_of_le s)
  le := le_scan s q

theorem isLexeme_gettoken (hne : (gettoken s i).ret ≠ 0) :
    IsLexeme s i (gettoken s i) (tokenOf (gettoken s i)) := by
  have h0 : s.get (s.skip i) ≠ 0 := fun h0 ↦ hne (ret_eq_zero_iff.mpr h0)
  have hlt : s.skip i < s.strlen := by
    by_contra hge
    exact h0 (get_eq_zero_of_le s (not_lt.mp hge))
  obtain ⟨hz, -⟩ | ⟨k, h, hlead, hk⟩ | ⟨h, hgt, hgt2⟩ | ⟨-, hsym, h⟩ :=
    scanToken_cases s (s.skip i)
  · exact absurd hz h0
  · obtain ⟨htok, hlex⟩ := isLexeme_of_symbol h hlead hk (Nat.lt_succ_self _) hlt
    rwa [htok]
  · have hlt2 : s.skip i + 1 < s.strlen := by
      by_contra hge
      rw [get_eq_zero_of_le s (not_lt.mp hge)] at hgt2
      exact absurd hgt2 (by decide)
    obtain ⟨htok, hlex⟩ := isLexeme_of_symbol (k := .append) h hgt rfl (by omega) hlt2
    rwa [htok]
  · have hret : (gettoken s i).ret = 'a'.toUInt8 := congrArg Prod.fst h
    have heq : (gettoken s i).eq = scan isWord (s.bytes.drop (s.skip i)) (s.skip i) :=
      congrArg Prod.snd h
    have htok : tokenOf (gettoken s i) = .word ((gettoken s i).q, (gettoken s i).eq) := by
      rw [tokenOf, hret]
      rfl
    have hword : isWord (s.get (s.skip i)) = true := by
      rw [isWord, get_skip, hsym]
      rfl
    rw [htok]
    refine ⟨hret, ?_, ?_, ?_, ?_⟩
    · intro w hw
      obtain rfl := Token.word.inj hw
      refine ⟨rfl, ?_⟩
      rw [heq]
      exact isSpan_scan (s.skip i)
    · intro toks hsub
      rw [strchr_eq_false hsub hsym]
      exact (strchr_eq_false hsub rfl).symm
    · change i < s.skip (gettoken s i).eq
      rw [heq]
      exact (le_skip s i).trans_lt ((lt_scan s hlt hword).trans_le (le_skip s _))
    · change s.skip (gettoken s i).eq ≤ s.strlen
      rw [heq]
      exact skip_le s (scan_le s hlt.le)

@[simp] theorem gettoken_skip (s : CString) (i : ℕ) : gettoken s (s.skip i) = gettoken s i := by
  simp only [gettoken, skip_skip]

theorem ret_eq_zero_of_le (hi : s.strlen ≤ i) : (gettoken s i).ret = 0 :=
  ret_eq_zero_iff.mpr (get_eq_zero_of_le s (hi.trans (le_skip s i)))

theorem tokensFrom_eq {m n : ℕ} (hm : s.strlen - i ≤ m) (hn : s.strlen - i ≤ n) :
    tokensFrom s m i = tokensFrom s n i := by
  induction m generalizing n i with
  | zero =>
    cases n with
    | zero => rfl
    | succ n =>
      rw [tokensFrom, tokensFrom]
      exact (if_pos (ret_eq_zero_of_le (by omega))).symm
  | succ m ih =>
    cases n with
    | zero =>
      rw [tokensFrom, tokensFrom]
      exact if_pos (ret_eq_zero_of_le (by omega))
    | succ n =>
      simp only [tokensFrom]
      split_ifs with h0
      · rfl
      · have hlt := (isLexeme_gettoken h0).lt
        rw [ih (n := n) (by omega) (by omega)]

/-- `s` has the tokens `ts` behind the cursor. -/
structure At (s : CString) (i : ℕ) (ts : List (Token Span)) : Prop where
  tokens : tokensAt s i = ts
  le : i ≤ s.strlen

theorem At.of_zero (hi : i ≤ s.strlen) (h0 : (gettoken s i).ret = 0) : At s i [] := by
  refine ⟨?_, hi⟩
  rw [tokensAt]
  cases s.strlen - i with
  | zero => rfl
  | succ n => exact if_pos h0

theorem tokensAt_eq_cons (h0 : (gettoken s i).ret ≠ 0) :
    tokensAt s i = tokenOf (gettoken s i) :: tokensAt s (gettoken s i).ps := by
  have hlex := isLexeme_gettoken h0
  have hlt := hlex.lt
  have hle := hlex.le
  obtain ⟨n, hn⟩ : ∃ n, s.strlen - i = n + 1 := ⟨s.strlen - i - 1, by omega⟩
  rw [tokensAt, hn, tokensFrom]
  simp only [if_neg h0]
  rw [tokensFrom_eq (n := s.strlen - (gettoken s i).ps) (by omega) le_rfl]
  rfl

namespace At

variable {ts : List (Token Span)} {k : Token Span}

theorem ret_eq_zero (h : At s i []) : (gettoken s i).ret = 0 := by
  by_contra h0
  have hnil := h.tokens
  rw [tokensAt_eq_cons h0] at hnil
  cases hnil

theorem isLexeme (h : At s i (k :: ts)) : IsLexeme s i (gettoken s i) k := by
  have h0 : (gettoken s i).ret ≠ 0 := by
    intro h0
    have hnil := (of_zero h.le h0).tokens.symm.trans h.tokens
    cases hnil
  have hcons := (tokensAt_eq_cons h0).symm.trans h.tokens
  have hlex := isLexeme_gettoken h0
  rwa [(List.cons.inj hcons).1] at hlex

theorem next (h : At s i (k :: ts)) : At s (gettoken s i).ps ts := by
  have hlex := h.isLexeme
  have h0 : (gettoken s i).ret ≠ 0 := by
    rw [hlex.code]
    exact k.code_ne_zero
  have hcons := (tokensAt_eq_cons h0).symm.trans h.tokens
  exact ⟨(List.cons.inj hcons).2, hlex.le⟩

theorem ret_eq (h : At s i (k :: ts)) : (gettoken s i).ret = k.code := h.isLexeme.code

theorem word_eq {w : Span} (h : At s i (.word w :: ts)) :
    ((gettoken s i).q, (gettoken s i).eq) = w := (h.isLexeme.word w rfl).1.symm

theorem isSpan {w : Span} (h : At s i (.word w :: ts)) : IsSpan s w := (h.isLexeme.word w rfl).2

theorem skip (h : At s i ts) : At s (s.skip i) ts := by
  refine ⟨?_, skip_le s h.le⟩
  cases ts with
  | nil => exact (of_zero (skip_le s h.le) (by rw [gettoken_skip, h.ret_eq_zero])).tokens
  | cons k ts =>
    have h0 : (gettoken s i).ret ≠ 0 := by
      rw [h.ret_eq]
      exact k.code_ne_zero
    rw [tokensAt_eq_cons (by rwa [gettoken_skip]), gettoken_skip, ← tokensAt_eq_cons h0, h.tokens]

theorem isSpan_of_mem (h : At s i ts) {w : Span} (hw : .word w ∈ ts) : IsSpan s w := by
  induction ts generalizing i with
  | nil => cases hw
  | cons k ts ih =>
    rcases List.mem_cons.mp hw with rfl | hmem
    · exact h.isSpan
    · exact ih h.next hmem

end At

theorem at_zero (s : CString) : At s 0 (tokensAt s 0) := ⟨rfl, Nat.zero_le _⟩

/-- `peek` for symbols, in terms of the tokens. -/
def starts (toks : List Char) : List (Token Span) → Bool
  | [] => false
  | k :: _ => strchr (toks.map Char.toUInt8) k.lead

theorem At.peek_eq {ts : List (Token Span)} (h : At s i ts) (toks : List Char)
    (hsub : toks.map Char.toUInt8 ⊆ symbols) : peek s i toks = (s.skip i, starts toks ts) := by
  refine Prod.ext rfl ?_
  change (s.get (s.skip i) != 0 && strchr _ (s.get (s.skip i))) = _
  cases ts with
  | nil =>
    rw [ret_eq_zero_iff.mp h.ret_eq_zero]
    rfl
  | cons k ts =>
    have h0 : s.get (s.skip i) ≠ 0 := by
      intro h0
      rw [← ret_eq_zero_iff, h.ret_eq] at h0
      exact k.code_ne_zero h0
    rw [h.isLexeme.lead _ hsub, bne_iff_ne.mpr h0, Bool.true_and]
    rfl

theorem At.skip_eq_iff {ts : List (Token Span)} (h : At s i ts) :
    s.skip i = s.strlen ↔ ts = [] := by
  cases ts with
  | nil =>
    refine iff_of_true (le_antisymm (skip_le s h.le) ?_) rfl
    by_contra hlt
    exact get_ne_zero s (not_le.mp hlt) (ret_eq_zero_iff.mp h.ret_eq_zero)
  | cons k ts =>
    refine iff_of_false (fun heq ↦ ?_) (List.cons_ne_nil _ _)
    have h0 := get_eq_zero_of_le s heq.ge
    rw [← ret_eq_zero_iff, h.ret_eq] at h0
    exact k.code_ne_zero h0

end Gettoken

/-! ## The grammar -/

/-- The three redirections. -/
inductive Direction
  | input
  | output
  | append

def Direction.token {α : Type*} : Direction → Token α
  | input => .lt
  | output => .gt
  | append => .append

section Grammar

variable {α β : Type*}

/-- The redirection that is meant; appending is not told from writing. -/
def Direction.wrap (d : Direction) (cmd : Cmd α) (file : α) : Cmd α :=
  match d with
  | input => .redir cmd file oRdonly 0
  | output => .redir cmd file (oWronly ||| oCreate) 1
  | append => .redir cmd file (oWronly ||| oCreate) 1

/-- `redir*`, and the command inside these redirections, the last one outermost -/
def redirTokens (rs : List (Direction × α)) : List (Token α) :=
  rs.flatMap fun r ↦ [r.1.token, .word r.2]

def wrap (cmd : Cmd α) (rs : List (Direction × α)) : Cmd α :=
  rs.foldl (fun cmd r ↦ r.1.wrap cmd r.2) cmd

/-- `(word redir*)*` -/
def itemTokens (items : List (α × List (Direction × α))) : List (Token α) :=
  items.flatMap fun item ↦ .word item.1 :: redirTokens item.2

theorem redirTokens_cons (d : Direction) (w : α) (rs : List (Direction × α)) :
    redirTokens ((d, w) :: rs) = d.token :: .word w :: redirTokens rs := rfl

@[simp] theorem itemTokens_cons (w : α) (rs : List (Direction × α))
    (items : List (α × List (Direction × α))) :
    itemTokens ((w, rs) :: items) = .word w :: (redirTokens rs ++ itemTokens items) := by
  simp [itemTokens]

theorem length_redirTokens (rs : List (Direction × α)) :
    (redirTokens rs).length = 2 * rs.length := by
  induction rs with
  | nil => rfl
  | cons r rs ih =>
    rw [redirTokens_cons, List.length_cons, List.length_cons, ih, List.length_cons]
    ring

/-- The command inside `n` nodes `BACK`. -/
def backs (n : ℕ) (cmd : Cmd α) : Cmd α := .back^[n] cmd

inductive Nonterminal
  | line
  | pipe
  | exec

/-- `Derives n ts c`: the tokens `ts` are derived from `n`, and stand for the command `c`. -/
inductive Derives : Nonterminal → List (Token α) → Cmd α → Prop
  | line {ts : List (Token α)} {c : Cmd α} (n : ℕ) :
      Derives .pipe ts c → Derives .line (ts ++ List.replicate n .amp) (backs n c)
  | list {ts us : List (Token α)} {c d : Cmd α} (n : ℕ) :
      Derives .pipe ts c → Derives .line us d →
      Derives .line (ts ++ List.replicate n .amp ++ .semi :: us) (.list (backs n c) d)
  | pipe {ts : List (Token α)} {c : Cmd α} : Derives .exec ts c → Derives .pipe ts c
  | bar {ts us : List (Token α)} {c d : Cmd α} :
      Derives .exec ts c → Derives .pipe us d → Derives .pipe (ts ++ .bar :: us) (.pipe c d)
  | block {ts : List (Token α)} {c : Cmd α} (rs : List (Direction × α)) :
      Derives .line ts c → Derives .exec (.lpar :: ts ++ .rpar :: redirTokens rs) (wrap c rs)
  | exec (rs : List (Direction × α)) (items : List (α × List (Direction × α))) :
      items.length < maxArgs →
      Derives .exec (redirTokens rs ++ itemTokens items)
        (wrap (.exec (items.map Prod.fst)) (rs ++ items.flatMap Prod.snd))

end Grammar

end SistemasOperacionais.Xv6.Shell
