import SistemasOperacionais.Xv6.Shell.Grammar

/-!
# The parser accepts its grammar

For each procedure three things are said about the tokens behind the cursor: what it has read if it
returns (sound), that it reads what is derived from its nonterminal and is followed by something
that cannot be read on (complete), and that it comes to an end when it has fuel for the tokens that
are left.

The parser looks at one character to decide, so completeness rests on what may follow a
nonterminal (`follow`).
-/

namespace SistemasOperacionais.Xv6.Shell

open CString

variable {s : CString} {ps i j l f : ℕ} {ts us : List (Token Span)} {cmd cmd' : Cmd Span}

/-! ## What may follow -/

/-- Nothing follows, or a token that starts with one of `toks`. -/
def Ends (toks : List Char) (us : List (Token Span)) : Prop := us = [] ∨ starts toks us = true

theorem mem_of_starts {toks : List Char} (h : starts toks us = true) :
    ∃ k vs, us = k :: vs ∧ k.lead ∈ toks.map Char.toUInt8 := by
  cases us with
  | nil => cases h
  | cons k vs => exact ⟨k, vs, rfl, List.contains_iff_mem.mp h⟩

theorem starts_cons {toks : List Char} {k : Token Span} :
    starts toks (k :: us) = true ↔ k.lead ∈ toks.map Char.toUInt8 := List.contains_iff_mem

theorem Ends.mono {toks toks' : List Char} (h : Ends toks us) (hsub : toks ⊆ toks') :
    Ends toks' us := by
  refine h.imp_right fun hs ↦ ?_
  obtain ⟨k, vs, rfl, hk⟩ := mem_of_starts hs
  exact starts_cons.mpr (List.map_subset _ hsub hk)

theorem Ends.not_starts {toks toks' : List Char} (h : Ends toks us)
    (hdis : (toks.map Char.toUInt8).all (· ∉ toks'.map Char.toUInt8) = true) :
    starts toks' us = false := by
  rcases h with rfl | hs
  · rfl
  · obtain ⟨k, vs, rfl, hk⟩ := mem_of_starts hs
    have hnot := of_decide_eq_true (List.all_eq_true.mp hdis _ hk)
    exact Bool.eq_false_of_not_eq_true fun hs' ↦ hnot (starts_cons.mp hs')

theorem eq_of_lead {k k' : Token Span} (hk : k ∈ [.bar, .lpar, .rpar, .semi, .amp])
    (h : k'.lead = k.lead) : k' = k := by
  simp only [List.mem_cons, List.not_mem_nil, or_false] at hk
  rcases hk with rfl | rfl | rfl | rfl | rfl <;> cases k' <;>
    first | rfl | exact absurd h (of_decide_eq_true rfl)

theorem symbol_cases {k : Token Span} (hk : k ∈ [.bar, .lpar, .rpar, .semi, .amp]) {c : Char}
    (hc : k.lead = c.toUInt8) (ts : List (Token Span)) :
    starts [c] ts = false ∨ ∃ us, ts = k :: us ∧ starts [c] ts = true := by
  cases ts with
  | nil => exact .inl rfl
  | cons k' us =>
    by_cases h : starts [c] (k' :: us) = true
    · have hlead := starts_cons.mp h
      rw [List.map_singleton, List.mem_singleton, ← hc] at hlead
      exact .inr ⟨us, by rw [eq_of_lead hk hlead], h⟩
    · exact .inl (Bool.eq_false_of_not_eq_true h)

/-! ## Redirections -/

theorem redirect_token (d : Direction) (w : Span) :
    cmd.redirect (d.token : Token Span).code w = d.wrap cmd w := by
  cases d <;> rfl

theorem starts_direction (d : Direction) : starts ['<', '>'] (d.token :: us) = true := by
  cases d <;> rfl

theorem redir_cases (ts : List (Token Span)) :
    starts ['<', '>'] ts = false ∨ (∃ d w us, ts = Direction.token d :: .word w :: us) ∨
      ∃ d us, ts = Direction.token d :: us ∧ ∀ w vs, us ≠ .word w :: vs := by
  by_cases h : starts ['<', '>'] ts = true
  · obtain ⟨d, us, rfl⟩ : ∃ d us, ts = Direction.token d :: us := by
      cases ts with
      | nil => cases h
      | cons k us =>
        cases k with
        | lt => exact ⟨.input, us, rfl⟩
        | gt => exact ⟨.output, us, rfl⟩
        | append => exact ⟨.append, us, rfl⟩
        | _ => exact absurd h (of_decide_eq_true rfl)
    by_cases hw : ∃ w vs, us = .word w :: vs
    · obtain ⟨w, vs, rfl⟩ := hw
      exact .inr (.inl ⟨d, w, vs, rfl⟩)
    · exact .inr (.inr ⟨d, us, rfl, fun w vs heq ↦ hw ⟨w, vs, heq⟩⟩)
  · exact .inl (Bool.eq_false_of_not_eq_true h)

namespace At

theorem parseredirs_stop (h : At s ps ts) (hstop : starts ['<', '>'] ts = false) :
    parseredirs s (f + 1) cmd ps = .ok (cmd, s.skip ps) := by
  rw [parseredirs, h.peek_eq _ (by decide), hstop]
  rfl

theorem parseredirs_next {d : Direction} {w : Span} (h : At s ps (d.token :: .word w :: us)) :
    parseredirs s (f + 1) cmd ps =
      parseredirs s f (d.wrap cmd w) (gettoken s (gettoken s ps).ps).ps := by
  rw [parseredirs, h.peek_eq _ (by decide), starts_direction]
  simp only [if_true, gettoken_skip, h.ret_eq, h.next.ret_eq, h.next.word_eq, redirect_token]
  exact if_neg (not_not.mpr rfl)

theorem parseredirs_missing {d : Direction} (h : At s ps (d.token :: us))
    (hmissing : ∀ w vs, us ≠ .word w :: vs) :
    parseredirs s (f + 1) cmd ps = .panic "missing file for redirection" := by
  rw [parseredirs, h.peek_eq _ (by decide), starts_direction]
  simp only [if_true, gettoken_skip]
  refine if_pos fun hret ↦ ?_
  cases us with
  | nil =>
    rw [h.next.ret_eq_zero] at hret
    exact absurd hret (by decide)
  | cons k vs =>
    rw [h.next.ret_eq] at hret
    obtain ⟨w, rfl⟩ := Token.code_eq_word_iff.mp hret
    exact hmissing w vs rfl

theorem parseredirs_sound (h : At s ps ts) (hok : parseredirs s f cmd ps = .ok (cmd', j)) :
    ∃ rs us, ts = redirTokens rs ++ us ∧ cmd' = wrap cmd rs ∧ At s j us := by
  induction f generalizing cmd ps ts with
  | zero => cases hok
  | succ f ih =>
    obtain hstop | ⟨d, w, us, rfl⟩ | ⟨d, us, rfl, hmissing⟩ := redir_cases ts
    · rw [h.parseredirs_stop hstop] at hok
      cases hok
      exact ⟨[], ts, rfl, rfl, h.skip⟩
    · rw [h.parseredirs_next] at hok
      obtain ⟨rs, vs, rfl, rfl, hat⟩ := ih h.next.next hok
      exact ⟨(d, w) :: rs, vs, rfl, rfl, hat⟩
    · rw [h.parseredirs_missing hmissing] at hok
      cases hok

theorem parseredirs_complete {rs : List (Direction × Span)} (h : At s ps (redirTokens rs ++ us))
    (cmd : Cmd Span) (hstop : starts ['<', '>'] us = false) (hf : rs.length < f) :
    ∃ j, parseredirs s f cmd ps = .ok (wrap cmd rs, j) ∧ At s j us := by
  induction rs generalizing f cmd ps with
  | nil =>
    obtain ⟨f, rfl⟩ := Nat.exists_eq_succ_of_ne_zero hf.ne'
    exact ⟨_, h.parseredirs_stop hstop, h.skip⟩
  | cons r rs ih =>
    obtain ⟨f, rfl⟩ := Nat.exists_eq_succ_of_ne_zero (Nat.ne_zero_of_lt hf)
    obtain ⟨j, hj, hat⟩ := ih h.next.next (r.1.wrap cmd r.2) (Nat.lt_of_succ_lt_succ hf)
    exact ⟨j, h.parseredirs_next.trans hj, hat⟩

theorem parseredirs_ne_running (h : At s ps ts) (hf : ts.length < f) :
    parseredirs s f cmd ps ≠ .running := by
  induction f generalizing cmd ps ts with
  | zero => exact absurd hf (Nat.not_lt_zero _)
  | succ f ih =>
    obtain hstop | ⟨d, w, us, rfl⟩ | ⟨d, us, rfl, hmissing⟩ := redir_cases ts
    · simp [h.parseredirs_stop hstop]
    · rw [h.parseredirs_next]
      refine ih h.next.next ?_
      simp only [List.length_cons] at hf
      omega
    · simp [h.parseredirs_missing hmissing]

end At

/-! ## Arguments -/

/-- The arguments end, there is a word, or there is something that is neither. -/
theorem item_cases (ts : List (Token Span)) :
    Ends ['|', ')', '&', ';'] ts ∨ (∃ w us, ts = .word w :: us) ∨
      ∃ k us, ts = k :: us ∧ starts ['|', ')', '&', ';'] ts = false ∧ k.code ≠ 'a'.toUInt8 := by
  cases ts with
  | nil => exact .inl (.inl rfl)
  | cons k us =>
    cases k with
    | word w => exact .inr (.inl ⟨w, us, rfl⟩)
    | bar => exact .inl (.inr rfl)
    | rpar => exact .inl (.inr rfl)
    | semi => exact .inl (.inr rfl)
    | amp => exact .inl (.inr rfl)
    | lpar => exact .inr (.inr ⟨.lpar, us, rfl, rfl, of_decide_eq_true rfl⟩)
    | lt => exact .inr (.inr ⟨.lt, us, rfl, rfl, of_decide_eq_true rfl⟩)
    | gt => exact .inr (.inr ⟨.gt, us, rfl, rfl, of_decide_eq_true rfl⟩)
    | append => exact .inr (.inr ⟨.append, us, rfl, rfl, of_decide_eq_true rfl⟩)

theorem setArgv_wrap (rs : List (Direction × Span)) (argv : List Span) :
    (wrap cmd rs).setArgv argv = wrap (cmd.setArgv argv) rs := by
  induction rs generalizing cmd with
  | nil => rfl
  | cons r rs ih =>
    obtain ⟨d, w⟩ := r
    refine ih.trans ?_
    cases d <;> rfl

theorem wrap_append (rs rs' : List (Direction × Span)) :
    wrap cmd (rs ++ rs') = wrap (wrap cmd rs) rs' := List.foldl_append

namespace At

variable {argv : List Span}

theorem execLoop_end (h : At s ps ts) (cmd : Cmd Span) (argv : List Span)
    (hend : Ends ['|', ')', '&', ';'] ts) :
    ∃ j, execLoop s (f + 1) cmd argv ps = .ok (cmd.setArgv argv, j) ∧ At s j ts := by
  rw [execLoop, h.peek_eq _ (by decide)]
  rcases hend with rfl | hs
  · refine ⟨(gettoken s (s.skip ps)).ps, ?_, ?_⟩
    · simp only [starts, Bool.false_eq_true, if_false, gettoken_skip, h.ret_eq_zero, if_true]
    · -- at the end `gettoken` stays where it is
      have hend := h.skip_eq_iff.mpr rfl
      have h0 : s.get (s.skip ps) = 0 := get_eq_zero_of_le s hend.ge
      have hps : (gettoken s (s.skip ps)).ps = s.skip ps := by
        simp only [gettoken, scanToken, h0, if_true, skip_skip]
      rw [hps]
      exact h.skip
  · refine ⟨s.skip ps, ?_, h.skip⟩
    rw [hs]
    rfl

theorem execLoop_word {w : Span} (h : At s ps (.word w :: us)) :
    execLoop s (f + 1) cmd argv ps =
      if maxArgs ≤ argv.length + 1 then .panic "too many args"
      else (parseredirs s f cmd (gettoken s ps).ps).bind fun r ↦
        execLoop s f r.1 (argv ++ [w]) r.2 := by
  have hstarts : starts ['|', ')', '&', ';'] (.word w :: us) = false := rfl
  rw [execLoop, h.peek_eq _ (by decide), hstarts]
  simp only [Bool.false_eq_true, if_false, gettoken_skip, h.ret_eq, h.word_eq]
  rfl

theorem execLoop_other {k : Token Span} (h : At s ps (k :: us))
    (hs : starts ['|', ')', '&', ';'] (k :: us) = false) (hk : k.code ≠ 'a'.toUInt8) :
    execLoop s (f + 1) cmd argv ps = .panic "syntax" := by
  rw [execLoop, h.peek_eq _ (by decide), hs]
  simp only [Bool.false_eq_true, if_false, gettoken_skip, h.ret_eq, k.code_ne_zero]
  exact if_pos hk

theorem execLoop_sound (h : At s ps ts) (hok : execLoop s f cmd argv ps = .ok (cmd', j))
    (hargv : argv.length < maxArgs) : ∃ items us, ts = itemTokens items ++ us ∧
      cmd' = wrap (cmd.setArgv (argv ++ items.map Prod.fst)) (items.flatMap Prod.snd) ∧
      argv.length + items.length < maxArgs ∧ At s j us := by
  induction f generalizing cmd argv ps ts with
  | zero => cases hok
  | succ f ih =>
    obtain hend | ⟨w, us, rfl⟩ | ⟨k, us, rfl, hs, hk⟩ := item_cases ts
    · obtain ⟨j', hj, hat⟩ := h.execLoop_end (f := f) cmd argv hend
      rw [hj] at hok
      cases hok
      refine ⟨[], ts, rfl, ?_, hargv, hat⟩
      simp [wrap]
    · rw [h.execLoop_word] at hok
      split_ifs at hok with hmax
      obtain ⟨⟨c, l⟩, hr, hok⟩ := Outcome.bind_eq_ok.mp hok
      obtain ⟨rs, vs, rfl, rfl, hat⟩ := h.next.parseredirs_sound hr
      obtain ⟨items, us, rfl, rfl, hlen, hat⟩ := ih hat hok (by simpa using hmax)
      refine ⟨(w, rs) :: items, us, ?_, ?_, ?_, hat⟩
      · simp
      · simp [setArgv_wrap, wrap_append]
      · simp only [List.length_append, List.length_cons] at hlen ⊢
        omega
    · rw [h.execLoop_other hs hk] at hok
      cases hok

theorem not_starts_itemTokens {items : List (Span × List (Direction × Span))}
    (hend : Ends ['|', ')', '&', ';'] us) : starts ['<', '>'] (itemTokens items ++ us) = false := by
  cases items with
  | nil => exact hend.not_starts (by decide)
  | cons item items => rfl

theorem execLoop_complete {items : List (Span × List (Direction × Span))}
    (h : At s ps (itemTokens items ++ us)) (cmd : Cmd Span) (argv : List Span)
    (hend : Ends ['|', ')', '&', ';'] us) (hargs : argv.length + items.length < maxArgs)
    (hf : (itemTokens items).length < f) :
    ∃ j, execLoop s f cmd argv ps =
      .ok (wrap (cmd.setArgv (argv ++ items.map Prod.fst)) (items.flatMap Prod.snd), j) ∧
      At s j us := by
  induction items generalizing f cmd argv ps with
  | nil =>
    obtain ⟨f, rfl⟩ := Nat.exists_eq_succ_of_ne_zero hf.ne'
    obtain ⟨j, hj, hat⟩ := h.execLoop_end (f := f) cmd argv hend
    refine ⟨j, hj.trans ?_, hat⟩
    simp [wrap]
  | cons item items ih =>
    obtain ⟨w, rs⟩ := item
    obtain ⟨f, rfl⟩ := Nat.exists_eq_succ_of_ne_zero (Nat.ne_zero_of_lt hf)
    rw [itemTokens_cons, List.cons_append, List.append_assoc] at h
    simp only [itemTokens_cons, List.length_append, List.length_cons, length_redirTokens] at hf
    rw [List.length_cons] at hargs
    obtain ⟨k, hk, hat⟩ := h.next.parseredirs_complete (f := f) cmd
      (not_starts_itemTokens hend) (by omega)
    obtain ⟨j, hj, hat⟩ := ih (f := f) hat (wrap cmd rs) (argv ++ [w])
      (by simp only [List.length_append, List.length_singleton]; omega) (by omega)
    refine ⟨j, ?_, hat⟩
    rw [h.execLoop_word, if_neg (by omega), hk, Outcome.bind_ok, hj]
    simp [setArgv_wrap, wrap_append]

theorem execLoop_ne_running (h : At s ps ts) (hf : ts.length < f) :
    execLoop s f cmd argv ps ≠ .running := by
  induction f generalizing cmd argv ps ts with
  | zero => exact absurd hf (Nat.not_lt_zero _)
  | succ f ih =>
    obtain hend | ⟨w, us, rfl⟩ | ⟨k, us, rfl, hs, hk⟩ := item_cases ts
    · obtain ⟨j, hj, -⟩ := h.execLoop_end (f := f) cmd argv hend
      simp [hj]
    · rw [h.execLoop_word]
      split_ifs with hmax
      · simp
      · rw [List.length_cons] at hf
        refine Outcome.bind_ne_running (h.next.parseredirs_ne_running (by omega)) ?_
        rintro ⟨c, l⟩ hr
        obtain ⟨rs, vs, rfl, rfl, hat⟩ := h.next.parseredirs_sound hr
        rw [List.length_append] at hf
        exact ih hat (by omega)
    · simp [h.execLoop_other hs hk]

end At

/-! ## Background -/

theorem backs_succ (n : ℕ) : backs (n + 1) cmd = backs n (.back cmd) :=
  Function.iterate_succ_apply ..

namespace At

theorem backLoop_stop (h : At s ps ts) (hstop : starts ['&'] ts = false) :
    backLoop s (f + 1) cmd ps = .ok (cmd, s.skip ps) := by
  rw [backLoop, h.peek_eq _ (by decide), hstop]
  rfl

theorem backLoop_next (h : At s ps (.amp :: us)) :
    backLoop s (f + 1) cmd ps = backLoop s f (.back cmd) (gettoken s ps).ps := by
  have hstarts : starts ['&'] (.amp :: us) = true := rfl
  rw [backLoop, h.peek_eq _ (by decide), hstarts]
  simp only [if_true, gettoken_skip]

theorem backLoop_sound (h : At s ps ts) (hok : backLoop s f cmd ps = .ok (cmd', j)) :
    ∃ n us, ts = List.replicate n .amp ++ us ∧ cmd' = backs n cmd ∧ At s j us := by
  induction f generalizing cmd ps ts with
  | zero => cases hok
  | succ f ih =>
    obtain hstop | ⟨us, rfl, -⟩ := symbol_cases (k := .amp) (by simp) rfl ts
    · rw [h.backLoop_stop hstop] at hok
      cases hok
      exact ⟨0, ts, rfl, rfl, h.skip⟩
    · rw [h.backLoop_next] at hok
      obtain ⟨n, vs, rfl, rfl, hat⟩ := ih h.next hok
      exact ⟨n + 1, vs, rfl, (backs_succ n).symm, hat⟩

theorem backLoop_complete {n : ℕ} (h : At s ps (List.replicate n .amp ++ us)) (cmd : Cmd Span)
    (hstop : starts ['&'] us = false) (hf : n < f) :
    ∃ j, backLoop s f cmd ps = .ok (backs n cmd, j) ∧ At s j us := by
  induction n generalizing f cmd ps with
  | zero =>
    obtain ⟨f, rfl⟩ := Nat.exists_eq_succ_of_ne_zero hf.ne'
    exact ⟨_, h.backLoop_stop hstop, h.skip⟩
  | succ n ih =>
    obtain ⟨f, rfl⟩ := Nat.exists_eq_succ_of_ne_zero (Nat.ne_zero_of_lt hf)
    obtain ⟨j, hj, hat⟩ := ih h.next (.back cmd) (Nat.lt_of_succ_lt_succ hf)
    exact ⟨j, h.backLoop_next.trans (hj.trans (by rw [backs_succ])), hat⟩

theorem backLoop_ne_running (h : At s ps ts) (hf : ts.length < f) :
    backLoop s f cmd ps ≠ .running := by
  induction f generalizing cmd ps ts with
  | zero => exact absurd hf (Nat.not_lt_zero _)
  | succ f ih =>
    obtain hstop | ⟨us, rfl, -⟩ := symbol_cases (k := .amp) (by simp) rfl ts
    · simp [h.backLoop_stop hstop]
    · rw [h.backLoop_next]
      exact ih h.next (Nat.lt_of_succ_lt_succ hf)

end At

/-! ## Lines, pipes and commands -/

def run : Nonterminal → CString → ℕ → ℕ → Outcome (Cmd Span × ℕ)
  | .line => parseline
  | .pipe => parsepipe
  | .exec => parseexec

def follow : Nonterminal → List Char
  | .line => [')']
  | .pipe => [')', '&', ';']
  | .exec => ['|', ')', '&', ';']

/-- How many calls deep a token can be: a block is read by `parseblock`, below the three. -/
def rank : Nonterminal → ℕ
  | .line => 4
  | .pipe => 3
  | .exec => 2

namespace At

variable {n : Nonterminal} {c d : Cmd Span}

/-! ### One call -/

theorem parseline_eq (h : At s j ts) (hpipe : parsepipe s f i = .ok (c, l))
    (hback : backLoop s f c l = .ok (d, j)) :
    parseline s (f + 1) i =
      if starts [';'] ts = true then
        (parseline s f (gettoken s j).ps).bind fun r ↦ .ok (.list d r.1, r.2)
      else .ok (d, s.skip j) := by
  rw [parseline, hpipe, Outcome.bind_ok, hback, Outcome.bind_ok, h.peek_eq _ (by decide)]
  simp only [gettoken_skip]

theorem parsepipe_eq (h : At s j ts) (hexec : parseexec s f i = .ok (c, j)) :
    parsepipe s (f + 1) i =
      if starts ['|'] ts = true then
        (parsepipe s f (gettoken s j).ps).bind fun r ↦ .ok (.pipe c r.1, r.2)
      else .ok (c, s.skip j) := by
  rw [parsepipe, hexec, Outcome.bind_ok, h.peek_eq _ (by decide)]
  simp only [gettoken_skip]

theorem parseexec_eq (h : At s i ts) :
    parseexec s (f + 1) i =
      if starts ['('] ts = true then parseblock s f (s.skip i)
      else (parseredirs s f (.exec []) (s.skip i)).bind fun r ↦ execLoop s f r.1 [] r.2 := by
  rw [parseexec, h.peek_eq _ (by decide)]

theorem parseblock_eq (h : At s i (.lpar :: ts)) (hline : At s j us)
    (hok : parseline s f (gettoken s i).ps = .ok (c, j)) :
    parseblock s (f + 1) i =
      if starts [')'] us = true then parseredirs s f c (gettoken s j).ps
      else .panic "syntax - missing )" := by
  have hstarts : starts ['('] (.lpar :: ts) = true := rfl
  rw [parseblock, h.peek_eq _ (by decide), hstarts]
  simp only [Bool.not_true, Bool.false_eq_true, if_false, gettoken_skip, hok, Outcome.bind_ok,
    hline.peek_eq [')'] (by decide)]
  cases starts [')'] us <;> rfl

/-! ### Soundness -/

/-- What `n` has read with this fuel when it returns. -/
def Sound (s : CString) (n : Nonterminal) (f : ℕ) : Prop :=
  ∀ {i ts c j}, At s i ts → run n s f i = .ok (c, j) →
    ∃ us vs, ts = us ++ vs ∧ Derives n us c ∧ At s j vs

theorem parseline_sound (hpipe : Sound s .pipe f) (hline : Sound s .line f) :
    Sound s .line (f + 1) := by
  intro i ts c j h hok
  change parseline s (f + 1) i = _ at hok
  obtain ⟨⟨c₁, j₁⟩, h₁, hok₁⟩ := Outcome.bind_eq_ok.mp (parseline.eq_2 .. ▸ hok)
  obtain ⟨⟨c₂, j₂⟩, h₂, -⟩ := Outcome.bind_eq_ok.mp hok₁
  obtain ⟨us, vs, rfl, hderiv, hat⟩ := hpipe h h₁
  obtain ⟨n, vs, rfl, rfl, hat⟩ := hat.backLoop_sound h₂
  have heq := hat.parseline_eq h₁ h₂
  obtain hsemi | ⟨vs, rfl, hsemi⟩ := symbol_cases (k := .semi) (by simp) rfl vs
  · rw [hsemi] at heq
    cases heq.symm.trans hok
    exact ⟨us ++ List.replicate n .amp, vs, by simp, .line n hderiv, hat.skip⟩
  · rw [hsemi, if_pos rfl] at heq
    obtain ⟨⟨c₃, j₃⟩, h₃, hok₃⟩ := Outcome.bind_eq_ok.mp (heq.symm.trans hok)
    cases hok₃
    obtain ⟨us', vs, rfl, hderiv', hat⟩ := hline hat.next h₃
    exact ⟨us ++ List.replicate n .amp ++ .semi :: us', vs, by simp, .list n hderiv hderiv', hat⟩

theorem parsepipe_sound (hexec : Sound s .exec f) (hpipe : Sound s .pipe f) :
    Sound s .pipe (f + 1) := by
  intro i ts c j h hok
  change parsepipe s (f + 1) i = _ at hok
  obtain ⟨⟨c₁, j₁⟩, h₁, -⟩ := Outcome.bind_eq_ok.mp (parsepipe.eq_2 .. ▸ hok)
  obtain ⟨us, vs, rfl, hderiv, hat⟩ := hexec h h₁
  have heq := hat.parsepipe_eq h₁
  obtain hbar | ⟨vs, rfl, hbar⟩ := symbol_cases (k := .bar) (by simp) rfl vs
  · rw [hbar] at heq
    cases heq.symm.trans hok
    exact ⟨us, vs, rfl, .pipe hderiv, hat.skip⟩
  · rw [hbar, if_pos rfl] at heq
    obtain ⟨⟨c₂, j₂⟩, h₂, hok₂⟩ := Outcome.bind_eq_ok.mp (heq.symm.trans hok)
    cases hok₂
    obtain ⟨us', vs, rfl, hderiv', hat⟩ := hpipe hat.next h₂
    exact ⟨us ++ .bar :: us', vs, by simp, .bar hderiv hderiv', hat⟩

theorem parseblock_sound (hline : Sound s .line f) (h : At s i (.lpar :: ts))
    (hok : parseblock s (f + 1) i = .ok (c, j)) :
    ∃ us vs, .lpar :: ts = us ++ vs ∧ Derives .exec us c ∧ At s j vs := by
  obtain ⟨⟨c₁, j₁⟩, h₁⟩ : ∃ r, parseline s f (gettoken s i).ps = .ok r := by
    rw [parseblock, h.peek_eq _ (by decide)] at hok
    simp only [gettoken_skip] at hok
    obtain ⟨r, hr, -⟩ := Outcome.bind_eq_ok.mp hok
    exact ⟨r, hr⟩
  obtain ⟨us, vs, rfl, hderiv, hat⟩ := hline h.next h₁
  have heq := h.parseblock_eq hat h₁
  obtain hrpar | ⟨vs, rfl, hrpar⟩ := symbol_cases (k := .rpar) (by simp) rfl vs
  · rw [hrpar] at heq
    cases heq.symm.trans hok
  · rw [hrpar, if_pos rfl] at heq
    obtain ⟨rs, vs, rfl, rfl, hat⟩ := hat.next.parseredirs_sound (heq.symm.trans hok)
    exact ⟨.lpar :: us ++ .rpar :: redirTokens rs, vs, by simp, .block rs hderiv, hat⟩

theorem parseexec_sound (hline : ∀ g, f = g + 1 → Sound s .line g) : Sound s .exec (f + 1) := by
  intro i ts c j h hok
  have heq := h.parseexec_eq (f := f)
  obtain hlpar | ⟨ts, rfl, hlpar⟩ := symbol_cases (k := .lpar) (by simp) rfl ts
  · rw [hlpar, if_neg (by simp)] at heq
    obtain ⟨⟨c₁, j₁⟩, h₁, hok₁⟩ := Outcome.bind_eq_ok.mp (heq.symm.trans hok)
    obtain ⟨rs, us, rfl, rfl, hat⟩ := h.skip.parseredirs_sound h₁
    obtain ⟨items, us, rfl, rfl, hlen, hat⟩ := hat.execLoop_sound hok₁ (by decide)
    refine ⟨redirTokens rs ++ itemTokens items, us, by simp, ?_, hat⟩
    rw [setArgv_wrap, ← wrap_append]
    exact .exec rs items (by simpa using hlen)
  · rw [hlpar, if_pos rfl] at heq
    cases f with
    | zero =>
      rw [parseblock] at heq
      cases heq.symm.trans hok
    | succ g => exact parseblock_sound (hline g rfl) h.skip (heq.symm.trans hok)

/-- **Soundness.** What a procedure has read is derived from its nonterminal. -/
theorem run_sound (s : CString) (n : Nonterminal) (f : ℕ) : Sound s n f := by
  induction f using Nat.strong_induction_on generalizing n with
  | _ f ih =>
    cases f with
    | zero =>
      intro i ts c j _ hok
      cases n with
      | line => cases (parseline.eq_1 ..).symm.trans hok
      | pipe => cases (parsepipe.eq_1 ..).symm.trans hok
      | exec => cases (parseexec.eq_1 ..).symm.trans hok
    | succ f =>
      cases n with
      | line => exact parseline_sound (ih f f.lt_succ_self _) (ih f f.lt_succ_self _)
      | pipe => exact parsepipe_sound (ih f f.lt_succ_self _) (ih f f.lt_succ_self _)
      | exec => exact parseexec_sound fun g hg ↦ ih g (by omega) _

/-! ### Completeness -/

theorem ends_replicate_amp {vs : List (Token Span)} (hend : Ends (follow .pipe) vs) (m : ℕ) :
    Ends (follow .pipe) (List.replicate m .amp ++ vs) := by
  cases m with
  | zero => exact hend
  | succ m => exact .inr rfl

/-- The procedure of `n` reads `us`, if nothing follows that could be read on. -/
def Complete (s : CString) (n : Nonterminal) (us : List (Token Span)) (c : Cmd Span) : Prop :=
  ∀ {i f vs}, At s i (us ++ vs) → Ends (follow n) vs → 4 * (us ++ vs).length + rank n ≤ f →
    ∃ j, run n s f i = .ok (c, j) ∧ At s j vs

namespace Complete

theorem line (m : ℕ) (hpipe : Complete s .pipe ts c) :
    Complete s .line (ts ++ List.replicate m .amp) (backs m c) := by
  intro i f vs h hend hf
  rw [List.append_assoc] at h hf
  obtain ⟨f, rfl⟩ := Nat.exists_eq_add_of_le' (Nat.le_of_add_left_le hf)
  obtain ⟨l, hl, hat⟩ := hpipe (f := f + 3) h (ends_replicate_amp (hend.mono (by decide)) m)
    (by simp only [rank] at hf ⊢; omega)
  obtain ⟨j, hj, hat⟩ := hat.backLoop_complete (f := f + 3) _ (hend.not_starts (by decide))
    (by simp only [List.length_append, List.length_replicate] at hf; omega)
  refine ⟨s.skip j, (hat.parseline_eq hl hj).trans ?_, hat.skip⟩
  rw [hend.not_starts (by decide)]
  rfl

theorem list (m : ℕ) (hpipe : Complete s .pipe ts c) (hline : Complete s .line us d) :
    Complete s .line (ts ++ List.replicate m .amp ++ .semi :: us) (.list (backs m c) d) := by
  intro i f vs h hend hf
  rw [List.append_assoc, List.append_assoc, List.cons_append] at h hf
  obtain ⟨f, rfl⟩ := Nat.exists_eq_add_of_le' (Nat.le_of_add_left_le hf)
  obtain ⟨l, hl, hat⟩ := hpipe (f := f + 3) h (ends_replicate_amp (.inr rfl) m)
    (by simp only [rank] at hf ⊢; omega)
  simp only [List.length_append, List.length_replicate, List.length_cons, rank] at hf
  obtain ⟨j, hj, hat⟩ := hat.backLoop_complete (f := f + 3) _ rfl (by omega)
  obtain ⟨k, hk, hat'⟩ := hline (f := f + 3) hat.next hend
    (by simp only [List.length_append, rank]; omega)
  refine ⟨k, (hat.parseline_eq hl hj).trans ((if_pos rfl).trans ?_), hat'⟩
  exact congrArg (fun r : Outcome (Cmd Span × ℕ) ↦ r.bind _) hk

theorem pipe (hexec : Complete s .exec ts c) : Complete s .pipe ts c := by
  intro i f vs h hend hf
  obtain ⟨f, rfl⟩ := Nat.exists_eq_add_of_le' (Nat.le_of_add_left_le hf)
  obtain ⟨j, hj, hat⟩ := hexec (f := f + 2) h (hend.mono (by decide))
    (by simp only [rank] at hf ⊢; omega)
  refine ⟨s.skip j, (hat.parsepipe_eq hj).trans ?_, hat.skip⟩
  rw [hend.not_starts (by decide)]
  rfl

theorem bar (hexec : Complete s .exec ts c) (hpipe : Complete s .pipe us d) :
    Complete s .pipe (ts ++ .bar :: us) (.pipe c d) := by
  intro i f vs h hend hf
  rw [List.append_assoc, List.cons_append] at h hf
  obtain ⟨f, rfl⟩ := Nat.exists_eq_add_of_le' (Nat.le_of_add_left_le hf)
  obtain ⟨j, hj, hat⟩ := hexec (f := f + 2) h (.inr rfl) (by simp only [rank] at hf ⊢; omega)
  obtain ⟨k, hk, hat'⟩ := hpipe (f := f + 2) hat.next hend
    (by simp only [List.length_append, List.length_cons, rank] at hf ⊢; omega)
  refine ⟨k, (hat.parsepipe_eq hj).trans ((if_pos rfl).trans ?_), hat'⟩
  exact congrArg (fun r : Outcome (Cmd Span × ℕ) ↦ r.bind _) hk

theorem block (rs : List (Direction × Span)) (hline : Complete s .line ts c) :
    Complete s .exec (.lpar :: ts ++ .rpar :: redirTokens rs) (wrap c rs) := by
  intro i f vs h hend hf
  simp only [List.cons_append, List.append_assoc, List.length_cons, List.length_append,
    length_redirTokens] at h hf
  obtain ⟨f, rfl⟩ := Nat.exists_eq_add_of_le' (Nat.le_of_add_left_le hf)
  simp only [rank] at hf
  obtain ⟨j, hj, hat⟩ := hline (f := f) h.skip.next (.inr rfl)
    (by simp only [List.length_append, List.length_cons, length_redirTokens, rank]; omega)
  obtain ⟨k, hk, hat'⟩ := hat.next.parseredirs_complete (f := f) _ (hend.not_starts (by decide))
    (by omega)
  refine ⟨k, (h.parseexec_eq.trans (if_pos rfl)).trans ?_, hat'⟩
  exact (h.skip.parseblock_eq hat hj).trans ((if_pos rfl).trans hk)

theorem exec (rs : List (Direction × Span)) (items : List (Span × List (Direction × Span)))
    (hlen : items.length < maxArgs) :
    Complete s .exec (redirTokens rs ++ itemTokens items)
      (wrap (.exec (items.map Prod.fst)) (rs ++ items.flatMap Prod.snd)) := by
  intro i f vs h hend hf
  simp only [List.append_assoc, List.length_append, length_redirTokens] at h hf
  obtain ⟨f, rfl⟩ := Nat.exists_eq_add_of_le' (Nat.le_of_add_left_le hf)
  obtain ⟨j, hj, hat⟩ := h.skip.parseredirs_complete (f := f + 1) (.exec [])
    (not_starts_itemTokens hend) (by omega)
  obtain ⟨k, hk, hat⟩ := hat.execLoop_complete (f := f + 1) (wrap (.exec []) rs) []
    hend (by simpa using hlen) (by omega)
  have hlpar : starts ['('] (redirTokens rs ++ (itemTokens items ++ vs)) = false := by
    cases rs with
    | cons r rs =>
      obtain ⟨d, w⟩ := r
      cases d <;> rfl
    | nil =>
      cases items with
      | cons item items => rfl
      | nil => exact hend.not_starts (by decide)
  refine ⟨k, h.parseexec_eq.trans ?_, hat⟩
  rw [hlpar, if_neg Bool.false_ne_true, hj, Outcome.bind_ok, hk, setArgv_wrap, ← wrap_append]
  rfl

end Complete

/-- **Completeness.** The command of the derivation is returned. -/
theorem run_complete {us : List (Token Span)} (hderiv : Derives n us c) : Complete s n us c := by
  induction hderiv with
  | line m _ ih => exact Complete.line m ih
  | list m _ _ ih ih' => exact Complete.list m ih ih'
  | pipe _ ih => exact Complete.pipe ih
  | bar _ _ ih ih' => exact Complete.bar ih ih'
  | block rs _ ih => exact Complete.block rs ih
  | exec rs items hlen => exact Complete.exec rs items hlen

/-! ### Termination -/

/-- The procedure of `n` comes to an end with this fuel. -/
def Terminates (s : CString) (n : Nonterminal) (f : ℕ) : Prop :=
  ∀ {i ts}, At s i ts → 4 * ts.length + rank n ≤ f → run n s f i ≠ .running

theorem parseline_terminates (hpipe : Terminates s .pipe f) (hline : Terminates s .line f) :
    Terminates s .line (f + 1) := by
  intro i ts h hf
  simp only [rank] at hf
  change parseline s (f + 1) i ≠ _
  rw [parseline]
  refine Outcome.bind_ne_running (hpipe h (by simp only [rank]; omega)) ?_
  rintro ⟨c, l⟩ hl
  obtain ⟨us, vs, rfl, -, hat⟩ := run_sound s .pipe f h hl
  rw [List.length_append] at hf
  refine Outcome.bind_ne_running (hat.backLoop_ne_running (by omega)) ?_
  rintro ⟨d, j⟩ hj
  obtain ⟨m, vs, rfl, -, hat⟩ := hat.backLoop_sound hj
  simp only [hat.peek_eq [';'] (by decide), gettoken_skip]
  obtain hsemi | ⟨vs, rfl, hsemi⟩ := symbol_cases (k := .semi) (by simp) rfl vs
  · simp [hsemi]
  · rw [if_pos hsemi]
    simp only [List.length_append, List.length_cons] at hf
    exact Outcome.bind_ne_running (hline hat.next (by simp only [rank]; omega)) (by simp)

theorem parsepipe_terminates (hexec : Terminates s .exec f) (hpipe : Terminates s .pipe f) :
    Terminates s .pipe (f + 1) := by
  intro i ts h hf
  simp only [rank] at hf
  change parsepipe s (f + 1) i ≠ _
  rw [parsepipe]
  refine Outcome.bind_ne_running (hexec h (by simp only [rank]; omega)) ?_
  rintro ⟨c, j⟩ hj
  obtain ⟨us, vs, rfl, -, hat⟩ := run_sound s .exec f h hj
  simp only [hat.peek_eq ['|'] (by decide), gettoken_skip]
  obtain hbar | ⟨vs, rfl, hbar⟩ := symbol_cases (k := .bar) (by simp) rfl vs
  · simp [hbar]
  · rw [if_pos hbar]
    simp only [List.length_append, List.length_cons] at hf
    exact Outcome.bind_ne_running (hpipe hat.next (by simp only [rank]; omega)) (by simp)

theorem parseexec_terminates (hline : ∀ g, f = g + 1 → Terminates s .line g) :
    Terminates s .exec (f + 1) := by
  intro i ts h hf
  simp only [rank] at hf
  change parseexec s (f + 1) i ≠ _
  rw [h.parseexec_eq]
  obtain hlpar | ⟨ts, rfl, hlpar⟩ := symbol_cases (k := .lpar) (by simp) rfl ts
  · rw [hlpar, if_neg Bool.false_ne_true]
    refine Outcome.bind_ne_running (h.skip.parseredirs_ne_running (by omega)) ?_
    rintro ⟨c, j⟩ hj
    obtain ⟨rs, us, rfl, -, hat⟩ := h.skip.parseredirs_sound hj
    rw [List.length_append] at hf
    exact hat.execLoop_ne_running (by omega)
  · rw [if_pos hlpar]
    rw [List.length_cons] at hf
    obtain ⟨g, rfl⟩ : ∃ g, f = g + 1 := ⟨f - 1, by omega⟩
    rw [parseblock, h.skip.peek_eq _ (by decide)]
    simp only [hlpar, Bool.not_true, Bool.false_eq_true, if_false, gettoken_skip]
    refine Outcome.bind_ne_running (hline g rfl h.next (by simp only [rank]; omega)) ?_
    rintro ⟨c, j⟩ hj
    obtain ⟨us, vs, rfl, -, hat⟩ := run_sound s .line g h.next hj
    simp only [hat.peek_eq [')'] (by decide), gettoken_skip]
    obtain hrpar | ⟨vs, rfl, hrpar⟩ := symbol_cases (k := .rpar) (by simp) rfl vs
    · simp [hrpar]
    · simp only [hrpar, Bool.not_true, Bool.false_eq_true, if_false]
      simp only [List.length_append, List.length_cons] at hf
      exact hat.next.parseredirs_ne_running (by omega)

theorem run_terminates (s : CString) (n : Nonterminal) (f : ℕ) : Terminates s n f := by
  induction f using Nat.strong_induction_on generalizing n with
  | _ f ih =>
    cases f with
    | zero =>
      intro i ts _ hf
      cases n <;> simp [rank] at hf
    | succ f =>
      cases n with
      | line => exact parseline_terminates (ih f f.lt_succ_self _) (ih f f.lt_succ_self _)
      | pipe => exact parsepipe_terminates (ih f f.lt_succ_self _) (ih f f.lt_succ_self _)
      | exec => exact parseexec_terminates fun g hg ↦ ih g (by omega) _

end At

end SistemasOperacionais.Xv6.Shell
