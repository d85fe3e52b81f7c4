import SistemasOperacionais.Xv6.Shell.Parser

/-!
# The words of a command

The parser works on pointers, and the grammar is the same whatever stands for a word: a derivation
over pointers is carried to a derivation over the words they enclose (`Derives.map`) and back
(`Derives.lift`). What is left is `nulterminate`: a NUL behind each word makes a string of it, and
hits no other word, because the character behind a word belongs to none.
-/

namespace SistemasOperacionais.Xv6.Shell

open CString Function

section Derivations

variable {α β : Type*} {n : Nonterminal} {c : Cmd α} {ts : List (Token α)}

/-! ## The words of a derivation -/

theorem words_wrap (c : Cmd α) (rs : List (Direction × α)) :
    (wrap c rs).words = c.words ++ rs.map Prod.snd := by
  induction rs generalizing c with
  | nil => simp [wrap]
  | cons r rs ih =>
    obtain ⟨d, w⟩ := r
    have hwrap : (d.wrap c w).words = c.words ++ [w] := by cases d <;> rfl
    rw [wrap, List.foldl_cons, ← wrap, ih, hwrap, List.map_cons, List.append_assoc]
    rfl

theorem words_backs (m : ℕ) (c : Cmd α) : (backs m c).words = c.words := by
  induction m with
  | zero => rfl
  | succ m ih => rw [backs, iterate_succ_apply', ← backs, Cmd.words, ih]

theorem word_mem_redirTokens {rs : List (Direction × α)} {w : α} (hw : w ∈ rs.map Prod.snd) :
    .word w ∈ redirTokens rs := by
  obtain ⟨r, hr, rfl⟩ := List.mem_map.mp hw
  exact List.mem_flatMap.mpr ⟨r, hr, by simp⟩

theorem Derives.word_mem (h : Derives n ts c) {w : α} (hw : w ∈ c.words) : .word w ∈ ts := by
  induction h with
  | line m _ ih =>
    rw [words_backs] at hw
    exact List.mem_append_left _ (ih hw)
  | list m _ _ ih ih' =>
    rw [Cmd.words, words_backs, List.mem_append] at hw
    rcases hw with hw | hw
    · simp [ih hw]
    · simp [ih' hw]
  | pipe _ ih => exact ih hw
  | bar _ _ ih ih' =>
    rcases List.mem_append.mp hw with hw | hw
    · simp [ih hw]
    · simp [ih' hw]
  | block rs _ ih =>
    rw [words_wrap, List.mem_append] at hw
    rcases hw with hw | hw
    · simp [ih hw]
    · simp [word_mem_redirTokens hw]
  | exec rs items _ =>
    rw [words_wrap, Cmd.words, List.mem_append, List.map_append, List.mem_append] at hw
    rcases hw with hw | hw | hw
    · obtain ⟨item, hitem, rfl⟩ := List.mem_map.mp hw
      exact List.mem_append_right _ (List.mem_flatMap.mpr ⟨item, hitem, List.mem_cons_self⟩)
    · exact List.mem_append_left _ (word_mem_redirTokens hw)
    · obtain ⟨r, hr, rfl⟩ := List.mem_map.mp hw
      obtain ⟨item, hitem, hr⟩ := List.mem_flatMap.mp hr
      refine List.mem_append_right _ (List.mem_flatMap.mpr ⟨item, hitem, ?_⟩)
      exact List.mem_cons_of_mem _ (word_mem_redirTokens (List.mem_map_of_mem hr))

/-! ## Other words -/

variable (f : α → β)

theorem map_wrap (c : Cmd α) (rs : List (Direction × α)) :
    (wrap c rs).map f = wrap (c.map f) (rs.map (Prod.map id f)) := by
  induction rs generalizing c with
  | nil => rfl
  | cons r rs ih =>
    obtain ⟨d, w⟩ := r
    have hwrap : (d.wrap c w).map f = d.wrap (c.map f) (f w) := by cases d <;> rfl
    exact (ih (d.wrap c w)).trans (by rw [hwrap]; rfl)

theorem map_backs (m : ℕ) (c : Cmd α) : (backs m c).map f = backs m (c.map f) := by
  induction m with
  | zero => rfl
  | succ m ih =>
    rw [backs, backs, iterate_succ_apply', iterate_succ_apply', ← backs, ← backs, Cmd.map, ih]

theorem map_token (d : Direction) : (d.token : Token α).map f = d.token := by cases d <;> rfl

theorem map_redirTokens (rs : List (Direction × α)) :
    (redirTokens rs).map (.map f) = redirTokens (rs.map (Prod.map id f)) := by
  induction rs with
  | nil => rfl
  | cons r rs ih =>
    obtain ⟨d, w⟩ := r
    rw [redirTokens_cons, List.map_cons, List.map_cons, map_token, ih, List.map_cons]
    rfl

theorem map_itemTokens (items : List (α × List (Direction × α))) :
    (itemTokens items).map (.map f) =
      itemTokens (items.map (Prod.map f (List.map (Prod.map id f)))) := by
  simp [itemTokens, List.map_flatMap, List.flatMap_map, map_redirTokens, Token.map]

theorem map_exec (rs : List (Direction × α)) (items : List (α × List (Direction × α))) :
    (wrap (.exec (items.map Prod.fst)) (rs ++ items.flatMap Prod.snd)).map f =
      wrap (.exec ((items.map (Prod.map f (List.map (Prod.map id f)))).map Prod.fst))
        (rs.map (Prod.map id f) ++
          (items.map (Prod.map f (List.map (Prod.map id f)))).flatMap Prod.snd) := by
  rw [map_wrap, List.map_append, List.map_flatMap, List.flatMap_map, Cmd.map, List.map_map,
    List.map_map]
  rfl

variable {f}

theorem Derives.map (h : Derives n ts c) : Derives n (ts.map (.map f)) (c.map f) := by
  induction h with
  | line m _ ih =>
    rw [map_backs, List.map_append, List.map_replicate]
    exact .line m ih
  | list m _ _ ih ih' =>
    rw [Cmd.map, map_backs, List.map_append, List.map_append, List.map_replicate]
    exact .list m ih ih'
  | pipe _ ih => exact .pipe ih
  | bar _ _ ih ih' =>
    rw [List.map_append]
    exact .bar ih ih'
  | block rs _ ih =>
    rw [map_wrap, List.map_append, List.map_cons, List.map_cons, map_redirTokens]
    exact .block _ ih
  | exec rs items hlen =>
    rw [map_exec, List.map_append, map_redirTokens, map_itemTokens]
    exact .exec _ _ (by rwa [List.length_map])

/-! ## Back from the words -/

theorem Token.eq_of_map {k k' : Token α} (h : k.map f = k'.map f) (hk' : ∀ w, k' ≠ .word w) :
    k = k' := by
  cases k' with
  | word w => exact absurd rfl (hk' w)
  | _ => cases k <;> first | rfl | cases h

theorem Token.exists_word_of_map {k : Token α} {w : β} (h : k.map f = .word w) :
    ∃ v, k = .word v ∧ f v = w := by
  cases k with
  | word v => exact ⟨v, rfl, Token.word.inj h⟩
  | _ => cases h

theorem redirTokens_of_map {rs : List (Direction × β)} {us : List (Token α)}
    (h : us.map (.map f) = redirTokens rs) :
    ∃ rs', us = redirTokens rs' ∧ rs'.map (Prod.map id f) = rs := by
  induction rs generalizing us with
  | nil => exact ⟨[], List.map_eq_nil_iff.mp h, rfl⟩
  | cons r rs ih =>
    obtain ⟨d, w⟩ := r
    obtain ⟨k, us, rfl, hk, h⟩ := List.map_eq_cons_iff.mp h
    obtain ⟨k', us, rfl, hk', h⟩ := List.map_eq_cons_iff.mp h
    obtain ⟨rs', rfl, rfl⟩ := ih h
    obtain rfl : k = d.token :=
      Token.eq_of_map (hk.trans (map_token f d).symm) (by cases d <;> simp [Direction.token])
    obtain ⟨w', rfl, rfl⟩ := Token.exists_word_of_map hk'
    exact ⟨(d, w') :: rs', rfl, rfl⟩

theorem itemTokens_of_map {items : List (β × List (Direction × β))} {us : List (Token α)}
    (h : us.map (.map f) = itemTokens items) :
    ∃ items', us = itemTokens items' ∧
      items'.map (Prod.map f (List.map (Prod.map id f))) = items := by
  induction items generalizing us with
  | nil => exact ⟨[], List.map_eq_nil_iff.mp h, rfl⟩
  | cons item items ih =>
    obtain ⟨w, rs⟩ := item
    rw [itemTokens_cons] at h
    obtain ⟨k, us, rfl, hk, h⟩ := List.map_eq_cons_iff.mp h
    obtain ⟨us, vs, rfl, hrs, hitems⟩ := List.map_eq_append_iff.mp h
    obtain ⟨rs', rfl, rfl⟩ := redirTokens_of_map hrs
    obtain ⟨items', rfl, rfl⟩ := ih hitems
    obtain ⟨w', rfl, rfl⟩ := Token.exists_word_of_map hk
    exact ⟨(w', rs') :: items', (itemTokens_cons ..).symm, rfl⟩

theorem amps_of_map {m : ℕ} {us : List (Token α)}
    (h : us.map (Token.map f) = List.replicate m Token.amp) : us = List.replicate m Token.amp := by
  obtain ⟨hlen, hmem⟩ := List.eq_replicate_iff.mp h
  refine List.eq_replicate_iff.mpr ⟨by rwa [List.length_map] at hlen, fun k hk ↦ ?_⟩
  have hamp : k.map f = Token.map f .amp := hmem _ (List.mem_map_of_mem hk)
  exact Token.eq_of_map hamp (by simp)

theorem Derives.lift {ts : List (Token β)} {c : Cmd β} (h : Derives n ts c) :
    ∀ {us : List (Token α)}, us.map (.map f) = ts → ∃ d, Derives n us d ∧ d.map f = c := by
  induction h with
  | line m _ ih =>
    intro us h
    obtain ⟨us, vs, rfl, hus, hvs⟩ := List.map_eq_append_iff.mp h
    obtain ⟨d, hd, rfl⟩ := ih hus
    obtain rfl := amps_of_map hvs
    exact ⟨_, .line m hd, map_backs f m d⟩
  | list m _ _ ih ih' =>
    intro us h
    obtain ⟨us, vs, rfl, hus, hvs⟩ := List.map_eq_append_iff.mp h
    obtain ⟨us, amps, rfl, hus, hamps⟩ := List.map_eq_append_iff.mp hus
    obtain ⟨k, vs, rfl, hk, hvs⟩ := List.map_eq_cons_iff.mp hvs
    obtain ⟨d, hd, rfl⟩ := ih hus
    obtain ⟨d', hd', rfl⟩ := ih' hvs
    obtain rfl := amps_of_map hamps
    obtain rfl : k = .semi := Token.eq_of_map hk (by simp)
    exact ⟨_, .list m hd hd', by rw [Cmd.map, map_backs]⟩
  | pipe _ ih =>
    intro us h
    obtain ⟨d, hd, rfl⟩ := ih h
    exact ⟨d, .pipe hd, rfl⟩
  | bar _ _ ih ih' =>
    intro us h
    obtain ⟨us, vs, rfl, hus, hvs⟩ := List.map_eq_append_iff.mp h
    obtain ⟨k, vs, rfl, hk, hvs⟩ := List.map_eq_cons_iff.mp hvs
    obtain ⟨d, hd, rfl⟩ := ih hus
    obtain ⟨d', hd', rfl⟩ := ih' hvs
    obtain rfl : k = .bar := Token.eq_of_map hk (by simp)
    exact ⟨_, .bar hd hd', rfl⟩
  | block rs _ ih =>
    intro us h
    obtain ⟨us, vs, rfl, hus, hvs⟩ := List.map_eq_append_iff.mp h
    obtain ⟨k, us, rfl, hk, hus⟩ := List.map_eq_cons_iff.mp hus
    obtain ⟨k', vs, rfl, hk', hvs⟩ := List.map_eq_cons_iff.mp hvs
    obtain ⟨d, hd, rfl⟩ := ih hus
    obtain ⟨rs', rfl, rfl⟩ := redirTokens_of_map hvs
    obtain rfl : k = .lpar := Token.eq_of_map hk (by simp)
    obtain rfl : k' = .rpar := Token.eq_of_map hk' (by simp)
    exact ⟨_, .block rs' hd, map_wrap f d rs'⟩
  | exec rs items hlen =>
    intro us h
    obtain ⟨us, vs, rfl, hus, hvs⟩ := List.map_eq_append_iff.mp h
    obtain ⟨rs', rfl, rfl⟩ := redirTokens_of_map hus
    obtain ⟨items', rfl, rfl⟩ := itemTokens_of_map hvs
    rw [List.length_map] at hlen
    exact ⟨_, .exec rs' items' hlen, map_exec f rs' items'⟩

end Derivations

/-! ## A NUL behind each word -/

section Nulterminate

variable {s : CString} {cmd : Cmd Span}

theorem nulterminate_eq (cmd : Cmd Span) (mem : ℕ → UInt8) :
    nulterminate cmd mem = cmd.words.foldl (fun mem word ↦ update mem word.2 0) mem := by
  induction cmd generalizing mem with
  | exec argv => rfl
  | redir cmd file mode fd ih => rw [nulterminate, Cmd.words, List.foldl_append, ih]; rfl
  | pipe left right ihl ihr => rw [nulterminate, Cmd.words, List.foldl_append, ihr, ihl]
  | list left right ihl ihr => rw [nulterminate, Cmd.words, List.foldl_append, ihr, ihl]
  | back cmd ih => exact ih mem

theorem foldl_update_of_notMem {argv : List Span} {k : ℕ} (hk : ∀ w ∈ argv, w.2 ≠ k)
    (mem : ℕ → UInt8) : argv.foldl (fun mem word ↦ update mem word.2 0) mem k = mem k := by
  induction argv generalizing mem with
  | nil => rfl
  | cons w argv ih =>
    rw [List.foldl_cons, ih fun v hv ↦ hk v (List.mem_cons_of_mem _ hv)]
    exact update_of_ne (hk w List.mem_cons_self).symm _ _

theorem foldl_update_of_mem {argv : List Span} {k : ℕ} {mem : ℕ → UInt8}
    (h : mem k = 0 ∨ ∃ w ∈ argv, w.2 = k) :
    argv.foldl (fun mem word ↦ update mem word.2 0) mem k = 0 := by
  induction argv generalizing mem with
  | nil => simpa using h
  | cons v argv ih =>
    apply ih
    by_cases hv : v.2 = k
    · exact .inl (hv ▸ update_self ..)
    · rcases h with h0 | ⟨w, hw, hk⟩
      · exact .inl ((update_of_ne (Ne.symm hv) _ _).trans h0)
      · rcases List.mem_cons.mp hw with rfl | hw
        · exact absurd hk hv
        · exact .inr ⟨w, hw, hk⟩

theorem slice_eq_map {q e : ℕ} (he : e ≤ s.strlen) :
    slice s (q, e) = (List.range' q (e - q)).map s.get := by
  apply List.ext_getElem
  · simp only [slice, List.length_take, List.length_drop, List.length_map, List.length_range']
    unfold strlen at he
    omega
  · intro k hk hk'
    simp only [slice, List.length_take, List.length_drop] at hk
    simp only [slice, List.getElem_take, List.getElem_drop, List.getElem_map, List.getElem_range',
      Nat.one_mul]
    rw [CString.get, List.getD_eq_getElem]

theorem IsSpan.le_strlen {w : Span} (hw : IsSpan s w) (hne : w.1 < w.2) : w.2 ≤ s.strlen := by
  by_contra hgt
  obtain ⟨h0, -⟩ := hw.inside (w.2 - 1) (by omega) (by omega)
  exact h0 (get_eq_zero_of_le s (by omega))

theorem stringAt_nulterminate (hspan : ∀ w ∈ cmd.words, IsSpan s w) {w : Span}
    (hw : w ∈ cmd.words) : stringAt s.strlen (nulterminate cmd s.get) w.1 = slice s w := by
  obtain ⟨q, e⟩ := w
  have hword := hspan _ hw
  have hkeep : ∀ k ∈ List.range' q (e - q), nulterminate cmd s.get k = s.get k := by
    intro k hk
    rw [List.mem_range'_1] at hk
    obtain ⟨h0, hin⟩ := hword.inside k hk.1 (by simp only; omega)
    rw [nulterminate_eq]
    refine foldl_update_of_notMem (fun v hv heq ↦ ?_) _
    -- `k` would be behind another word
    rcases heq ▸ (hspan v hv).behind with hz | hout
    · exact h0 hz
    · rw [hin] at hout
      cases hout
  have hnul : nulterminate cmd s.get e = 0 := by
    rw [nulterminate_eq]
    exact foldl_update_of_mem (.inr ⟨_, hw, rfl⟩)
  have hle : q ≤ e := hword.le
  have hin : q = e ∨ e ≤ s.strlen := hle.eq_or_lt.imp_right hword.le_strlen
  have hsplit : s.strlen - q = e - q + (s.strlen - e) := by omega
  have hslice : (List.range' q (e - q)).map (nulterminate cmd s.get) = slice s (q, e) := by
    rw [List.map_congr_left hkeep]
    rcases hin with rfl | hin
    · simp [slice]
    · exact (slice_eq_map hin).symm
  have hpos : ∀ c ∈ slice s (q, e), decide (c ≠ 0) = true := by
    intro c hc
    rw [← hslice, List.map_congr_left hkeep] at hc
    obtain ⟨k, hk, rfl⟩ := List.mem_map.mp hc
    rw [List.mem_range'_1] at hk
    exact decide_eq_true (hword.inside k hk.1 (by simp only; omega)).1
  have hrest : ((List.range' e (s.strlen - e)).map (nulterminate cmd s.get)).takeWhile
      (fun c ↦ decide (c ≠ 0)) = [] := by
    cases s.strlen - e with
    | zero => rfl
    | succ m => simp [List.range'_succ, hnul]
  rw [stringAt, hsplit, ← List.range'_append_1, Nat.add_sub_of_le hle, List.map_append, hslice,
    List.takeWhile_append_of_pos hpos, hrest, List.append_nil]

end Nulterminate

/-! ## The parser accepts exactly its grammar -/

/-- The tokens that a cursor at the start sees, as far as `parsecmd` is concerned. -/
theorem parsecmd_eq_ok_iff {s : CString} {fuel : ℕ} {r : Cmd Span × (ℕ → UInt8)} :
    parsecmd fuel s = .ok r ↔ ∃ c j, parseline s fuel 0 = .ok (c, j) ∧ s.skip j = s.strlen ∧
      r = (c, nulterminate c s.get) := by
  rw [parsecmd, Outcome.bind_eq_ok]
  constructor
  · rintro ⟨⟨c, j⟩, hline, hok⟩
    refine ⟨c, j, hline, ?_⟩
    by_cases hend : s.skip j = s.strlen
    · cases (if_neg (not_not.mpr hend)).symm.trans hok
      exact ⟨hend, rfl⟩
    · cases (if_pos hend).symm.trans hok
  · rintro ⟨c, j, hline, hend, rfl⟩
    exact ⟨(c, j), hline, if_neg (not_not.mpr hend)⟩

theorem map_words_congr {α β : Type*} {c : Cmd α} {f g : α → β} (h : ∀ w ∈ c.words, f w = g w) :
    c.map f = c.map g := by
  induction c with
  | exec argv => exact congrArg Cmd.exec (List.map_congr_left h)
  | redir cmd file mode fd ih =>
    rw [Cmd.map, Cmd.map, ih fun w hw ↦ h w (List.mem_append_left _ hw),
      h file (List.mem_append_right _ List.mem_cons_self)]
  | pipe left right ihl ihr =>
    rw [Cmd.map, Cmd.map, ihl fun w hw ↦ h w (List.mem_append_left _ hw),
      ihr fun w hw ↦ h w (List.mem_append_right _ hw)]
  | list left right ihl ihr =>
    rw [Cmd.map, Cmd.map, ihl fun w hw ↦ h w (List.mem_append_left _ hw),
      ihr fun w hw ↦ h w (List.mem_append_right _ hw)]
  | back cmd ih => rw [Cmd.map, Cmd.map, ih h]

/-- A tree that is derived is read back as the command that it stands for. -/
theorem read_eq {s : CString} {c : Cmd Span} {ts : List (Token Span)} (hat : At s 0 ts)
    (hderiv : Derives .line ts c) : read s (c, nulterminate c s.get) = c.map (slice s) :=
  map_words_congr fun _ hw ↦
    stringAt_nulterminate (fun _ hv ↦ hat.isSpan_of_mem (hderiv.word_mem hv)) hw

/-- **The parser accepts exactly its grammar.** With fuel for its tokens `parsecmd` comes to an end,
and it returns a tree exactly if the tokens are derived from `line`; the tree is then the one of the
derivation. -/
theorem parsecmd_iff_derives (s : CString) (fuel : ℕ) (hfuel : 4 * (tokens s).length + 4 ≤ fuel) :
    parsecmd fuel s ≠ .running ∧ ∀ c : Cmd (List UInt8),
      (∃ r, parsecmd fuel s = .ok r ∧ read s r = c) ↔ Derives .line (tokens s) c := by
  have hat := at_zero s
  rw [tokens, List.length_map] at hfuel
  refine ⟨?_, fun c ↦ ⟨?_, ?_⟩⟩
  · refine Outcome.bind_ne_running (At.run_terminates s .line fuel hat hfuel) fun r _ ↦ ?_
    simp only
    split_ifs <;> simp
  · rintro ⟨r, hok, rfl⟩
    obtain ⟨c, j, hline, hend, rfl⟩ := parsecmd_eq_ok_iff.mp hok
    obtain ⟨us, vs, hsplit, hderiv, hj⟩ := At.run_sound s .line fuel hat hline
    obtain rfl := hj.skip_eq_iff.mp hend
    rw [List.append_nil] at hsplit
    rw [← hsplit] at hderiv
    rw [read_eq hat hderiv]
    exact hderiv.map
  · intro hderiv
    obtain ⟨d, hd, rfl⟩ := hderiv.lift rfl
    rw [← List.append_nil (tokensAt s 0)] at hat hfuel
    obtain ⟨j, hline, hj⟩ := At.run_complete hd hat (.inl rfl) hfuel
    rw [List.append_nil] at hat
    exact ⟨_, parsecmd_eq_ok_iff.mpr ⟨d, j, hline, hj.skip_eq_iff.mpr rfl, rfl⟩, read_eq hat hd⟩

/-- `(a>b)|c&` -/
def blockIntoPipe : CString :=
  ⟨['(', 'a', '>', 'b', ')', '|', 'c', '&'].map Char.toUInt8, by decide⟩

def blockIntoPipeCmd : Cmd (List UInt8) :=
  .back (.pipe (.redir (.exec [['a'.toUInt8]]) ['b'.toUInt8] (oWronly ||| oCreate) 1)
    (.exec [['c'.toUInt8]]))

theorem parsecmd_iff_derives_blockIntoPipe :
    4 * (tokens blockIntoPipe).length + 4 ≤ 36 ∧
      Derives .line (tokens blockIntoPipe) blockIntoPipeCmd := by
  have hfuel : 4 * (tokens blockIntoPipe).length + 4 ≤ 36 := by decide +kernel
  have hread : (match parsecmd 36 blockIntoPipe with
      | .ok r => some (read blockIntoPipe r)
      | _ => none) = some blockIntoPipeCmd := by decide +kernel
  obtain ⟨-, hiff⟩ := parsecmd_iff_derives blockIntoPipe 36 hfuel
  refine ⟨hfuel, (hiff _).mp ?_⟩
  cases hrun : parsecmd 36 blockIntoPipe with
  | ok r =>
    rw [hrun] at hread
    exact ⟨r, rfl, Option.some.inj hread⟩
  | panic m =>
    rw [hrun] at hread
    cases hread
  | running =>
    rw [hrun] at hread
    cases hread

/-! ## The words survive -/

/-- Each word of the tokens has been delimited by a call of `gettoken`. -/
theorem At.exists_gettoken {s : CString} {i : ℕ} {ts : List (Token Span)} (h : At s i ts) {w : Span}
    (hw : .word w ∈ ts) :
    ∃ j, (gettoken s j).ret = 'a'.toUInt8 ∧ ((gettoken s j).q, (gettoken s j).eq) = w ∧
      w.2 ≤ s.strlen := by
  induction ts generalizing i with
  | nil => cases hw
  | cons k ts ih =>
    rcases List.mem_cons.mp hw with rfl | hmem
    · refine ⟨i, h.ret_eq, h.word_eq, ?_⟩
      rw [← h.word_eq]
      exact (le_skip s _).trans h.next.le
    · exact ih h.next hmem

/-- **Words survive in-place termination.** After `nulterminate` each argument and each file name of
an accepted command is, as a string, the text that a call of `gettoken` has delimited, and no byte
behind the NUL of the input is written to, whatever is there. -/
theorem nulterminate_words (s : CString) (fuel : ℕ) (r : Cmd Span × (ℕ → UInt8))
    (h : parsecmd fuel s = .ok r) :
    (∀ w ∈ r.1.words, stringAt s.strlen r.2 w.1 = slice s w ∧
      ∃ i, (gettoken s i).ret = 'a'.toUInt8 ∧ ((gettoken s i).q, (gettoken s i).eq) = w) ∧
    ∀ mem k, s.strlen < k → nulterminate r.1 mem k = mem k := by
  obtain ⟨c, j, hline, hend, rfl⟩ := parsecmd_eq_ok_iff.mp h
  have hat := at_zero s
  obtain ⟨us, vs, hsplit, hderiv, -⟩ := At.run_sound s .line fuel hat hline
  rw [hsplit] at hat
  have hword {w : Span} (hw : w ∈ c.words) : .word w ∈ us ++ vs :=
    List.mem_append_left _ (hderiv.word_mem hw)
  constructor
  · intro w hw
    obtain ⟨i, hret, hqe, -⟩ := hat.exists_gettoken (hword hw)
    exact ⟨stringAt_nulterminate (fun v hv ↦ hat.isSpan_of_mem (hword hv)) hw, i, hret, hqe⟩
  · intro mem k hk
    rw [nulterminate_eq]
    refine foldl_update_of_notMem (fun w hw ↦ ?_) mem
    obtain ⟨-, -, -, hle⟩ := hat.exists_gettoken (hword hw)
    exact (hle.trans_lt hk).ne

theorem nulterminate_words_blockIntoPipe : ∃ r, parsecmd 36 blockIntoPipe = .ok r ∧
    ∀ w ∈ r.1.words, stringAt blockIntoPipe.strlen r.2 w.1 = slice blockIntoPipe w := by
  have hok : (match parsecmd 36 blockIntoPipe with
      | .ok _ => true
      | _ => false) = true := by decide +kernel
  cases hrun : parsecmd 36 blockIntoPipe with
  | ok r => exact ⟨r, rfl, fun w hw ↦ ((nulterminate_words blockIntoPipe 36 r hrun).1 w hw).1⟩
  | panic m =>
    rw [hrun] at hok
    cases hok
  | running =>
    rw [hrun] at hok
    cases hok

end SistemasOperacionais.Xv6.Shell
