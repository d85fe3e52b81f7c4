import SistemasOperacionais.Diretorios.Pesquisa

/-!
# The directory streams of the search

`pesquisa` closes its stream when it has found the name and when it has come to the end of the
directory. It does not when a recursive call has found the name, so of a match below all the streams
on the way stay open.
-/

namespace SistemasOperacionais.Diretorios

def Evento.opendir? : Evento → Option ℕ
  | .opendir h => some h
  | _ => none

def Evento.closedir? : Evento → Option ℕ
  | .closedir h => some h
  | _ => none

def Saida.abertos (r : Saida) : List ℕ := r.eventos.filterMap Evento.opendir?

def Saida.fechados (r : Saida) : List ℕ := r.eventos.filterMap Evento.closedir?

/-- Each stream that has been opened has been closed once. -/
def Saida.Equilibrada (r : Saida) : Prop := ∀ h ∈ r.abertos, r.fechados.count h = 1

/-- The call of `pesquisa` on a sub-directory opens streams from `n` on. -/
structure Subfluxos (arg : Nome) (n : ℕ) (l : List Visita) (r : Saida) : Prop where
  prox : n ≤ r.prox
  abre : r.abertos = List.range' n (r.prox - n)
  fecha : ∀ k ∈ r.fechados, n ≤ k
  /-- Without a match it closes all that it has opened. -/
  fim : varre arg l = some none → r.fechados.Perm r.abertos

/-- The loop over the directory `path`, whose stream is `h`, opens streams from `n` on. -/
structure Fluxos (arg path : Nome) (h n : ℕ) (l : List Visita) (r : Saida) : Prop where
  prox : n ≤ r.prox
  abre : r.abertos = List.range' n (r.prox - n)
  fecha : ∀ k ∈ r.fechados, k = h ∨ n ≤ k
  /-- Without a match, or with one beside it, it closes its own stream and all that it has
  opened. -/
  perto : ∀ o, varre arg l = some o → (∀ c, o = some c → c = junta path arg) →
    r.fechados.Perm (h :: r.abertos)
  /-- With a match below it does not close its own. -/
  longe : ∀ c, varre arg l = some (some c) → c ≠ junta path arg → h ∉ r.fechados

section Fluxos

variable {arg path nome c : Nome} {h n : ℕ} {l ld : List Visita} {r : Saida} {k : ℕ → Saida}

theorem fluxos_fim (arg raiz : Nome) : Fluxos arg path h n []
    ⟨some false, (if path = raiz then [.falha arg] else []) ++ [.closedir h], n⟩ := by
  have habre : ((if path = raiz then [Evento.falha arg] else []) ++ [Evento.closedir h]).filterMap
      Evento.opendir? = [] := by
    split_ifs <;> rfl
  have hfecha : ((if path = raiz then [Evento.falha arg] else []) ++ [Evento.closedir h]).filterMap
      Evento.closedir? = [h] := by
    split_ifs <;> rfl
  refine ⟨le_rfl, ?_, ?_, fun o _ _ ↦ ?_, fun c hv ↦ ?_⟩
  · rw [Saida.abertos, habre, Nat.sub_self, List.range'_zero]
  · rw [Saida.fechados, hfecha]
    exact fun j hj ↦ .inl (List.mem_singleton.mp hj)
  · rw [Saida.fechados, hfecha, Saida.abertos, habre]
  · cases hv

theorem fluxos_achou (dir : Bool) :
    Fluxos arg path h n (⟨junta path arg, arg, dir⟩ :: l) (encontra path arg h n) := by
  by_cases hc : Cabe (junta path arg)
  · rw [encontra, if_pos hc]
    refine ⟨le_rfl, ?_, fun j hj ↦ .inl (List.mem_singleton.mp hj), fun o _ _ ↦ .refl _, ?_⟩
    · rw [Nat.sub_self]
      rfl
    · intro c hv hne
      rw [varre_achou, if_pos hc] at hv
      exact absurd (Option.some.inj (Option.some.inj hv)).symm hne
  · rw [encontra, if_neg hc]
    refine ⟨le_rfl, ?_, fun j hj ↦ absurd hj List.not_mem_nil, fun o hv ↦ ?_, fun c hv ↦ ?_⟩
    · rw [Nat.sub_self]
      rfl
    · rw [varre_achou, if_neg hc] at hv
      cases hv
    · rw [varre_achou, if_neg hc] at hv
      cases hv

theorem subfluxos_perror (arg : Nome) (n : ℕ) (l : List Visita) :
    Subfluxos arg n l ⟨some false, [.perror], n⟩ := by
  refine ⟨le_rfl, ?_, fun j hj ↦ absurd hj List.not_mem_nil, fun _ ↦ .refl _⟩
  rw [Nat.sub_self]
  rfl

theorem Fluxos.abertura (hr : Fluxos arg path n (n + 1) l r) :
    Subfluxos arg n l (abertura n r) := by
  have hprox : n + 1 ≤ r.prox := hr.prox
  have habre : (Diretorios.abertura n r).abertos = n :: r.abertos := rfl
  refine ⟨by change n ≤ r.prox; omega, ?_, fun j hj ↦ ?_, fun hv ↦ ?_⟩
  · change (Diretorios.abertura n r).abertos = List.range' n (r.prox - n)
    have hsub : r.prox - n = r.prox - (n + 1) + 1 := by omega
    rw [habre, hr.abre, hsub, List.range'_succ]
  · rcases hr.fecha j hj with rfl | hle
    · exact le_rfl
    · omega
  · rw [habre]
    exact hr.perto none hv (by simp)

theorem Fluxos.desce (hn : nome ≠ arg) (hlt : h < n)
    (hld : ∀ v ∈ ld, v.nome = arg → v.caminho ≠ junta path arg)
    (hret : r.retorno = (varre arg ld).map Option.isSome) (hr : Subfluxos arg n ld r)
    (hk : ∀ m, h < m → Fluxos arg path h m l (k m)) :
    Fluxos arg path h n (⟨junta path nome, nome, true⟩ :: (ld ++ l))
      (desce (junta path nome) n r k) := by
  have hprox := hr.prox
  have hk := hk r.prox (hlt.trans_le hprox)
  have hkprox := hk.prox
  have hmem : h ∉ r.fechados := fun hj ↦ absurd (hr.fecha h hj) (by omega)
  rcases desce_cases (n := n) (k := k) (l := l) (c := junta path nome) hn hret with
    ⟨hc, hv, hwalk, heq⟩ | ⟨hc, hv, hwalk, heq⟩ | ⟨hc, hwalk, heq⟩
  · -- nothing below: both runs are complete
    have ha : (Diretorios.desce (junta path nome) n r k).abertos =
        r.abertos ++ (k r.prox).abertos := by
      rw [heq]
      exact List.filterMap_append ..
    have hf : (Diretorios.desce (junta path nome) n r k).fechados =
        r.fechados ++ (k r.prox).fechados := by
      rw [heq]
      exact List.filterMap_append ..
    have hp : (Diretorios.desce (junta path nome) n r k).prox = (k r.prox).prox := by rw [heq]
    refine ⟨by omega, ?_, fun j hj ↦ ?_, fun o ho hnear ↦ ?_, fun c ho hne ↦ ?_⟩
    · have hsplit : (k r.prox).prox - n = (r.prox - n) + ((k r.prox).prox - r.prox) := by omega
      have hstart : n + 1 * (r.prox - n) = r.prox := by omega
      rw [ha, hp, hr.abre, hk.abre, hsplit, ← List.range'_append, hstart]
    · rw [hf] at hj
      rcases List.mem_append.mp hj with hj | hj
      · exact .inr (hr.fecha j hj)
      · exact (hk.fecha j hj).imp_right hprox.trans
    · rw [hwalk] at ho
      rw [ha, hf]
      exact ((hr.fim hv).append (hk.perto o ho hnear)).trans List.perm_middle
    · rw [hwalk] at ho
      rw [hf]
      intro hj
      rcases List.mem_append.mp hj with hj | hj
      · exact hmem hj
      · exact hk.longe c ho hne hj
  · -- the run ends below, with a match or at a path that does not fit
    rw [heq]
    refine ⟨hprox, hr.abre, fun j hj ↦ .inr (hr.fecha j hj), fun o ho hnear ↦ ?_, fun _ _ _ ↦ hmem⟩
    rw [hwalk] at ho
    cases o with
    | none => exact absurd ho hv
    | some c =>
      obtain ⟨v, hvmem, hnome, hcam⟩ := exists_of_varre ho
      exact absurd (hnear c rfl) (hcam ▸ hld v hvmem hnome)
  · rw [heq]
    refine ⟨le_rfl, ?_, fun j hj ↦ absurd hj List.not_mem_nil, fun o ho ↦ ?_, fun c ho ↦ ?_⟩
    · rw [Nat.sub_self]
      rfl
    · rw [hwalk] at ho
      cases ho
    · rw [hwalk] at ho
      cases ho

end Fluxos

theorem fluxos_laco (arg raiz : Nome) (p : Pasta) (path : Nome) (h n : ℕ) (hlt : h < n) :
    Fluxos arg path h n (preordem path p) (laco arg raiz p path h false n) := by
  refine (laco_induct (P := fun path h n l r ↦ h < n →
    r.retorno = (varre arg l).map Option.isSome ∧ Fluxos arg path h n l r) ?_ ?_ ?_ ?_ ?_
    p path h n hlt).2
  · exact fun path h n _ ↦ ⟨rfl, fluxos_fim arg raiz⟩
  · intro path h n dir l _
    have hachou : Percorre arg raiz path (⟨junta path arg, arg, dir⟩ :: l)
        (encontra path arg h n) := percorre_achou dir
    exact ⟨hachou.retorno, fluxos_achou dir⟩
  · intro path h n nome l r hn hr hlt
    obtain ⟨hret, hr⟩ := hr hlt
    rw [varre_outra hn]
    refine ⟨hret, hr.prox, hr.abre, hr.fecha, ?_, ?_⟩
    · rw [varre_outra hn]
      exact hr.perto
    · rw [varre_outra hn]
      exact hr.longe
  · intro path h n nome l k hn hk hlt
    change _ = (varre arg (_ :: ([] ++ l))).map _ ∧ Fluxos arg path h n (_ :: ([] ++ l)) _
    exact ⟨retorno_desce hn rfl (hk n hlt).1, Fluxos.desce hn hlt (by simp) rfl
      (subfluxos_perror arg n []) fun m hm ↦ (hk m hm).2⟩
  · intro path h n nome ld r l k hn hld hr hk hlt
    obtain ⟨hret, hr⟩ := hr (Nat.lt_succ_self n)
    have hprox : n + 1 ≤ r.prox := hr.prox
    exact ⟨retorno_desce hn hret (hk r.prox (by omega)).1,
      Fluxos.desce hn hlt hld hret hr.abertura fun m hm ↦ (hk m hm).2⟩

/-- **A search that returns has closed what it has opened exactly when its match, if it has one, is
in the directory where it has started.** -/
theorem equilibrada_iff (arg : Nome) (p : Pasta) :
    ((procura arg p).retorno ≠ none → (procura arg p).Equilibrada) ↔
      ∀ c, varre arg (preordem ponto p) = some (some c) → c = junta ponto arg := by
  have hflux := fluxos_laco arg ponto p ponto 0 1 Nat.one_pos
  have hsub := hflux.abertura
  have hret := (percorre_procura arg p).retorno
  have habre : (procura arg p).abertos = 0 :: (laco arg ponto p ponto 0 false 1).abertos := rfl
  have hfecha : (procura arg p).fechados = (laco arg ponto p ponto 0 false 1).fechados := rfl
  constructor
  · intro hbal c hc
    by_contra hne
    have hcount := hbal (by rw [hret, hc]; simp) 0 (habre ▸ List.mem_cons_self)
    rw [hfecha, List.count_eq_zero_of_not_mem (hflux.longe c hc hne)] at hcount
    cases hcount
  · intro hnear hne h hh
    cases hv : varre arg (preordem ponto p) with
    | none => exact absurd (by rw [hret, hv]; rfl) hne
    | some o =>
      have hperm := hflux.perto o hv fun c ho ↦ hnear c (by rw [hv, ho])
      have hnodup : (procura arg p).abertos.Nodup := by
        rw [show (procura arg p).abertos = _ from hsub.abre]
        exact List.nodup_range'
      rw [hfecha, hperm.count_eq, ← habre]
      exact List.count_eq_one_of_mem hnodup hh

/-- A directory with the file `x` in it. -/
def umaDentro : Pasta := .diretorio nomeD true (.outra [0x78] .fim) .fim

theorem not_equilibrada : (procura [0x78] umaDentro).retorno = some true ∧
    ¬(procura [0x78] umaDentro).Equilibrada := by
  refine ⟨by decide, ?_⟩
  rw [Saida.Equilibrada]
  decide

end SistemasOperacionais.Diretorios
