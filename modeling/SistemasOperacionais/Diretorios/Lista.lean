import SistemasOperacionais.Diretorios.Pesquisa

/-!
# The recursive listing: `lista_em_diretorio.c`

This `pesquisa` walks through the tree with the current directory of the process: it opens `.`, goes
into each sub-directory with `chdir`, calls itself, and comes back with `chdir("..")`. The results
of `chdir` are not looked at. Where a sub-directory cannot be entered, the recursive call lists the
same directory again, and comes to the same sub-directory.

The current directory is the list of the directories from it up to the root of the file system, each
with its entries. Every directory can be opened once it has been entered, and `dirpont` is `NULL` at
the start of a call. What is printed is left out. The recursion takes fuel.
-/

namespace SistemasOperacionais.Diretorios.Lista

/-- The current directory and those above it. -/
abbrev Cwd := List (Nome × Pasta)

/-- The entry of a sub-directory, by its name: whether it can be entered, and what is in it. -/
def busca (nome : Nome) : Pasta → Option (Bool × Pasta)
  | .fim => none
  | .outra _ resto => busca nome resto
  | .diretorio nome' entra dentro resto =>
    if nome'.1 = nome then some (entra, dentro) else busca nome resto

def atual : Cwd → Pasta
  | [] => .fim
  | (_, p) :: _ => p

def chdir (nome : Nome) (cwd : Cwd) : Cwd :=
  match busca nome (atual cwd) with
  | some (true, dentro) => (nome, dentro) :: cwd
  | _ => cwd

/-- `chdir("..")`; the root of the file system is above itself. -/
def chdirPai : Cwd → Cwd
  | _ :: d :: acima => d :: acima
  | cwd => cwd

/-- What a call leaves: the current directory, and for each call that has returned the current
directory before and after it. -/
structure Saida where
  cwd : Cwd
  niveis : List (Cwd × Cwd)

def retorna (antes : Cwd) (s : Saida) : Saida := ⟨s.cwd, (antes, s.cwd) :: s.niveis⟩

/-- The loop of `pesquisa` over the entries that its stream still has; `none` if the fuel runs
out. -/
def laco : ℕ → Pasta → Cwd → Option Saida
  | 0, _, _ => none
  | _ + 1, .fim, cwd => some ⟨cwd, []⟩
  | fuel + 1, .outra _ resto, cwd => laco fuel resto cwd
  | fuel + 1, .diretorio nome _ _ resto, cwd =>
    -- of the entry only the name is used
    let dentro := chdir nome.1 cwd
    (laco fuel (atual dentro) dentro).bind fun s ↦
      (laco fuel resto (chdirPai s.cwd)).map fun s' ↦
        ⟨s'.cwd, (retorna dentro s).niveis ++ s'.niveis⟩

def pesquisa (fuel : ℕ) (cwd : Cwd) : Option Saida := (laco fuel (atual cwd) cwd).map (retorna cwd)

/-- It terminates, and every call leaves the current directory as it was. -/
def Volta (cwd : Cwd) : Prop :=
  ∃ fuel s, pesquisa fuel cwd = some s ∧ s.cwd = cwd ∧ ∀ nivel ∈ s.niveis, nivel.2 = nivel.1

/-! ## Trees -/

def dirs : Pasta → List Nome
  | .fim => []
  | .outra _ resto => dirs resto
  | .diretorio nome _ _ resto => nome.1 :: dirs resto

/-- No two sub-directories of a directory have the same name. -/
def Distintos : Pasta → Prop
  | .fim => True
  | .outra _ resto => Distintos resto
  | .diretorio nome _ dentro resto => nome.1 ∉ dirs resto ∧ Distintos dentro ∧ Distintos resto

def Arvore : Type := { p : Pasta // Distintos p }

/-- Every sub-directory can be entered, at every depth. -/
def TodasEntram : Pasta → Prop
  | .fim => True
  | .outra _ resto => TodasEntram resto
  | .diretorio _ entra dentro resto => entra = true ∧ TodasEntram dentro ∧ TodasEntram resto

/-- The entries of `q` are entries of `p`. -/
def Parte (p : Pasta) : Pasta → Prop
  | .fim => True
  | .outra _ resto => Parte p resto
  | .diretorio nome entra dentro resto =>
    busca nome.1 p = some (entra, dentro) ∧ Distintos dentro ∧ Parte p resto

/-- The number of steps for the entries, at every depth. -/
def tamanho : Pasta → ℕ
  | .fim => 1
  | .outra _ resto => tamanho resto + 1
  | .diretorio _ _ dentro resto => tamanho dentro + tamanho resto + 1

theorem Parte.cons {p q : Pasta} (h : Parte p q) (nome : NomeDir) (entra : Bool) (dentro : Pasta)
    (hn : nome.1 ∉ dirs q) : Parte (.diretorio nome entra dentro p) q := by
  induction q with
  | fim => trivial
  | outra _ resto ih => exact ih h hn
  | diretorio nome' entra' dentro' resto _ ih =>
    obtain ⟨hbusca, hdist, hresto⟩ := h
    have hne := List.ne_of_not_mem_cons hn
    exact ⟨(if_neg hne).trans hbusca, hdist, ih hresto (List.not_mem_of_not_mem_cons hn)⟩

theorem Parte.outra {p q : Pasta} (h : Parte p q) (nome : Nome) : Parte (.outra nome p) q := by
  induction q with
  | fim => trivial
  | outra _ resto ih => exact ih h
  | diretorio nome' entra' dentro' resto _ ih => exact ⟨h.1, h.2.1, ih h.2.2⟩

theorem parte_self {p : Pasta} (h : Distintos p) : Parte p p := by
  induction p with
  | fim => trivial
  | outra nome resto ih => exact Parte.outra (ih h) nome
  | diretorio nome entra dentro resto _ ih =>
    obtain ⟨hn, hdentro, hresto⟩ := h
    exact ⟨if_pos rfl, hdentro, (ih hresto).cons nome entra dentro hn⟩

/-! ## Runs -/

section Runs

variable {p q : Pasta} {nome : Nome} {acima cwd : Cwd} {fuel : ℕ} {s : Saida}

theorem chdir_of_entra {d : NomeDir} {dentro : Pasta} (h : busca d.1 p = some (true, dentro)) :
    chdir d.1 ((nome, p) :: acima) = (d.1, dentro) :: (nome, p) :: acima := by
  rw [chdir, atual, h]

theorem chdir_of_not_entra {d : NomeDir} {dentro : Pasta} (h : busca d.1 p = some (false, dentro)) :
    chdir d.1 ((nome, p) :: acima) = (nome, p) :: acima := by
  rw [chdir, atual, h]

/-- **Where all can be entered, a loop that ends has come back.** -/
theorem laco_restores (hp : Parte p q) (hq : TodasEntram q)
    (h : laco fuel q ((nome, p) :: acima) = some s) :
    s.cwd = (nome, p) :: acima ∧ ∀ nivel ∈ s.niveis, nivel.2 = nivel.1 := by
  induction fuel generalizing p q nome acima s with
  | zero => cases h
  | succ fuel ih =>
    cases q with
    | fim =>
      obtain rfl := Option.some.inj h
      exact ⟨rfl, fun nivel hn ↦ absurd hn List.not_mem_nil⟩
    | outra _ resto => exact ih (q := resto) hp hq h
    | diretorio d entra dentro resto =>
      obtain ⟨hbusca, hdist, hresto⟩ := hp
      obtain ⟨rfl, hdentro, hqresto⟩ := hq
      rw [laco, chdir_of_entra hbusca] at h
      obtain ⟨s₁, h₁, h⟩ := Option.bind_eq_some_iff.mp h
      obtain ⟨s₂, h₂, rfl⟩ := Option.map_eq_some_iff.mp h
      obtain ⟨hcwd₁, hniv₁⟩ := ih (parte_self hdist) hdentro h₁
      rw [hcwd₁] at h₂
      obtain ⟨hcwd₂, hniv₂⟩ := ih hresto hqresto h₂
      refine ⟨hcwd₂, fun nivel hn ↦ ?_⟩
      rcases List.mem_append.mp hn with hn | hn
      · rcases List.mem_cons.mp hn with rfl | hn
        · exact hcwd₁
        · exact hniv₁ nivel hn
      · exact hniv₂ nivel hn

/-- **Where all can be entered, the loop ends.** -/
theorem laco_terminates (hp : Parte p q) (hq : TodasEntram q) (hf : tamanho q ≤ fuel) :
    ∃ s, laco fuel q ((nome, p) :: acima) = some s := by
  induction fuel generalizing p q nome acima with
  | zero =>
    cases q <;> simp [tamanho] at hf
  | succ fuel ih =>
    cases q with
    | fim => exact ⟨_, rfl⟩
    | outra _ resto => exact ih (q := resto) hp hq (Nat.le_of_succ_le_succ hf)
    | diretorio d entra dentro resto =>
      obtain ⟨hbusca, hdist, hresto⟩ := hp
      obtain ⟨rfl, hdentro, hqresto⟩ := hq
      rw [tamanho] at hf
      obtain ⟨s₁, h₁⟩ : ∃ s₁, laco fuel dentro ((d.1, dentro) :: (nome, p) :: acima) = some s₁ :=
        ih (parte_self hdist) hdentro (by omega)
      obtain ⟨s₂, h₂⟩ : ∃ s₂, laco fuel resto ((nome, p) :: acima) = some s₂ :=
        ih hresto hqresto (by omega)
      have hback : chdirPai s₁.cwd = (nome, p) :: acima := by
        rw [(laco_restores (parte_self hdist) hdentro h₁).1]
        rfl
      rw [laco, chdir_of_entra hbusca]
      refine ⟨_, Option.bind_eq_some_iff.mpr ⟨s₁, h₁, Option.map_eq_some_iff.mpr ⟨s₂, ?_, rfl⟩⟩⟩
      rw [hback]
      exact h₂

/-- **Where one cannot be entered, the loop does not end.** The call in its place lists the
directory `p` again, and so comes to it again. -/
theorem laco_eq_none (hdist : Distintos p) (hp : Parte p q) (hbad : ¬TodasEntram p)
    (hq : ¬TodasEntram q) : laco fuel q ((nome, p) :: acima) = none := by
  induction fuel generalizing p q nome acima with
  | zero => rfl
  | succ fuel ih =>
    cases q with
    | fim => exact absurd trivial hq
    | outra _ resto => exact ih (q := resto) hdist hp hbad hq
    | diretorio d entra dentro resto =>
      obtain ⟨hbusca, hdentro, hresto⟩ := hp
      cases entra with
      | false =>
        have hagain : laco fuel p ((nome, p) :: acima) = none :=
          ih hdist (parte_self hdist) hbad hbad
        rw [laco, chdir_of_not_entra hbusca]
        exact Option.bind_eq_none_iff.mpr fun s hs ↦ absurd (hagain.symm.trans hs) (by simp)
      | true =>
        rw [laco, chdir_of_entra hbusca]
        refine Option.bind_eq_none_iff.mpr fun s hs ↦ ?_
        by_cases hin : TodasEntram dentro
        · -- the one that cannot be entered comes later
          have hlater : ¬TodasEntram resto := fun hr ↦ hq ⟨rfl, hin, hr⟩
          rw [(laco_restores (parte_self hdentro) hin hs).1]
          exact Option.map_eq_none_iff.mpr (ih hdist hresto hbad hlater)
        · have hnone : laco fuel dentro ((d.1, dentro) :: (nome, p) :: acima) = none :=
            ih hdentro (parte_self hdentro) hin hin
          exact absurd (hnone.symm.trans hs) (by simp)

end Runs

/-- **The listing ends and comes back exactly when every sub-directory can be entered.** -/
theorem volta_iff (t : Arvore) (nome : Nome) (acima : Cwd) :
    Volta ((nome, t.1) :: acima) ↔ TodasEntram t.1 := by
  constructor
  · rintro ⟨fuel, s, hs, -⟩
    by_contra hbad
    obtain ⟨s', hs', -⟩ := Option.map_eq_some_iff.mp hs
    have hnone : laco fuel t.1 ((nome, t.1) :: acima) = none :=
      laco_eq_none t.2 (parte_self t.2) hbad hbad
    exact absurd (hnone.symm.trans hs') (by simp)
  · intro hall
    obtain ⟨s, hs⟩ : ∃ s, laco (tamanho t.1) t.1 ((nome, t.1) :: acima) = some s :=
      laco_terminates (parte_self t.2) hall le_rfl
    obtain ⟨hcwd, hniv⟩ := laco_restores (parte_self t.2) hall hs
    refine ⟨_, _, Option.map_eq_some_iff.mpr ⟨s, hs, rfl⟩, hcwd, fun nivel hn ↦ ?_⟩
    rcases List.mem_cons.mp hn with rfl | hn
    · exact hcwd
    · exact hniv nivel hn

/-- One sub-directory, which cannot be entered. -/
def umaFechada : Pasta := .diretorio nomeD false .fim .fim

theorem not_volta_umaFechada : ¬Volta [(ponto, umaFechada)] := by
  rintro ⟨fuel, s, hs, -⟩
  obtain ⟨s', hs', -⟩ := Option.map_eq_some_iff.mp hs
  have hdist : Distintos umaFechada := ⟨List.not_mem_nil, trivial, trivial⟩
  have hbad : ¬TodasEntram umaFechada := fun h ↦ absurd h.1 (by decide)
  have hnone : laco fuel umaFechada [(ponto, umaFechada)] = none :=
    laco_eq_none hdist (parte_self hdist) hbad hbad
  exact absurd (hnone.symm.trans hs') (by simp)

end SistemasOperacionais.Diretorios.Lista
