import Mathlib.Data.List.Basic
import Mathlib.Tactic

/-!
# The search for a file: `diretorios.c`

`pesquisa` goes through a directory tree in the order in which `readdir` gives the entries, and
looks into a sub-directory before it goes on. What is recorded of a run is the value it returns, the
directory streams it opens and closes, the paths it assembles in `pathDir` and the lines it prints.

A tree is given by what `readdir` returns for each directory, with the entries `.` and `..`
anywhere. `opendir` may fail for any sub-directory; `readdir` does not fail. The buffer `pathDir`
has 1000 bytes, and nothing is said about a run after it has written beyond them.

The run is compared with the list of all entries in depth-first order (`preordem`): it is a walk
along this list that ends at the first entry with the name.
-/

namespace SistemasOperacionais.Diretorios

abbrev Nome := List UInt8

def ponto : Nome := [0x2E]

def pontoPonto : Nome := [0x2E, 0x2E]

/-- What a directory can be called. -/
abbrev NomeDir : Type := { nome : Nome // nome ≠ ponto ∧ nome ≠ pontoPonto }

/-- The entries that `readdir` returns for a directory, one after the other: an entry of which
`d_type` is not `DT_DIR` (or `.` or `..`), or a directory, to which the program has access or
not. -/
inductive Pasta
  | fim
  | outra (nome : Nome) (resto : Pasta)
  | diretorio (nome : NomeDir) (acesso : Bool) (dentro resto : Pasta)

inductive Evento
  /-- A stream has been opened; each gets a number of its own. -/
  | opendir (h : ℕ)
  | closedir (h : ℕ)
  /-- A path has been put together in `pathDir`. -/
  | monta (caminho : Nome)
  /-- The lines that start with `Achado`. -/
  | achado (caminho : Nome)
  /-- `Falha ao procurar` -/
  | falha (arg : Nome)
  | perror
deriving DecidableEq

/-- A run: the value returned, or `none` if it has written beyond `pathDir`; what has happened; and
the number of the next stream. -/
structure Saida where
  retorno : Option Bool
  eventos : List Evento
  prox : ℕ

/-- `path`, `'/'` and the name -/
def junta (path nome : Nome) : Nome := path ++ 0x2F :: nome

/-- With its NUL, the path fits in `pathDir`. -/
def Cabe (caminho : Nome) : Prop := caminho.length + 1 ≤ 1000

instance (caminho : Nome) : Decidable (Cabe caminho) := Nat.decLe _ _

/-! ## The program -/

/-- The branch `SE ACHOU`. -/
def encontra (path nome : Nome) (h n : ℕ) : Saida :=
  let c := junta path nome
  if Cabe c then ⟨some true, [.monta c, .achado c, .closedir h], n⟩ else ⟨none, [.monta c], n⟩

/-- `opendir` and what comes after it. -/
def abertura (n : ℕ) (r : Saida) : Saida := ⟨r.retorno, .opendir n :: r.eventos, r.prox⟩

/-- The path of a sub-directory has been assembled, and `r` is what the recursive call does. -/
def desce (c : Nome) (n : ℕ) (r : Saida) (continua : ℕ → Saida) : Saida :=
  if Cabe c then
    match r.retorno with
    | none => ⟨none, .monta c :: r.eventos, r.prox⟩
    | some true => ⟨some true, .monta c :: r.eventos, r.prox⟩
    | some false =>
      let q := continua r.prox
      ⟨q.retorno, .monta c :: (r.eventos ++ q.eventos), q.prox⟩
  else ⟨none, [.monta c], n⟩

/-- The loop of `pesquisa` over the entries of the directory `path`, whose stream is `h`, with the
variable `achou`. -/
def laco (arg raiz : Nome) : Pasta → Nome → ℕ → Bool → ℕ → Saida
  | .fim, path, h, achou, n =>
    ⟨some false, (if achou = false ∧ path = raiz then [.falha arg] else []) ++ [.closedir h], n⟩
  | .outra nome resto, path, h, achou, n =>
    if nome = ponto ∨ nome = pontoPonto then laco arg raiz resto path h achou n
    else if nome = arg then encontra path nome h n
    else laco arg raiz resto path h achou n
  | .diretorio nome abre dentro resto, path, h, _, n =>
    if nome.1 = arg then encontra path nome.1 h n
    else
      let c := junta path nome.1
      desce c n
        (if abre then abertura n (laco arg raiz dentro c n false (n + 1))
          else ⟨some false, [.perror], n⟩)
        fun n ↦ laco arg raiz resto path h false n

/-- `pesquisa`, with `n` the number of the next stream. -/
def pesquisa (arg path raiz : Nome) (abre : Bool) (p : Pasta) (n : ℕ) : Saida :=
  if abre then abertura n (laco arg raiz p path n false (n + 1)) else ⟨some false, [.perror], n⟩

/-- The call that `main` makes for an argument, with a current directory that can be opened. -/
def procura (arg : Nome) (p : Pasta) : Saida := pesquisa arg ponto ponto true p 0

/-! ## The walk along the entries -/

structure Visita where
  caminho : Nome
  nome : Nome
  /-- The entry is a directory. -/
  dir : Bool

/-- The entries below `path` that can be reached through directories that can be opened, in
depth-first order and without `.` and `..`. -/
def preordem : Nome → Pasta → List Visita
  | _, .fim => []
  | path, .outra nome resto =>
    if nome = ponto ∨ nome = pontoPonto then preordem path resto
    else ⟨junta path nome, nome, false⟩ :: preordem path resto
  | path, .diretorio nome abre dentro resto =>
    ⟨junta path nome.1, nome.1, true⟩ ::
      ((if abre then preordem (junta path nome.1) dentro else []) ++ preordem path resto)

/-- The walk: `none` if a path that has to be put together does not fit, else the path of the first
entry with the name. -/
def varre (arg : Nome) : List Visita → Option (Option Nome)
  | [] => some none
  | v :: l =>
    if v.nome = arg then if Cabe v.caminho then some (some v.caminho) else none
    else if v.dir = true ∧ ¬Cabe v.caminho then none
    else varre arg l

section Varre

variable {arg : Nome} {l l' : List Visita}

theorem varre_append (arg : Nome) (l l' : List Visita) : varre arg (l ++ l') =
    (varre arg l).bind fun o ↦ if o = none then varre arg l' else some o := by
  induction l with
  | nil => simp [varre]
  | cons v l ih =>
    rw [List.cons_append, varre, varre]
    split_ifs <;> simp_all

/-- If all the paths fit, the walk finds the first entry with the name. -/
theorem varre_of_fits (hfit : ∀ v ∈ l, Cabe v.caminho) :
    varre arg l = some ((l.find? fun v ↦ v.nome = arg).map Visita.caminho) := by
  induction l with
  | nil => rfl
  | cons v l ih =>
    have hv := hfit v List.mem_cons_self
    rw [varre, List.find?_cons]
    by_cases hn : v.nome = arg
    · simp [hn, hv]
    · simp only [hn, if_false, hv, not_true_eq_false, and_false, decide_false]
      exact ih fun w hw ↦ hfit w (List.mem_cons_of_mem _ hw)

theorem exists_of_varre {c : Nome} (h : varre arg l = some (some c)) :
    ∃ v ∈ l, v.nome = arg ∧ v.caminho = c := by
  induction l with
  | nil => cases h
  | cons v l ih =>
    rw [varre] at h
    split_ifs at h with hn hc hd
    · exact ⟨v, List.mem_cons_self, hn, Option.some.inj (Option.some.inj h)⟩
    · obtain ⟨w, hw, hnome, hcam⟩ := ih h
      exact ⟨w, List.mem_cons_of_mem _ hw, hnome, hcam⟩

/-- The entries up to the first one with the name, which is the last of them. -/
def visitadas (arg : Nome) : List Visita → List Visita
  | [] => []
  | v :: l => v :: if v.nome = arg then [] else visitadas arg l

/-- The walk stops at a path that does not fit exactly if one of the paths on its way does not. -/
theorem varre_ne_none_iff : varre arg l ≠ none ↔
    ∀ v ∈ visitadas arg l, v.dir = true ∨ v.nome = arg → Cabe v.caminho := by
  induction l with
  | nil => simp [varre, visitadas]
  | cons v l ih =>
    rw [varre, visitadas]
    by_cases hn : v.nome = arg
    · by_cases hc : Cabe v.caminho <;> simp [hn, hc]
    · by_cases hd : v.dir = true
      · by_cases hc : Cabe v.caminho
        · simp [hn, hd, hc, ih]
        · simp [hn, hd, hc]
      · simp [hn, hd, ih]

end Varre

theorem caminho_of_mem {path : Nome} {p : Pasta} {v : Visita} (h : v ∈ preordem path p) :
    ∃ q : Nome, v.caminho = junta q v.nome ∧ path.length ≤ q.length := by
  induction p generalizing path with
  | fim => cases h
  | outra nome resto ih =>
    rw [preordem] at h
    split_ifs at h with hdot
    · exact ih h
    · rcases List.mem_cons.mp h with rfl | h
      · exact ⟨path, rfl, le_rfl⟩
      · exact ih h
  | diretorio nome abre dentro resto ihd ihr =>
    rw [preordem] at h
    rcases List.mem_cons.mp h with rfl | h
    · exact ⟨path, rfl, le_rfl⟩
    · rcases List.mem_append.mp h with h | h
      · split_ifs at h with habre
        · obtain ⟨q, hq, hle⟩ := ihd h
          refine ⟨q, hq, le_trans ?_ hle⟩
          simp [junta]
        · cases h
      · exact ihr h

theorem ne_junta_of_mem {path arg nome : Nome} {p : Pasta} {v : Visita}
    (h : v ∈ preordem (junta path nome) p) (hv : v.nome = arg) : v.caminho ≠ junta path arg := by
  intro heq
  obtain ⟨q, hq, hle⟩ := caminho_of_mem h
  have hlen := congrArg List.length (hq.symm.trans heq)
  rw [hv] at hlen
  simp only [junta, List.length_append, List.length_cons] at hle hlen
  omega

/-! ## What a run returns and prints -/

/-- **Induction along a run.** `P path h n l r` is about the loop over a directory `path` with the
stream `h`, with `l` the entries that it has before it and `r` what it does. -/
theorem laco_induct {arg raiz : Nome} {P : Nome → ℕ → ℕ → List Visita → Saida → Prop}
    (fim : ∀ path h n, P path h n []
      ⟨some false, (if path = raiz then [.falha arg] else []) ++ [.closedir h], n⟩)
    (achou : ∀ path h n dir l, P path h n (⟨junta path arg, arg, dir⟩ :: l) (encontra path arg h n))
    (segue : ∀ path h n nome l r, nome ≠ arg → P path h n l r →
      P path h n (⟨junta path nome, nome, false⟩ :: l) r)
    (fechada : ∀ path h n nome l k, nome ≠ arg → (∀ m, P path h m l (k m)) →
      P path h n (⟨junta path nome, nome, true⟩ :: l)
        (desce (junta path nome) n ⟨some false, [.perror], n⟩ k))
    (aberta : ∀ path h n nome ld r l k, nome ≠ arg →
      (∀ v ∈ ld, v.nome = arg → v.caminho ≠ junta path arg) →
      P (junta path nome) n (n + 1) ld r → (∀ m, P path h m l (k m)) →
      P path h n (⟨junta path nome, nome, true⟩ :: (ld ++ l))
        (desce (junta path nome) n (abertura n r) k))
    (p : Pasta) (path : Nome) (h n : ℕ) :
    P path h n (preordem path p) (laco arg raiz p path h false n) := by
  induction p generalizing path h n with
  | fim =>
    rw [preordem, laco]
    simpa only [true_and] using fim path h n
  | outra nome resto ih =>
    rw [laco, preordem]
    split_ifs with hdot hn
    · exact ih path h n
    · rw [hn]
      exact achou path h n false _
    · exact segue path h n nome _ _ hn (ih path h n)
  | diretorio nome abre dentro resto ihd ihr =>
    rw [laco, preordem]
    by_cases hn : nome.1 = arg
    · rw [if_pos hn, hn]
      exact achou path h n true _
    · rw [if_neg hn]
      cases abre with
      | true =>
        refine aberta path h n nome.1 _ _ _ _ hn ?_ (ihd _ _ _) fun m ↦ ihr path h m
        exact fun v hv hnome ↦ ne_junta_of_mem hv hnome
      | false => exact fechada path h n nome.1 _ _ hn fun m ↦ ihr path h m

theorem varre_dir {arg nome c : Nome} (ld : List Visita) {l : List Visita} (hn : nome ≠ arg) :
    varre arg (⟨c, nome, true⟩ :: (ld ++ l)) =
      if Cabe c then (varre arg ld).bind fun o ↦ if o = none then varre arg l else some o
      else none := by
  rw [varre, if_neg hn]
  by_cases hc : Cabe c
  · simp only [hc, not_true_eq_false, and_false, if_false, if_true]
    exact varre_append ..
  · simp [hc]

/-- What the loop does with a sub-directory, when the call on it is a walk along `ld`: nothing is
there and the loop goes on, or the loop ends with what the call has returned, or the path does not
fit. -/
theorem desce_cases {arg nome c : Nome} {ld l : List Visita} {n : ℕ} {r : Saida} {k : ℕ → Saida}
    (hn : nome ≠ arg) (hret : r.retorno = (varre arg ld).map Option.isSome) :
    (Cabe c ∧ varre arg ld = some none ∧
      varre arg (⟨c, nome, true⟩ :: (ld ++ l)) = varre arg l ∧
      desce c n r k = ⟨(k r.prox).retorno, .monta c :: (r.eventos ++ (k r.prox).eventos),
        (k r.prox).prox⟩) ∨
    (Cabe c ∧ varre arg ld ≠ some none ∧
      varre arg (⟨c, nome, true⟩ :: (ld ++ l)) = varre arg ld ∧
      desce c n r k = ⟨r.retorno, .monta c :: r.eventos, r.prox⟩) ∨
    (¬Cabe c ∧ varre arg (⟨c, nome, true⟩ :: (ld ++ l)) = none ∧
      desce c n r k = ⟨none, [.monta c], n⟩) := by
  rw [varre_dir ld hn, desce]
  by_cases hc : Cabe c
  · rw [if_pos hc, if_pos hc, hret]
    rcases varre arg ld with _ | _ | c'
    · exact .inr (.inl ⟨hc, by simp, rfl, rfl⟩)
    · exact .inl ⟨hc, rfl, rfl, rfl⟩
    · exact .inr (.inl ⟨hc, by simp, rfl, rfl⟩)
  · rw [if_neg hc, if_neg hc]
    exact .inr (.inr ⟨hc, rfl, rfl⟩)

theorem retorno_desce {arg nome c : Nome} {ld l : List Visita} {n : ℕ} {r : Saida} {k : ℕ → Saida}
    (hn : nome ≠ arg) (hret : r.retorno = (varre arg ld).map Option.isSome)
    (hk : (k r.prox).retorno = (varre arg l).map Option.isSome) :
    (desce c n r k).retorno =
      (varre arg (⟨c, nome, true⟩ :: (ld ++ l))).map Option.isSome := by
  rcases desce_cases (c := c) (l := l) (n := n) (k := k) hn hret with
    ⟨-, -, hwalk, heq⟩ | ⟨-, -, hwalk, heq⟩ | ⟨-, hwalk, heq⟩
  · rw [heq, hwalk, hk]
  · rw [heq, hwalk, hret]
  · rw [heq, hwalk]
    rfl

theorem varre_outra {arg nome c : Nome} {l : List Visita} (hn : nome ≠ arg) :
    varre arg (⟨c, nome, false⟩ :: l) = varre arg l := by
  rw [varre, if_neg hn, if_neg (by simp)]

theorem varre_achou {arg c : Nome} {dir : Bool} {l : List Visita} :
    varre arg (⟨c, arg, dir⟩ :: l) = if Cabe c then some (some c) else none := by
  rw [varre, if_pos rfl]

def Evento.achado? : Evento → Option Nome
  | .achado c => some c
  | _ => none

def Saida.achados (r : Saida) : List Nome := r.eventos.filterMap Evento.achado?

/-- The paths that have been put together all fit. -/
def Saida.Cabem (r : Saida) : Prop := ∀ c, .monta c ∈ r.eventos → Cabe c

/-- What a run does, as far as the walk along the entries says. -/
structure Percorre (arg raiz path : Nome) (l : List Visita) (r : Saida) : Prop where
  retorno : r.retorno = (varre arg l).map Option.isSome
  achados : r.achados = (varre arg l).join.toList
  falhas : raiz.length ≤ path.length →
    r.eventos.count (.falha arg) = if varre arg l = some none ∧ path = raiz then 1 else 0
  cabem : r.Cabem ↔ varre arg l ≠ none

section Percorre

variable {arg raiz path nome : Nome} {l ld : List Visita} {r : Saida} {k : ℕ → Saida} {n h : ℕ}

theorem percorre_fim : Percorre arg raiz path []
    ⟨some false, (if path = raiz then [.falha arg] else []) ++ [.closedir h], n⟩ where
  retorno := rfl
  achados := by
    by_cases hr : path = raiz <;> simp [Saida.achados, Evento.achado?, varre, hr]
  falhas _ := by
    by_cases hr : path = raiz <;> simp [varre, hr]
  cabem := by
    by_cases hr : path = raiz <;> simp [Saida.Cabem, varre, hr]

theorem percorre_achou (dir : Bool) :
    Percorre arg raiz path (⟨junta path arg, arg, dir⟩ :: l) (encontra path arg h n) := by
  by_cases hc : Cabe (junta path arg)
  · rw [encontra, if_pos hc]
    exact ⟨by simp [varre_achou, hc], by rw [varre_achou, if_pos hc]; rfl,
      by simp [varre_achou, hc], by simp [varre_achou, hc, Saida.Cabem]⟩
  · rw [encontra, if_neg hc]
    exact ⟨by simp [varre_achou, hc], by rw [varre_achou, if_neg hc]; rfl,
      by simp [varre_achou, hc], by simp [varre_achou, hc, Saida.Cabem]⟩

theorem Percorre.desce (hn : nome ≠ arg) (hr : Percorre arg raiz (junta path nome) ld r)
    (hk : ∀ m, Percorre arg raiz path l (k m)) :
    Percorre arg raiz path (⟨junta path nome, nome, true⟩ :: (ld ++ l))
      (desce (junta path nome) n r k) := by
  have hq := hk r.prox
  -- below the root the line of the failure is not printed
  have hbelow (hle : raiz.length ≤ path.length) : r.eventos.count (.falha arg) = 0 := by
    have hsub : raiz.length ≤ (junta path nome).length := by
      simp only [junta, List.length_append, List.length_cons]
      omega
    have hne : junta path nome ≠ raiz := by
      intro heq
      have hlen := congrArg List.length heq
      simp only [junta, List.length_append, List.length_cons] at hlen
      omega
    rw [hr.falhas hsub, if_neg fun h ↦ hne h.2]
  rcases desce_cases (n := n) (k := k) (l := l) (c := junta path nome) hn hr.retorno with
    ⟨hc, hld, hwalk, heq⟩ | ⟨hc, hld, hwalk, heq⟩ | ⟨hc, hwalk, heq⟩
  · have hnada : r.achados = [] := by
      rw [hr.achados, hld]
      rfl
    have hcabem : r.Cabem := hr.cabem.mpr (by simp [hld])
    rw [heq]
    refine ⟨?_, ?_, fun hle ↦ ?_, ?_⟩
    · rw [hwalk, ← hq.retorno]
    · rw [hwalk, ← hq.achados]
      exact (List.filterMap_append ..).trans (congrArg (· ++ _) hnada)
    · rw [hwalk, ← hq.falhas hle, List.count_cons_of_ne (by simp), List.count_append, hbelow hle,
        Nat.zero_add]
    · rw [hwalk, ← hq.cabem]
      refine ⟨fun hall c hcm ↦ hall c (by simp [hcm]), fun hall c hcm ↦ ?_⟩
      rcases List.mem_cons.mp hcm with hcm | hcm
      · cases hcm
        exact hc
      · exact (List.mem_append.mp hcm).elim (hcabem c) (hall c)
  · rw [heq]
    refine ⟨?_, ?_, fun hle ↦ ?_, ?_⟩
    · rw [hwalk]
      exact hr.retorno
    · rw [hwalk]
      exact hr.achados
    · rw [hwalk, if_neg fun h ↦ hld h.1, List.count_cons_of_ne (by simp), hbelow hle]
    · rw [hwalk, ← hr.cabem]
      refine ⟨fun hall c hcm ↦ hall c (List.mem_cons_of_mem _ hcm), fun hall c hcm ↦ ?_⟩
      rcases List.mem_cons.mp hcm with hcm | hcm
      · cases hcm
        exact hc
      · exact hall c hcm
  · rw [heq]
    exact ⟨by rw [hwalk]; rfl, by rw [hwalk]; rfl, by simp [hwalk],
      by simp [hwalk, Saida.Cabem, hc]⟩

theorem Percorre.abertura (hr : Percorre arg raiz path l r) :
    Percorre arg raiz path l (abertura n r) where
  retorno := hr.retorno
  achados := hr.achados
  falhas hle := (List.count_cons_of_ne (by simp)).trans (hr.falhas hle)
  cabem := by
    rw [← hr.cabem]
    simp [Saida.Cabem, Diretorios.abertura]

theorem percorre_perror (hne : path ≠ raiz) :
    Percorre arg raiz path [] ⟨some false, [.perror], n⟩ where
  retorno := rfl
  achados := rfl
  falhas _ := by simp [hne]
  cabem := by simp [Saida.Cabem, varre]

end Percorre

/-- **A run is a walk along the entries in depth-first order.** -/
theorem percorre_laco (arg raiz : Nome) (p : Pasta) (path : Nome) (h n : ℕ)
    (hle : raiz.length ≤ path.length) :
    Percorre arg raiz path (preordem path p) (laco arg raiz p path h false n) := by
  refine laco_induct (P := fun path _ _ l r ↦ raiz.length ≤ path.length →
    Percorre arg raiz path l r) ?_ ?_ ?_ ?_ ?_ p path h n hle
  · exact fun path h n _ ↦ percorre_fim
  · exact fun path h n dir l _ ↦ percorre_achou dir
  · intro path h n nome l r hn hr hle
    have hr := hr hle
    exact ⟨by rw [varre_outra hn, hr.retorno], by rw [varre_outra hn, hr.achados],
      fun hle ↦ by rw [varre_outra hn, hr.falhas hle], by rw [varre_outra hn, hr.cabem]⟩
  · intro path h n nome l k hn hk hle
    change Percorre arg raiz path (_ :: ([] ++ l)) _
    refine Percorre.desce hn (percorre_perror ?_) fun m ↦ hk m hle
    intro heq
    simp only [← heq, junta, List.length_append, List.length_cons] at hle
    omega
  · intro path h n nome ld r l k hn _ hr hk hle
    refine Percorre.desce hn (hr ?_).abertura fun m ↦ hk m hle
    simp only [junta, List.length_append, List.length_cons]
    omega

theorem percorre_procura (arg : Nome) (p : Pasta) :
    Percorre arg ponto ponto (preordem ponto p) (procura arg p) :=
  (percorre_laco arg ponto p ponto 0 1 le_rfl).abertura

/-! ## The search is right -/

def Pasta.nomes : Pasta → List Nome
  | .fim => []
  | .outra nome resto => nome :: resto.nomes
  | .diretorio nome _ _ resto => nome.1 :: resto.nomes

/-- The sub-directories that can be opened, with their contents. -/
def Pasta.subs : Pasta → List (Nome × Pasta)
  | .fim => []
  | .outra _ resto => resto.subs
  | .diretorio nome abre dentro resto =>
    if abre then (nome.1, dentro) :: resto.subs else resto.subs

/-- From the directory `path` with the entries `p` one gets to the directory `path'` with the
entries `p'` through directories that can be opened. -/
inductive Alcanca : Nome → Pasta → Nome → Pasta → Prop
  | aqui (path : Nome) (p : Pasta) : Alcanca path p path p
  | desce {path nome path' : Nome} {p dentro p' : Pasta} : (nome, dentro) ∈ p.subs →
      Alcanca (junta path nome) dentro path' p' → Alcanca path p path' p'

def Existe (arg path : Nome) (p : Pasta) : Prop :=
  ∃ path' p', Alcanca path p path' p' ∧ arg ∈ p'.nomes

section Existe

variable {arg path nome : Nome} {p resto dentro : Pasta}

theorem Existe.mono (h : Existe arg path resto) (hn : resto.nomes ⊆ p.nomes)
    (hs : resto.subs ⊆ p.subs) : Existe arg path p := by
  obtain ⟨path', p', hreach, harg⟩ := h
  cases hreach with
  | aqui => exact ⟨path, p, .aqui path p, hn harg⟩
  | desce hsub hreach => exact ⟨path', p', .desce (hs hsub) hreach, harg⟩

theorem existe_of_mem {v : Visita} (h : v ∈ preordem path p) : Existe v.nome path p := by
  induction p generalizing path with
  | fim => cases h
  | outra nome resto ih =>
    rw [preordem] at h
    split_ifs at h with hdot
    · exact (ih h).mono (List.subset_cons_self _ _) (List.Subset.refl _)
    · rcases List.mem_cons.mp h with rfl | h
      · exact ⟨path, _, .aqui _ _, List.mem_cons_self⟩
      · exact (ih h).mono (List.subset_cons_self _ _) (List.Subset.refl _)
  | diretorio nome abre dentro resto ihd ihr =>
    rw [preordem] at h
    rcases List.mem_cons.mp h with rfl | h
    · exact ⟨path, _, .aqui _ _, List.mem_cons_self⟩
    · cases abre with
      | false => exact (ihr h).mono (List.subset_cons_self _ _) (List.Subset.refl _)
      | true =>
        rcases List.mem_append.mp h with h | h
        · obtain ⟨path', p', hreach, harg⟩ := ihd h
          exact ⟨path', p', .desce List.mem_cons_self hreach, harg⟩
        · exact (ihr h).mono (List.subset_cons_self _ _) (List.subset_cons_self _ _)

theorem exists_mem_of_nomes (hdot : ¬(arg = ponto ∨ arg = pontoPonto)) (h : arg ∈ p.nomes) :
    ∃ v ∈ preordem path p, v.nome = arg := by
  induction p with
  | fim => cases h
  | outra nome resto ih =>
    rw [preordem]
    rcases List.mem_cons.mp h with rfl | h
    · rw [if_neg hdot]
      exact ⟨_, List.mem_cons_self, rfl⟩
    · obtain ⟨v, hv, hnome⟩ := ih h
      split_ifs
      · exact ⟨v, hv, hnome⟩
      · exact ⟨v, List.mem_cons_of_mem _ hv, hnome⟩
  | diretorio nome abre dentro resto _ ihr =>
    rw [preordem]
    rcases List.mem_cons.mp h with rfl | h
    · exact ⟨_, List.mem_cons_self, rfl⟩
    · obtain ⟨v, hv, hnome⟩ := ihr h
      exact ⟨v, List.mem_cons_of_mem _ (List.mem_append_right _ hv), hnome⟩

theorem preordem_subset_of_subs (h : (nome, dentro) ∈ p.subs) :
    preordem (junta path nome) dentro ⊆ preordem path p := by
  induction p with
  | fim => cases h
  | outra nome' resto ih =>
    rw [preordem]
    split_ifs
    · exact ih h
    · exact List.subset_cons_of_subset _ (ih h)
  | diretorio nome' abre dentro' resto _ ihr =>
    rw [preordem]
    refine List.subset_cons_of_subset _ ?_
    cases abre with
    | false => exact List.subset_append_of_subset_right _ (ihr h)
    | true =>
      rcases List.mem_cons.mp h with heq | h
      · cases heq
        exact List.subset_append_left _ _
      · exact List.subset_append_of_subset_right _ (ihr h)

theorem exists_mem_of_existe (hdot : ¬(arg = ponto ∨ arg = pontoPonto)) (h : Existe arg path p) :
    ∃ v ∈ preordem path p, v.nome = arg := by
  obtain ⟨path', p', hreach, harg⟩ := h
  induction hreach with
  | aqui path p => exact exists_mem_of_nomes hdot harg
  | desce hsub _ ih =>
    obtain ⟨v, hv, hnome⟩ := ih harg
    exact ⟨v, preordem_subset_of_subs hsub hv, hnome⟩

end Existe

/-- What is asked of a search: its value, the paths it reports and the lines of failure. -/
structure Correta (arg : Nome) (p : Pasta) (r : Saida) : Prop where
  retorno : (r.retorno = some true ∧ Existe arg ponto p) ∨
    (r.retorno = some false ∧ ¬Existe arg ponto p)
  /-- The first entry with the name in depth-first order, and no other. -/
  achados : r.achados = (((preordem ponto p).find? (·.nome = arg)).map Visita.caminho).toList
  achado : Existe arg ponto p → r.achados.length = 1
  falhas : Existe arg ponto p ∧ r.eventos.count (.falha arg) = 0 ∨
    ¬Existe arg ponto p ∧ r.eventos.count (.falha arg) = 1

/-- **The search finds a file exactly if there is one**, reports the first one and nothing else, and
says once that it has found none. -/
theorem procura_correta (arg : Nome) (p : Pasta) (harg : arg ≠ ponto ∧ arg ≠ pontoPonto)
    (hfit : ∀ v ∈ preordem ponto p, v.caminho.length < 1000) : Correta arg p (procura arg p) := by
  have hwalk := percorre_procura arg p
  have hvarre : varre arg (preordem ponto p) = _ := varre_of_fits fun v hv ↦ hfit v hv
  have hfal := hwalk.falhas le_rfl
  have hret := hwalk.retorno
  have hach := hwalk.achados
  rw [hvarre] at hfal hret hach
  cases hfind : (preordem ponto p).find? fun v ↦ v.nome = arg with
  | none =>
    have hno : ¬Existe arg ponto p := by
      intro hex
      obtain ⟨v, hv, hnome⟩ := exists_mem_of_existe (not_or.mpr harg) hex
      exact absurd hnome (by simpa using List.find?_eq_none.mp hfind v hv)
    rw [hfind] at hfal hret hach
    exact ⟨.inr ⟨hret, hno⟩, by rw [hach, hfind]; rfl, fun hex ↦ absurd hex hno, .inr ⟨hno, hfal⟩⟩
  | some v =>
    have hex : Existe arg ponto p := by
      have hnome : v.nome = arg := by simpa using List.find?_some hfind
      exact hnome ▸ existe_of_mem (List.mem_of_find?_eq_some hfind)
    rw [hfind] at hfal hret hach
    exact ⟨.inl ⟨hret, hex⟩, by rw [hach, hfind]; rfl, fun _ ↦ by rw [hach]; rfl, .inl ⟨hex, hfal⟩⟩

def nomeD : NomeDir := ⟨[0x64], of_decide_eq_true rfl⟩

def nomeE : NomeDir := ⟨[0x65], of_decide_eq_true rfl⟩

/-- A directory `d` that cannot be opened, a directory `e` with the file `x`, and another `x` after
it. -/
def duasVezes : Pasta :=
  .outra ponto (.diretorio nomeD false (.outra [0x78] .fim)
    (.diretorio nomeE true (.outra [0x78] .fim) (.outra [0x78] .fim)))

theorem procura_correta_duasVezes : Correta [0x78] duasVezes (procura [0x78] duasVezes) :=
  procura_correta [0x78] duasVezes (by decide) (by decide)

/-! ## The path buffer -/

/-- **The paths fit exactly when they are short**: those of the sub-directories that come before the
first entry with the name, and the path of this entry. -/
theorem cabem_iff (arg : Nome) (p : Pasta) : (procura arg p).Cabem ↔
    ∀ v ∈ visitadas arg (preordem ponto p), v.dir = true ∨ v.nome = arg →
      v.caminho.length < 1000 :=
  (percorre_procura arg p).cabem.trans varre_ne_none_iff

def longo : NomeDir := ⟨List.replicate 255 0x61, of_decide_eq_true rfl⟩

/-- `n` directories, each in the one before. -/
def fundo : ℕ → Pasta
  | 0 => .fim
  | n + 1 => .diretorio longo true (fundo n) .fim

theorem not_cabem_fundo : (∀ v ∈ preordem ponto (fundo 4), v.nome.length ≤ 255) ∧
    ¬(procura [0x78] (fundo 4)).Cabem := by
  refine ⟨by decide +kernel, ?_⟩
  rw [(percorre_procura [0x78] (fundo 4)).cabem]
  decide +kernel

end SistemasOperacionais.Diretorios
