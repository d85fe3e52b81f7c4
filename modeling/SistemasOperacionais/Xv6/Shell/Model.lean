import Mathlib.Data.List.Basic
import Mathlib.Tactic

/-!
# The parser of the shell

`sh.c`: `parsecmd` and the procedures it calls. A string in memory is a list of bytes without a
NUL, a pointer into it is a number, and the byte at its end is NUL. The nodes of the tree hold
pointers to the first and behind the last character of a word, as the source has them;
`nulterminate` writes a NUL behind each word.

The procedures are recursive and loop, so they are given fuel; without any left they are
`running`. That enough fuel always gives a result is proved, not assumed. The stack of the process,
one page in `exec`, is taken to be large enough for the recursion.
-/

namespace SistemasOperacionais.Xv6.Shell

/-- The result of a procedure: `panic` exits with its message. -/
inductive Outcome (α : Type*)
  | ok (a : α)
  | panic (message : String)
  | running

namespace Outcome

variable {α β : Type*}

def bind (x : Outcome α) (f : α → Outcome β) : Outcome β :=
  match x with
  | ok a => f a
  | panic m => panic m
  | running => running

@[simp] theorem bind_ok (a : α) (f : α → Outcome β) : (ok a).bind f = f a := rfl

theorem bind_eq_ok {x : Outcome α} {f : α → Outcome β} {b : β} :
    x.bind f = ok b ↔ ∃ a, x = ok a ∧ f a = ok b := by
  cases x with
  | ok a => simp
  | panic m => simp [bind]
  | running => simp [bind]

theorem bind_ne_running {x : Outcome α} {f : α → Outcome β} (hx : x ≠ running)
    (hf : ∀ a, x = ok a → f a ≠ running) : x.bind f ≠ running := by
  cases x with
  | ok a => exact hf a rfl
  | panic m => simp [bind]
  | running => exact absurd rfl hx

end Outcome

/-! ## Strings and tokens -/

/-- A string in memory, without the NUL at its end. -/
structure CString where
  bytes : List UInt8
  zero_notMem : 0 ∉ bytes

def whitespace : List UInt8 := [' ', '\t', '\r', '\n', '\x0b'].map Char.toUInt8

def symbols : List UInt8 := ['<', '|', '>', '&', ';', '(', ')'].map Char.toUInt8

/-- `strchr` of `ulib.c`, which does not find the NUL at the end. -/
def strchr (s : List UInt8) (c : UInt8) : Bool := s.contains c

namespace CString

/-- `strlen`, and `es` as an offset -/
def strlen (s : CString) : ℕ := s.bytes.length

def get (s : CString) (i : ℕ) : UInt8 := s.bytes.getD i 0

/-- `while(s < es && p(*s)) s++`, over what is left of the string -/
def scan (p : UInt8 → Bool) : List UInt8 → ℕ → ℕ
  | [], i => i
  | c :: l, i => if p c then scan p l (i + 1) else i

def skip (s : CString) (i : ℕ) : ℕ := scan (strchr whitespace) (s.bytes.drop i) i

end CString

def isWord (c : UInt8) : Bool := !strchr whitespace c && !strchr symbols c

/-- What `gettoken` returns, and what it stores in `*q`, `*eq` and `*ps`. -/
structure Lexeme where
  ret : UInt8
  q : ℕ
  eq : ℕ
  ps : ℕ

open CString

/-- The switch of `gettoken`, at the first character of the token. -/
def scanToken (s : CString) (q : ℕ) : UInt8 × ℕ :=
  let c := s.get q
  if c = 0 then (c, q)
  else if strchr (['|', '(', ')', ';', '&', '<'].map Char.toUInt8) c then (c, q + 1)
  else if c = '>'.toUInt8 then
    if s.get (q + 1) = '>'.toUInt8 then ('+'.toUInt8, q + 2) else (c, q + 1)
  else ('a'.toUInt8, scan isWord (s.bytes.drop q) q)

def gettoken (s : CString) (i : ℕ) : Lexeme :=
  let q := s.skip i
  let t := scanToken s q
  ⟨t.1, q, t.2, s.skip t.2⟩

/-- `peek`, with the new `*ps` -/
def peek (s : CString) (i : ℕ) (toks : List Char) : ℕ × Bool :=
  let q := s.skip i
  (q, s.get q != 0 && strchr (toks.map Char.toUInt8) (s.get q))

/-! ## Commands -/

def maxArgs : ℕ := 10

def oRdonly : ℕ := 0x000

def oWronly : ℕ := 0x001

def oCreate : ℕ := 0x200

/-- `struct cmd`. What stands for a word is a parameter: two pointers in the tree that the parser
builds, a list of bytes in the tree that is meant. -/
inductive Cmd (α : Type*)
  | exec (argv : List α)
  | redir (cmd : Cmd α) (file : α) (mode fd : ℕ)
  | pipe (left right : Cmd α)
  | list (left right : Cmd α)
  | back (cmd : Cmd α)
deriving DecidableEq

namespace Cmd

variable {α β : Type*}

def map (f : α → β) : Cmd α → Cmd β
  | exec argv => exec (argv.map f)
  | redir cmd file mode fd => redir (cmd.map f) (f file) mode fd
  | pipe left right => pipe (left.map f) (right.map f)
  | list left right => list (left.map f) (right.map f)
  | back cmd => back (cmd.map f)

def words : Cmd α → List α
  | exec argv => argv
  | redir cmd file _ _ => cmd.words ++ [file]
  | pipe left right => left.words ++ right.words
  | list left right => left.words ++ right.words
  | back cmd => cmd.words

/-- Store the arguments through `cmd`, the pointer to the node that `ret` has been wrapped
around. -/
def setArgv (argv : List α) : Cmd α → Cmd α
  | exec _ => exec argv
  | redir cmd file mode fd => redir (cmd.setArgv argv) file mode fd
  | cmd => cmd

/-- The switch of `parseredirs`. -/
def redirect (tok : UInt8) (cmd : Cmd α) (file : α) : Cmd α :=
  if tok = '<'.toUInt8 then redir cmd file oRdonly 0
  else if tok = '>'.toUInt8 then redir cmd file (oWronly ||| oCreate) 1
  else if tok = '+'.toUInt8 then redir cmd file (oWronly ||| oCreate) 1
  else cmd

end Cmd

/-- The pointers to a word. -/
abbrev Span := ℕ × ℕ

/-! ## The procedures -/

def parseredirs (s : CString) : ℕ → Cmd Span → ℕ → Outcome (Cmd Span × ℕ)
  | 0, _, _ => .running
  | fuel + 1, cmd, ps =>
    let p := peek s ps ['<', '>']
    if p.2 then
      let tok := gettoken s p.1
      let file := gettoken s tok.ps
      if file.ret ≠ 'a'.toUInt8 then .panic "missing file for redirection"
      else parseredirs s fuel (cmd.redirect tok.ret (file.q, file.eq)) file.ps
    else .ok (cmd, p.1)

def execLoop (s : CString) : ℕ → Cmd Span → List Span → ℕ → Outcome (Cmd Span × ℕ)
  | 0, _, _, _ => .running
  | fuel + 1, ret, argv, ps =>
    let p := peek s ps ['|', ')', '&', ';']
    if p.2 then .ok (ret.setArgv argv, p.1)
    else
      let tok := gettoken s p.1
      if tok.ret = 0 then .ok (ret.setArgv argv, tok.ps)
      else if tok.ret ≠ 'a'.toUInt8 then .panic "syntax"
      else if maxArgs ≤ argv.length + 1 then .panic "too many args"
      else (parseredirs s fuel ret tok.ps).bind fun r ↦
        execLoop s fuel r.1 (argv ++ [(tok.q, tok.eq)]) r.2

def backLoop (s : CString) : ℕ → Cmd Span → ℕ → Outcome (Cmd Span × ℕ)
  | 0, _, _ => .running
  | fuel + 1, cmd, ps =>
    let p := peek s ps ['&']
    if p.2 then backLoop s fuel (.back cmd) (gettoken s p.1).ps else .ok (cmd, p.1)

mutual

def parseline (s : CString) : ℕ → ℕ → Outcome (Cmd Span × ℕ)
  | 0, _ => .running
  | fuel + 1, ps =>
    (parsepipe s fuel ps).bind fun r ↦ (backLoop s fuel r.1 r.2).bind fun r ↦
      let p := peek s r.2 [';']
      if p.2 then
        (parseline s fuel (gettoken s p.1).ps).bind fun r' ↦ .ok (.list r.1 r'.1, r'.2)
      else .ok (r.1, p.1)

def parsepipe (s : CString) : ℕ → ℕ → Outcome (Cmd Span × ℕ)
  | 0, _ => .running
  | fuel + 1, ps =>
    (parseexec s fuel ps).bind fun r ↦
      let p := peek s r.2 ['|']
      if p.2 then
        (parsepipe s fuel (gettoken s p.1).ps).bind fun r' ↦ .ok (.pipe r.1 r'.1, r'.2)
      else .ok (r.1, p.1)

def parseblock (s : CString) : ℕ → ℕ → Outcome (Cmd Span × ℕ)
  | 0, _ => .running
  | fuel + 1, ps =>
    let p := peek s ps ['(']
    if !p.2 then .panic "parseblock"
    else (parseline s fuel (gettoken s p.1).ps).bind fun r ↦
      let p := peek s r.2 [')']
      if !p.2 then .panic "syntax - missing )"
      else parseredirs s fuel r.1 (gettoken s p.1).ps

def parseexec (s : CString) : ℕ → ℕ → Outcome (Cmd Span × ℕ)
  | 0, _ => .running
  | fuel + 1, ps =>
    let p := peek s ps ['(']
    if p.2 then parseblock s fuel p.1
    else (parseredirs s fuel (.exec []) p.1).bind fun r ↦ execLoop s fuel r.1 [] r.2

end

/-! ## The end of the words -/

def nulterminate : Cmd Span → (ℕ → UInt8) → ℕ → UInt8
  | .exec argv, mem => argv.foldl (fun mem word ↦ Function.update mem word.2 0) mem
  | .redir cmd file _ _, mem => Function.update (nulterminate cmd mem) file.2 0
  | .pipe left right, mem => nulterminate right (nulterminate left mem)
  | .list left right, mem => nulterminate right (nulterminate left mem)
  | .back cmd, mem => nulterminate cmd mem

/-- The tree, and the memory that its pointers point into. -/
def parsecmd (fuel : ℕ) (s : CString) : Outcome (Cmd Span × (ℕ → UInt8)) :=
  (parseline s fuel 0).bind fun r ↦
    let p := peek s r.2 []
    if p.1 ≠ s.strlen then .panic "syntax"
    else .ok (r.1, nulterminate r.1 s.get)

/-- The string that a pointer points to: what is in memory up to the first NUL. The NUL at `es`
stops it at the latest. -/
def stringAt (es : ℕ) (mem : ℕ → UInt8) (p : ℕ) : List UInt8 :=
  ((List.range' p (es - p)).map mem).takeWhile (· ≠ 0)

/-- The tree with its words read. -/
def read (s : CString) (r : Cmd Span × (ℕ → UInt8)) : Cmd (List UInt8) :=
  r.1.map fun word ↦ stringAt s.strlen r.2 word.1

end SistemasOperacionais.Xv6.Shell
