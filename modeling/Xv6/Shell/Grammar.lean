import Xv6.Shell.Code

/-!
# The grammar of the shell

A command line is a sequence of tokens, and

* `line ::= pipe '&'* [';' line]`
* `pipe ::= exec ['|' pipe]`
* `exec ::= '(' line ')' redir* | redir* (word redir*)*`, with at most nine words
* `redir ::= ('<' | '>' | '>>') word`

The relations also say which command a phrase stands for.
-/

namespace Xv6.Shell

/-- The tokens of a command line. -/
inductive Token where
  | word (text : List Char)
  | less
  | greater
  | append
  | bar
  | amp
  | semi
  | lparen
  | rparen
  deriving DecidableEq

/-- The characters that words are made of. -/
def isWordChar (c : Char) : Bool := !strchr whitespace c && !strchr symbols c

/-- The symbols that are tokens on their own. -/
def single : Char → Option Token
  | '<' => some .less
  | '|' => some .bar
  | '&' => some .amp
  | ';' => some .semi
  | '(' => some .lparen
  | ')' => some .rparen
  | _ => none

/-- The tokens of a string. -/
inductive Lexes : List Char → List Token → Prop where
  | nil : Lexes [] []
  | blank {c s ts} : strchr whitespace c = true → Lexes s ts → Lexes (c :: s) ts
  | single {c t s ts} : single c = some t → Lexes s ts → Lexes (c :: s) (t :: ts)
  | greater {s ts} : s.head? ≠ some '>' → Lexes s ts → Lexes ('>' :: s) (.greater :: ts)
  | append {s ts} : Lexes s ts → Lexes ('>' :: '>' :: s) (.append :: ts)
  | word {c w s ts} : (∀ x ∈ c :: w, isWordChar x = true) →
      (∀ x, s.head? = some x → isWordChar x = false) →
      Lexes s ts → Lexes (c :: w ++ s) (.word (c :: w) :: ts)

/-- The three kinds of redirections. -/
inductive RedirKind where
  | input
  | output
  | append
  deriving DecidableEq

namespace RedirKind

def token : RedirKind → Token
  | .input => .less
  | .output => .greater
  | .append => .append

def mode : RedirKind → Nat
  | .input => O_RDONLY
  | .output => O_WRONLY ||| O_CREATE
  | .append => O_WRONLY ||| O_CREATE

def fd : RedirKind → Nat
  | .input => 0
  | .output => 1
  | .append => 1

end RedirKind

/-- A redirection. -/
structure Redir where
  kind : RedirKind
  file : List Char
  deriving DecidableEq

/-- Commands as the grammar gives them. -/
abbrev Tree := Cmd (List Char)

namespace Redir

def tokens (r : Redir) : List Token := [r.kind.token, .word r.file]

/-- The command with the redirection around it. -/
def wrap (cmd : Tree) (r : Redir) : Tree := .redir cmd r.file r.kind.mode r.kind.fd

end Redir

/-- The tokens of redirections. -/
def redirTokens (rs : List Redir) : List Token := rs.flatMap Redir.tokens

/-- The command with redirections around it, the last one outermost. -/
def wrapAll (cmd : Tree) (rs : List Redir) : Tree := rs.foldl Redir.wrap cmd

/-- A word and the redirections that follow it. -/
structure Arg where
  word : List Char
  redirs : List Redir
  deriving DecidableEq

def Arg.tokens (a : Arg) : List Token := .word a.word :: redirTokens a.redirs

/-- The command of words and redirections. -/
def simpleCmd (rs : List Redir) (args : List Arg) : Tree :=
  wrapAll (.exec (args.map Arg.word)) (rs ++ args.flatMap Arg.redirs)

/-- The command in the background, once for each `&`. -/
def backs : Nat → Tree → Tree
  | 0, cmd => cmd
  | n + 1, cmd => backs n (.back cmd)

mutual
/-- `line`: a pipe, some `&`, and perhaps another line. -/
inductive Line : List Token → Tree → Prop where
  | last {ts t} (n : Nat) : Pipe ts t → Line (ts ++ List.replicate n .amp) (backs n t)
  | list {ts t us u} (n : Nat) : Pipe ts t → Line us u →
      Line (ts ++ List.replicate n .amp ++ .semi :: us) (.list (backs n t) u)

/-- `pipe`: commands with `|` between them. -/
inductive Pipe : List Token → Tree → Prop where
  | last {ts t} : Exec ts t → Pipe ts t
  | pipe {ts t us u} : Exec ts t → Pipe us u → Pipe (ts ++ .bar :: us) (.pipe t u)

/-- `exec`: a block, or words and redirections. -/
inductive Exec : List Token → Tree → Prop where
  | block {ts t} (rs : List Redir) : Line ts t →
      Exec (.lparen :: ts ++ .rparen :: redirTokens rs) (wrapAll t rs)
  | simple (rs : List Redir) (args : List Arg) : args.length < MAXARGS →
      Exec (redirTokens rs ++ args.flatMap Arg.tokens) (simpleCmd rs args)
end

end Xv6.Shell
