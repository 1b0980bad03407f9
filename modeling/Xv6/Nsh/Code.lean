import Xv6.Shell.Code
import Mathlib.Algebra.Ring.Nat

/-!
# The parser of `user/nsh.c`

The arguments `_cmd` and `_endofcmd` of `parsecmd` are the characters from the one to the other,
`*_endofcmd` included: the scans for operators start at this character, while tokens end before it.
Strings are copied to the rows of two tables, and a row is free if its first byte is NUL. `none`
stands for an access outside a table. Cells of `cmdstack` are handed out once each, so commands are
plain trees here.
-/

namespace Xv6.Nsh

open Shell

def MAXBUFSIZ : Nat := 256
def MAXPATH : Nat := 128

/-- One of the tables `tokens` and `files`: `MAXARGS` rows of `MAXPATH` bytes. -/
abbrev Table := Nat → Char

namespace Table

/-- `allocatetokens` and `allocatefiles`. -/
def allocate (t : Table) : Option Nat :=
  (List.range MAXARGS).find? fun pos => t (pos * MAXPATH) = NUL

/-- `parsetoken`, which copies a token to the row `pos`. -/
def parsetoken (t : Table) (pos : Nat) (token : List Char) : Option Table :=
  if pos * MAXPATH + token.length < MAXARGS * MAXPATH then
    some fun i =>
      if i < pos * MAXPATH ∨ pos * MAXPATH + token.length < i then t i
      else token.getD (i - pos * MAXPATH) NUL
  else none

/-- Copy a token to the first free row. -/
def add (t : Table) (token : List Char) : Option (Nat × Table) := do
  let pos ← t.allocate
  let t ← t.parsetoken pos token
  pure (pos, t)

/-- The C string in the row `pos`. -/
def read (t : Table) (pos : Nat) : List Char :=
  ((List.range (MAXARGS * MAXPATH - pos * MAXPATH)).map fun i => t (pos * MAXPATH + i)).takeWhile
    (· ≠ NUL)

end Table

/-- A pointer to a row of `tokens` or `files`. -/
inductive Ref where
  | token (pos : Nat)
  | file (pos : Nat)
  deriving DecidableEq

/-- The tables. -/
structure State where
  tokens : Table
  files : Table

namespace State

/-- The tables after `init`. -/
def empty : State := ⟨fun _ => NUL, fun _ => NUL⟩

def addToken (s : State) (token : List Char) : Option (Ref × State) :=
  (s.tokens.add token).map fun (pos, tokens) => (.token pos, { s with tokens })

def addFile (s : State) (file : List Char) : Option (Ref × State) :=
  (s.files.add file).map fun (pos, files) => (.file pos, { s with files })

def read (s : State) : Ref → List Char
  | .token pos => s.tokens.read pos
  | .file pos => s.files.read pos

end State

/-- The loops over `s` in `parsecmd`: the last such character, what is before it and behind it. -/
def splitLast (p : Char → Bool) : List Char → Option (List Char × Char × List Char)
  | [] => none
  | c :: s =>
    match splitLast p s with
    | some (before, d, after) => some (c :: before, d, after)
    | none => if p c then some ([], c, s) else none

/-- The first part of `gettoken`: the position of the token. -/
def skipBlanks (s : List Char) : List Char := s.dropWhile (strchr whitespace)

/-- The second part of `gettoken`: the token and what is behind it. -/
def splitToken (s : List Char) : List Char × List Char :=
  (s.takeWhile fun c => !strchr whitespace c, s.dropWhile fun c => !strchr whitespace c)

/-- The loop of `parsecmd` over the tokens in `body`, where `stop` is `*_endofcmd`. -/
def parseargs (stop : Char) : (fuel : Nat) → (body : List Char) → List Ref → State →
    Option (List Ref × State)
  | 0, _, _, _ => none
  | fuel + 1, body, argv, s =>
    if body = [] then some (argv, s)
    else
      let token := skipBlanks body
      let (text, rest) := splitToken token
      if token.headD stop ≠ ' ' then do
        let (arg, s) ← s.addToken text
        parseargs stop fuel rest (argv ++ [arg]) s
      else parseargs stop fuel rest argv s

/-- `parsecmd`. -/
def parsecmd : (fuel : Nat) → List Char → State → Option (Cmd Ref × State)
  | 0, _, _ => none
  | fuel + 1, cmd, s =>
    match splitLast (· = '|') cmd with
    | some (left, _, right) => do
        let (left, s) ← parsecmd fuel left s
        let (right, s) ← parsecmd fuel right s
        pure (.pipe left right, s)
    | none =>
      match splitLast (fun c => c = '<' || c = '>') cmd with
      | some (inner, op, rest) => do
          let (inner, s) ← parsecmd fuel inner s
          let (file, s) ← s.addFile (splitToken (skipBlanks rest.dropLast)).1
          if op = '<' then pure (.redir inner file O_RDONLY 0, s)
          else pure (.redir inner file (O_WRONLY ||| O_CREATE) 1, s)
      | none => do
          let (argv, s) ← parseargs (cmd.getLastD NUL) fuel cmd.dropLast [] s
          if argv.length < MAXARGS then pure (.exec argv, s) else none

/-- `preprocessCmd`, which drops a newline at the end. -/
def preprocessCmd (line : List Char) : Option (List Char) :=
  if line.length > MAXBUFSIZ then none
  else if line.getLast? = some '\n' then some line.dropLast
  else some line

/-- What `main` does with a line. -/
def parse (fuel : Nat) (line : List Char) : Option (Cmd Ref × State) := do
  let line ← preprocessCmd line
  parsecmd fuel (line ++ [NUL]) .empty

/-- The commands of a pipeline. -/
def stages {α : Type} : Cmd α → List (Cmd α)
  | .pipe left right => stages left ++ stages right
  | cmd => [cmd]

end Xv6.Nsh
