/-!
# The parser of `user/sh.c`

A pointer into the command line is the rest of the line from there: it is empty at `es`, where the
NUL byte stands. The parsing functions share such a pointer, which each of them returns moved on.
Commands hold the two ends of each word, which `nulterminate` turns into C strings at the end.
Loops and recursive calls take fuel.
-/

namespace Xv6.Shell

/-- A pointer into the command line. -/
abbrev Ptr := List Char

/-- The byte at the end of a string. -/
def NUL : Char := '\x00'

def MAXARGS : Nat := 10
def O_RDONLY : Nat := 0x000
def O_WRONLY : Nat := 0x001
def O_CREATE : Nat := 0x200

/-- How a call ends. -/
inductive Outcome (α : Type) where
  | done (value : α)
  | panic (message : String)
  | outOfFuel
  deriving DecidableEq

namespace Outcome

/-- Go on if the call has returned. -/
def bind {α β : Type} : Outcome α → (α → Outcome β) → Outcome β
  | .done value, f => f value
  | .panic message, _ => .panic message
  | .outOfFuel, _ => .outOfFuel

instance : Monad Outcome where
  pure := .done
  bind := bind

variable {α β : Type} (f : α → Outcome β)

@[simp] theorem done_bind (value : α) : (Outcome.done value >>= f) = f value := rfl

@[simp] theorem panic_bind (message : String) :
    (Outcome.panic message >>= f) = .panic message := rfl

end Outcome

/-- `struct cmd` and the structures that extend it, over any kind of words. -/
inductive Cmd (α : Type) where
  | exec (argv : List α)
  | redir (cmd : Cmd α) (file : α) (mode fd : Nat)
  | pipe (left right : Cmd α)
  | list (left right : Cmd α)
  | back (cmd : Cmd α)
  deriving DecidableEq

namespace Cmd

variable {α β : Type}

/-- Replace the words. -/
def map (f : α → β) : Cmd α → Cmd β
  | .exec argv => .exec (argv.map f)
  | .redir cmd file mode fd => .redir (cmd.map f) (f file) mode fd
  | .pipe left right => .pipe (left.map f) (right.map f)
  | .list left right => .list (left.map f) (right.map f)
  | .back cmd => .back (cmd.map f)

/-- Append a word to the `execcmd` below the redirections, to which `parseexec` keeps a pointer. -/
def addArg (arg : α) : Cmd α → Cmd α
  | .exec argv => .exec (argv ++ [arg])
  | .redir cmd file mode fd => .redir (cmd.addArg arg) file mode fd
  | cmd => cmd

end Cmd

/-! ### Tokens -/

def whitespace : List Char := [' ', '\t', '\r', '\n', '\x0b']
def symbols : List Char := ['<', '|', '>', '&', ';', '(', ')']

/-- `strchr`, as a test. -/
def strchr (s : List Char) (c : Char) : Bool := s.contains c

/-- The two ends of a word. -/
structure Span where
  q : Ptr
  eq : Ptr
  deriving DecidableEq

/-- What `gettoken` returns and where it leaves the pointers. -/
structure Scan where
  ret : Char
  span : Span
  rest : Ptr

/-- The `switch` of `gettoken`: the token's kind and end. -/
def scan : Ptr → Char × Ptr
  | [] => (NUL, [])
  | c :: s =>
    if strchr ['|', '(', ')', ';', '&', '<'] c then (c, s)
    else if c = '>' then
      match s with
      | '>' :: s => ('+', s)
      | s => ('>', s)
    else ('a', (c :: s).dropWhile fun c => !strchr whitespace c && !strchr symbols c)

/-- `gettoken`. -/
def gettoken (s : Ptr) : Scan :=
  let q := s.dropWhile (strchr whitespace)
  let (ret, eq) := scan q
  ⟨ret, ⟨q, eq⟩, eq.dropWhile (strchr whitespace)⟩

/-- `peek`. -/
def peek (toks : List Char) (s : Ptr) : Bool × Ptr :=
  let s := s.dropWhile (strchr whitespace)
  (s.headD NUL ≠ NUL && strchr toks (s.headD NUL), s)

/-! ### Commands -/

/-- The `switch` of `parseredirs`. -/
def redircmd (tok : Char) (cmd : Cmd Span) (file : Span) : Cmd Span :=
  if tok = '<' then .redir cmd file O_RDONLY 0
  else if tok = '>' then .redir cmd file (O_WRONLY ||| O_CREATE) 1
  else if tok = '+' then .redir cmd file (O_WRONLY ||| O_CREATE) 1
  else cmd

/-- `parseredirs`. -/
def parseredirs : (fuel : Nat) → Cmd Span → Ptr → Outcome (Cmd Span × Ptr)
  | 0, _, _ => .outOfFuel
  | fuel + 1, cmd, s =>
    let (found, s) := peek ['<', '>'] s
    if found then
      let tok := gettoken s
      let file := gettoken tok.rest
      if file.ret ≠ 'a' then .panic "missing file for redirection"
      else parseredirs fuel (redircmd tok.ret cmd file.span) file.rest
    else .done (cmd, s)

/-- The loop of `parseexec`, with `argc` words so far. -/
def parseargs : (fuel argc : Nat) → Cmd Span → Ptr → Outcome (Cmd Span × Ptr)
  | 0, _, _, _ => .outOfFuel
  | fuel + 1, argc, ret, s =>
    let (stop, s) := peek ['|', ')', '&', ';'] s
    if stop then .done (ret, s)
    else
      let tok := gettoken s
      if tok.ret = NUL then .done (ret, tok.rest)
      else if tok.ret ≠ 'a' then .panic "syntax"
      else if argc + 1 ≥ MAXARGS then .panic "too many args"
      else do
        let (ret, s) ← parseredirs fuel (ret.addArg tok.span) tok.rest
        parseargs fuel (argc + 1) ret s

/-- The loop of `parseline` over `&`. -/
def parsebacks : (fuel : Nat) → Cmd Span → Ptr → Outcome (Cmd Span × Ptr)
  | 0, _, _ => .outOfFuel
  | fuel + 1, cmd, s =>
    let (found, s) := peek ['&'] s
    if found then parsebacks fuel (.back cmd) (gettoken s).rest
    else .done (cmd, s)

mutual
/-- `parseline`. -/
def parseline : (fuel : Nat) → Ptr → Outcome (Cmd Span × Ptr)
  | 0, _ => .outOfFuel
  | fuel + 1, s => do
      let (cmd, s) ← parsepipe fuel s
      let (cmd, s) ← parsebacks fuel cmd s
      let (found, s) := peek [';'] s
      if found then do
        let (right, s) ← parseline fuel (gettoken s).rest
        .done (.list cmd right, s)
      else .done (cmd, s)

/-- `parsepipe`. -/
def parsepipe : (fuel : Nat) → Ptr → Outcome (Cmd Span × Ptr)
  | 0, _ => .outOfFuel
  | fuel + 1, s => do
      let (cmd, s) ← parseexec fuel s
      let (found, s) := peek ['|'] s
      if found then do
        let (right, s) ← parsepipe fuel (gettoken s).rest
        .done (.pipe cmd right, s)
      else .done (cmd, s)

/-- `parseexec`. -/
def parseexec : (fuel : Nat) → Ptr → Outcome (Cmd Span × Ptr)
  | 0, _ => .outOfFuel
  | fuel + 1, s =>
    let (found, s) := peek ['('] s
    if found then parseblock fuel s
    else do
      let (ret, s) ← parseredirs fuel (.exec []) s
      parseargs fuel 0 ret s

/-- `parseblock`. -/
def parseblock : (fuel : Nat) → Ptr → Outcome (Cmd Span × Ptr)
  | 0, _ => .outOfFuel
  | fuel + 1, s =>
    let (found, s) := peek ['('] s
    if !found then .panic "parseblock"
    else do
      let (cmd, s) ← parseline fuel (gettoken s).rest
      let (found, s) := peek [')'] s
      if !found then .panic "syntax - missing )"
      else parseredirs fuel cmd (gettoken s).rest
end

/-! ### Strings -/

/-- Where a pointer points in the buffer, which ends with the NUL byte. -/
def offset (buffer : List Char) (p : Ptr) : Nat := buffer.length - 1 - p.length

/-- Write a NUL byte. -/
def setNul (buffer : List Char) (p : Ptr) : List Char := buffer.set (offset buffer p) NUL

/-- `nulterminate`. -/
def nulterminate : Cmd Span → List Char → List Char
  | .exec argv, buffer => argv.foldl (fun buffer arg => setNul buffer arg.eq) buffer
  | .redir cmd file _ _, buffer => setNul (nulterminate cmd buffer) file.eq
  | .pipe left right, buffer => nulterminate right (nulterminate left buffer)
  | .list left right, buffer => nulterminate right (nulterminate left buffer)
  | .back cmd, buffer => nulterminate cmd buffer

/-- `parsecmd`: the command and the buffer in which its strings lie. -/
def parsecmd (fuel : Nat) (s : List Char) : Outcome (Cmd Span × List Char) := do
  let (cmd, rest) ← parseline fuel s
  let (_, rest) := peek [] rest
  if rest ≠ [] then .panic "syntax"
  else .done (cmd, nulterminate cmd (s ++ [NUL]))

/-- The C string at a pointer. -/
def cstring (buffer : List Char) (p : Ptr) : List Char :=
  (buffer.drop (offset buffer p)).takeWhile (· ≠ NUL)

/-- The command with its strings. -/
def readCmd (buffer : List Char) (cmd : Cmd Span) : Cmd (List Char) :=
  cmd.map fun span => cstring buffer span.q

end Xv6.Shell
