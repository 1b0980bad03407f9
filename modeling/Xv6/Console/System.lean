import Xv6.Interleave.Machine
import Xv6.Ring.Fifo

/-!
# The console input of `kernel/console.c`

The machine in which any number of processes run `consoleread` while `consoleintr` receives
characters. Everything between `acquire(&cons.lock)` and the next `release` or `sleep` runs without
interruption by other users of `cons`, so it is one operation: `intr` is a whole call of
`consoleintr`, and `read` is `consoleread` from the head of its loop until it returns or sleeps. A
process that sleeps has released the lock and may go on at any moment. Whether a process has been
killed is up to the environment; how many bytes of the destination are mapped is up to the caller.

`consumed`, `handed` and `editor` are history variables that no branch reads. `editor` is a
reference line editor that is told about the same keys.
-/

namespace Xv6.Console

open Interleave

/-- Bytes of the input buffer. -/
def INPUT_BUF : Nat := 128

instance : NeZero INPUT_BUF := ⟨by decide⟩

/-- `C(x)`: control and a letter. -/
def C (x : Char) : UInt8 := x.toUInt8 - '@'.toUInt8

/-- The character `'\n'`. -/
def newline : UInt8 := '\n'.toUInt8

/-- `c = (c == '\r') ? '\n' : c`. -/
def toNewline (c : UInt8) : UInt8 := if c = '\r'.toUInt8 then newline else c

/-- The variables of `cons` without its lock. -/
structure Cons where
  buf : Fin INPUT_BUF → UInt8
  r : BitVec 32
  w : BitVec 32
  e : BitVec 32

namespace Cons

/-- The loop of control-U, for at most `fuel` bytes. -/
def killLineFrom : (fuel : Nat) → Cons → Cons
  | 0, cons => cons
  | fuel + 1, cons =>
    if cons.e ≠ cons.w ∧ cons.buf (Ring.slot INPUT_BUF (cons.e - 1)) ≠ newline then
      killLineFrom fuel { cons with e := cons.e - 1 }
    else cons

/-- Control-U: each round moves `e` one byte closer to `w`. -/
def killLine (cons : Cons) : Cons := cons.killLineFrom (cons.e - cons.w).toNat

/-- Backspace. -/
def backspace (cons : Cons) : Cons :=
  if cons.e ≠ cons.w then { cons with e := cons.e - 1 } else cons

/-- `cons.buf[cons.e++ % INPUT_BUF] = c`. -/
def store (cons : Cons) (c : UInt8) : Cons :=
  { cons with
    buf := Function.update cons.buf (Ring.slot INPUT_BUF cons.e) c
    e := cons.e + 1 }

/-- Hand the edited bytes to the readers if the line is complete or the buffer full. -/
def commit (cons : Cons) (c : UInt8) : Cons :=
  if c = newline ∨ c = C 'D' ∨ cons.e = cons.r + BitVec.ofNat 32 INPUT_BUF then
    { cons with w := cons.e }
  else cons

/-- The default case of `consoleintr`. -/
def input (cons : Cons) (c : UInt8) : Cons :=
  if c ≠ 0 ∧ (cons.e - cons.r).toNat < INPUT_BUF then
    (cons.store (toNewline c)).commit (toNewline c)
  else cons

/-- `consoleintr`. Control-P prints the process list and leaves `cons` alone. -/
def consoleintr (cons : Cons) (c : UInt8) : Cons :=
  if c = C 'P' then cons
  else if c = C 'U' then cons.killLine
  else if c = C 'H' ∨ c = 0x7f then cons.backspace
  else cons.input c

/-- The bytes between `r` and `w`, which readers may take. -/
def pending (cons : Cons) : List UInt8 := Ring.segment cons.buf cons.r cons.w

/-- The bytes between `w` and `e`, which may still be edited. -/
def editing (cons : Cons) : List UInt8 := Ring.segment cons.buf cons.w cons.e

end Cons

/-- A line editor: what it has given out, and the line that is being edited. -/
structure Editor where
  committed : List UInt8
  line : List UInt8

/-- What a key does when there are `room` free places for bytes: control-U kills the line and
backspace erases its last byte; other keys are dropped if there is no room, and else put at the end
of the line, which is given out on a newline, on control-D and when no room is left. -/
def Editor.key (room : Nat) (c : UInt8) (editor : Editor) : Editor :=
  if c = C 'P' then editor
  else if c = C 'U' then { editor with line := [] }
  else if c = C 'H' ∨ c = 0x7f then { editor with line := editor.line.dropLast }
  else if c = 0 ∨ room = 0 then editor
  else if toNewline c = newline ∨ toNewline c = C 'D' ∨ room = 1 then
    ⟨editor.committed ++ editor.line ++ [toNewline c], []⟩
  else { editor with line := editor.line ++ [toNewline c] }

/-- The console and its history. -/
structure State where
  cons : Cons
  /-- All bytes over which `r` has moved for good. -/
  consumed : List UInt8
  /-- All bytes that were copied to readers. -/
  handed : List UInt8
  editor : Editor

namespace State

/-- The places in the buffer that are free. -/
def room (s : State) : Nat :=
  INPUT_BUF - (s.editor.committed.length + s.editor.line.length - s.consumed.length)

/-- A whole call of `consoleintr`. -/
def intr (s : State) (c : UInt8) : State :=
  { s with cons := s.cons.consoleintr c, editor := s.editor.key s.room c }

/-- The byte that `cons.buf[cons.r++ % INPUT_BUF]` yields. -/
def next (s : State) : UInt8 := s.cons.buf (Ring.slot INPUT_BUF s.cons.r)

/-- The state after `cons.buf[cons.r++ % INPUT_BUF]`. -/
def take (s : State) : State :=
  { s with
    cons := { s.cons with r := s.cons.r + 1 }
    consumed := s.consumed ++ [s.next] }

/-- `cons.r--`. -/
def untake (s : State) : State :=
  { s with
    cons := { s.cons with r := s.cons.r - 1 }
    consumed := s.consumed.dropLast }

/-- A byte has been copied to the reader. -/
def hand (s : State) (c : UInt8) : State := { s with handed := s.handed ++ [c] }

end State

/-- Why a read ended. -/
inductive Stop where
  | count
  | newline
  | eof
  | fault
  | killed
  deriving DecidableEq

/-- What `consoleread` does when it gives up the lock, with `left` bytes wanted and `got` copied. -/
inductive Turn where
  | sleep (left : Nat) (got : List UInt8)
  | stop (left : Nat) (got : List UInt8) (why : Stop)

/-- The loop of `consoleread` with `left` of `target` bytes wanted; the first `mapped` can be
copied. -/
def readLoop (killed : Bool) (target mapped : Nat) :
    (left : Nat) → List UInt8 → State → Turn × State
  | 0, got, s => (.stop 0 got .count, s)
  | left + 1, got, s =>
    if s.cons.r = s.cons.w then
      (if killed then .stop (left + 1) got .killed else .sleep (left + 1) got, s)
    else if s.next = C 'D' then
      -- Save ^D for next time, to make sure the caller gets a 0-byte result.
      (.stop (left + 1) got .eof, if left + 1 < target then s.take.untake else s.take)
    else if mapped ≤ target - (left + 1) then (.stop (left + 1) got .fault, s.take)
    else if s.next = newline then
      (.stop left (got ++ [s.next]) .newline, s.take.hand s.next)
    else readLoop killed target mapped left (got ++ [s.next]) (s.take.hand s.next)

/-- A read that has returned: its arguments, what it copied and why it ended. -/
structure Returned where
  n : Int
  mapped : Nat
  got : List UInt8
  why : Stop
  result : Int

/-- Where a process stands: outside `consoleread`, after the read it made last, or asleep in
`consoleread(.., n)` with `left` bytes wanted and `got` copied. -/
inductive Label where
  | user (last : Option Returned)
  | reading (n : Int) (mapped left : Nat) (got : List UInt8)

/-- What `consoleread` returns, or where it sleeps. -/
def Turn.label (n : Int) (mapped : Nat) : Turn → Label
  | .sleep left got => .reading n mapped left got
  | .stop left got why =>
    .user (some ⟨n, mapped, got, why, if why = .killed then -1 else ((n.toNat - left : Nat) : Int)⟩)

/-- The atomic operations. -/
inductive Op where
  | intr (c : UInt8)
  | read (n : Int) (mapped left : Nat) (got : List UInt8)

/-- What each operation returns. -/
abbrev Res : Op → Type
  | .intr _ => Unit
  | .read .. => Turn

/-- Perform an operation; `killed` says whether the process has been killed. -/
def exec (killed : Bool) : (o : Op) → State → Outcome State (Res o)
  | .intr c, s => .done () (s.intr c)
  | .read n mapped left got, s =>
    .done (readLoop killed n.toNat mapped left got s).1
      (readLoop killed n.toNat mapped left got s).2

/-- What happens next: a key, a call of `consoleread`, or a reader that goes on. -/
inductive Call where
  | intr (c : UInt8)
  | read (n : Int) (mapped : Nat)
  | goOn

/-- `consoleread` from the head of its loop on. -/
def consoleread (n : Int) (mapped left : Nat) (got : List UInt8) : Prog Op Res Label := do
  let turn ← Prog.perform (Op.read n mapped left got)
  pure (turn.label n mapped)

/-- The code of each call. -/
def code : Label → Call → Option (Prog Op Res Label)
  | .user last, .intr c => some do
      Prog.perform (Op.intr c)
      pure (.user last)
  | .user _, .read n mapped => some (consoleread n mapped n.toNat [])
  | .reading n mapped left got, .goOn => some (consoleread n mapped left got)
  | _, _ => none

/-- The processes and the console they share. -/
def machine (Pid : Type) : Machine Pid Op Res State Label Call Bool where
  silent := fun _ => false
  exec := fun _ => exec
  code := fun _ => code

/-- The console after `consoleinit`, with any bytes in its buffer. -/
def booted {Pid : Type} (buf : Fin INPUT_BUF → UInt8) : Config Pid Op Res State Label where
  state := ⟨⟨buf, 0, 0, 0⟩, [], [], ⟨[], []⟩⟩
  prog := fun _ => .ret (.user none)
  panicked := none

/-- The destination of a read is mapped as far as the read may go, so its copies succeed. -/
def copiesSucceed : Op → Bool
  | .intr _ => true
  | .read n mapped _ _ => n ≤ mapped

end Xv6.Console
