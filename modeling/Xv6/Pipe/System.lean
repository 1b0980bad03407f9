import Xv6.Interleave.Machine
import Xv6.Ring.Fifo

/-!
# The pipe of `kernel/pipe.c`

The machine in which any number of processes run `pipewrite`, `piperead` and `pipeclose` on one
pipe. An operation is one `acquire` or `release` of `pi->lock`, or one access between two of them.
A process that sleeps has released the lock and may go on at any moment, so every pattern of
wakeups and kills is among the schedules. Whether the process has been killed, and what `copyin`
and `copyout` do, is up to the environment.

`enqueued` and `dequeued` are history variables that no branch reads.
-/

namespace Xv6.Pipe

open Interleave
open Prog (perform)

/-- Bytes that a pipe can hold. -/
def PIPESIZE : Nat := 512

instance : NeZero PIPESIZE := ⟨by decide⟩

/-- `struct pipe`, with the process that holds its lock, and whether `kfree` has been called. -/
structure State (Pid : Type) where
  lock : Option Pid
  data : Fin PIPESIZE → UInt8
  nread : BitVec 32
  nwrite : BitVec 32
  readopen : Bool
  writeopen : Bool
  freed : Bool
  /-- All bytes that were ever stored in the pipe. -/
  enqueued : List UInt8
  /-- All bytes that were ever taken out of it. -/
  dequeued : List UInt8

/-- What the environment decides. -/
structure Choice where
  killed : Bool
  copyin : Option UInt8
  copyout : Bool

/-- The channels on which `pipewrite` and `piperead` sleep. -/
inductive Chan where
  | nread
  | nwrite

/-- The atomic operations. `copyin` and `copyout` transfer the byte at `addr + i`. -/
inductive Op where
  | acquire
  | release
  | isFull
  | readClosed
  | isKilled
  | copyin (i : Nat)
  | put (ch : UInt8)
  | isEmpty
  | isWriteOpen
  | take
  | copyout (i : Nat) (ch : UInt8)
  | wakeup (chan : Chan)
  | close (writable : Bool)
  | bothClosed
  | kfree

/-- What each operation returns. -/
abbrev Res : Op → Type
  | .isFull => Bool
  | .readClosed => Bool
  | .isKilled => Bool
  | .copyin _ => Option UInt8
  | .isEmpty => Bool
  | .isWriteOpen => Bool
  | .take => UInt8
  | .copyout _ _ => Bool
  | .bothClosed => Bool
  | _ => Unit

namespace State

variable {Pid : Type}

/-- `pi->data[pi->nwrite++ % PIPESIZE] = ch`. -/
def put (s : State Pid) (ch : UInt8) : State Pid :=
  { s with
    data := Function.update s.data (Ring.slot PIPESIZE s.nwrite) ch
    nwrite := s.nwrite + 1
    enqueued := s.enqueued ++ [ch] }

/-- The byte that `pi->data[pi->nread++ % PIPESIZE]` yields. -/
def next (s : State Pid) : UInt8 := s.data (Ring.slot PIPESIZE s.nread)

/-- The state after `pi->data[pi->nread++ % PIPESIZE]`. -/
def take (s : State Pid) : State Pid :=
  { s with nread := s.nread + 1, dequeued := s.dequeued ++ [s.next] }

/-- One end of the pipe is closed. -/
def close (s : State Pid) (writable : Bool) : State Pid :=
  if writable then { s with writeopen := false } else { s with readopen := false }

/-- The bytes in `data` that have not been read, oldest first. -/
def unread (s : State Pid) : List UInt8 :=
  (List.range (s.nwrite - s.nread).toNat).map fun k =>
    s.data (Ring.slot PIPESIZE (s.nread + BitVec.ofNat 32 k))

end State

variable {Pid : Type} [DecidableEq Pid]

/-- Perform an operation of process `p`. -/
def exec (p : Pid) (choice : Choice) : (o : Op) → State Pid → Outcome (State Pid) (Res o)
  | .acquire, s =>
    if s.freed then .blocked
    else
      match s.lock with
      | none => .done () { s with lock := some p }
      | some q => if q = p then .panic "acquire" else .blocked
  | .release, s => if s.lock = some p then .done () { s with lock := none } else .panic "release"
  | .isFull, s => .done (s.nwrite = s.nread + BitVec.ofNat 32 PIPESIZE) s
  | .readClosed, s => .done (!s.readopen) s
  | .isKilled, s => .done choice.killed s
  | .copyin _, s => .done choice.copyin s
  | .put ch, s => .done () (s.put ch)
  | .isEmpty, s => .done (s.nread = s.nwrite) s
  | .isWriteOpen, s => .done s.writeopen s
  | .take, s => .done s.next s.take
  | .copyout _ _, s => .done choice.copyout s
  | .wakeup _, s => .done () s
  | .close writable, s => .done () (s.close writable)
  | .bothClosed, s => .done (!s.readopen && !s.writeopen) s
  | .kfree, s => .done () { s with freed := true }

/-- Programs of one process. -/
abbrev Code := Prog Op Res

/-- Where a process stands between two calls: outside the pipe's code with the value that its last
call returned, asleep in `pipewrite` with `left` of `n` bytes to write, or asleep in `piperead`. -/
inductive Label where
  | user (result : Int)
  | writing (n : Int) (left : Nat)
  | reading (n : Int)

/-- The end of `pipewrite`. -/
def pipewriteDone (n : Int) : Code Label := do
  perform (Op.wakeup .nread)
  perform Op.release
  pure (.user n)

/-- What `pipewrite` does when the pipe is full: give up, or sleep on `&pi->nwrite`. -/
def pipewriteFull (n : Int) (left : Nat) : Code Label := do
  let closed ← perform Op.readClosed
  let killed ← perform Op.isKilled
  if closed || killed then
    perform Op.release
    pure (.user (-1))
  else
    perform (Op.wakeup .nread)
    perform Op.release
    pure (.writing n left)

/-- The loop of `pipewrite` with `left` bytes to write. -/
def pipewriteFrom (n : Int) : (left : Nat) → Code Label
  | 0 => pipewriteDone n
  | left + 1 => do
      let full ← perform Op.isFull
      if full then pipewriteFull n (left + 1)
      else
        let byte ← perform (Op.copyin (n.toNat - (left + 1)))
        match byte with
        | none => pipewriteDone n
        | some ch =>
          perform (Op.put ch)
          pipewriteFrom n left

/-- The end of `piperead`. -/
def pipereadDone (i : Int) : Code Label := do
  perform (Op.wakeup .nwrite)
  perform Op.release
  pure (.user i)

/-- The copying loop of `piperead` with `left` of `n` bytes to read. -/
def pipereadFrom (n : Nat) : (left : Nat) → Code Label
  | 0 => pipereadDone n
  | left + 1 => do
      let empty ← perform Op.isEmpty
      if empty then pipereadDone (n - (left + 1) : Nat)
      else
        let ch ← perform Op.take
        let copied ← perform (Op.copyout (n - (left + 1)) ch)
        if copied then pipereadFrom n left else pipereadDone (n - (left + 1) : Nat)

/-- What `piperead` does when the pipe is empty: give up, or sleep on `&pi->nread`. -/
def pipereadEmpty (n : Int) : Code Label := do
  let killed ← perform Op.isKilled
  if killed then
    perform Op.release
    pure (.user (-1))
  else
    perform Op.release
    pure (.reading n)

/-- `piperead` from its waiting loop on. -/
def pipereadWait (n : Int) : Code Label := do
  let empty ← perform Op.isEmpty
  if empty then
    let writeopen ← perform Op.isWriteOpen
    if writeopen then pipereadEmpty n else pipereadFrom n.toNat n.toNat
  else pipereadFrom n.toNat n.toNat

/-- The end of `pipeclose`, after the test whether both ends are closed. -/
def pipecloseFree (closed : Bool) : Code Label :=
  if closed then do
    perform Op.release
    perform Op.kfree
    pure (.user 0)
  else do
    perform Op.release
    pure (.user 0)

/-- `pipeclose` after the end has been marked closed. -/
def pipecloseEnd : Code Label := do
  let closed ← perform Op.bothClosed
  pipecloseFree closed

/-- `pipeclose`. -/
def pipeclose (writable : Bool) : Code Label := do
  perform Op.acquire
  perform (Op.close writable)
  perform (Op.wakeup (if writable then .nread else .nwrite))
  pipecloseEnd

/-- What a process does next. -/
inductive Call where
  | write (n : Int)
  | read (n : Int)
  | close (writable : Bool)
  | goOn

/-- The code of each call. -/
def code (_ : Pid) : Label → Call → Option (Code Label)
  | .user _, .write n => some do
      perform Op.acquire
      pipewriteFrom n n.toNat
  | .user _, .read n => some do
      perform Op.acquire
      pipereadWait n
  | .user _, .close writable => some (pipeclose writable)
  | .writing n left, .goOn => some do
      perform Op.acquire
      pipewriteFrom n left
  | .reading n, .goOn => some do
      perform Op.acquire
      pipereadWait n
  | _, _ => none

/-- The processes and the pipe they share. -/
def machine (Pid : Type) [DecidableEq Pid] : Machine Pid Op Res (State Pid) Label Call Choice where
  silent := fun _ => false
  exec := exec
  code := code

/-- The state that `pipealloc` leaves in a page with contents `data`. -/
def State.fresh (data : Fin PIPESIZE → UInt8) : State Pid where
  lock := none
  data := data
  nread := 0
  nwrite := 0
  readopen := true
  writeopen := true
  freed := false
  enqueued := []
  dequeued := []

/-- A new pipe that no process uses yet. -/
def created (data : Fin PIPESIZE → UInt8) : Config Pid Op Res (State Pid) Label where
  state := .fresh data
  prog := fun _ => .ret (.user 0)
  panicked := none

end Xv6.Pipe
