import Xv6.Interleave.Machine
import Mathlib.Data.List.FinRange

/-!
# The sleep-locks of `kernel/sleeplock.c`

The machine in which `n` processes run `acquiresleep` and `releasesleep` on any number of
sleep-locks, `sleep` and `wakeup` on other channels, and `kill`. An operation is one `acquire` or
`release` of a spinlock, or one access between two of them. The schedulers appear through what they
do to a process that has called `sched`: they release its lock, and once it is runnable and its lock
is free, they lock it and run it again.

`holding` and `releasing` are history variables that no branch reads.
-/

namespace Xv6.SleepLock

open Interleave Function
open Prog (perform)

/-- `enum procstate`, for processes that exist. -/
inductive ProcState where
  | SLEEPING
  | RUNNABLE
  | RUNNING
  deriving DecidableEq

/-- A sleep channel: a sleep-lock, or another address. -/
inductive Chan (Lk : Type) where
  | lk (l : Lk)
  | other (address : Nat)
  deriving DecidableEq

/-- The fields of `struct proc` that are used here. -/
structure Proc (n : Nat) (Lk : Type) where
  lock : Option (Fin n)
  state : ProcState
  chan : Option (Chan Lk)
  killed : Bool
  pid : BitVec 32

/-- `struct sleeplock`; `lk` is the process that holds the spinlock. -/
structure Sleeplock (n : Nat) where
  lk : Option (Fin n)
  locked : Bool
  pid : BitVec 32

/-- The shared state. -/
structure State (n : Nat) (Lk : Type) where
  proc : Fin n → Proc n Lk
  sleeplock : Lk → Sleeplock n
  /-- The sleep-locks for which `acquiresleep` has returned, and `releasesleep` was not called. -/
  holding : Fin n → List Lk
  /-- The sleep-lock for which the process is in `releasesleep`. -/
  releasing : Fin n → Option Lk

/-- The atomic operations. -/
inductive Op (n : Nat) (Lk : Type) where
  | acquire (q : Fin n)
  | release (q : Fin n)
  | acquireLk (l : Lk)
  | releaseLk (l : Lk)
  | isLocked (l : Lk)
  | isMine (l : Lk)
  | lock (l : Lk)
  | unlock (l : Lk)
  | setSleeping (chan : Chan Lk)
  | sched
  | resume
  | clearChan
  | wakeup (q : Fin n) (chan : Chan Lk)
  | kill (q : Fin n) (pid : BitVec 32)
  /-- `acquiresleep` returns. -/
  | acquired (l : Lk)
  /-- `releasesleep` is called. -/
  | releasing (l : Lk)
  /-- `releasesleep` returns. -/
  | released (l : Lk)

/-- What each operation returns. -/
abbrev Res {n : Nat} {Lk : Type} : Op n Lk → Type
  | .isLocked _ => Bool
  | .isMine _ => Bool
  | .kill _ _ => Bool
  | _ => Unit

variable {n : Nat} {Lk : Type}

/-- What `wakeup` does to a process. -/
def wakeupOn [DecidableEq Lk] (chan : Chan Lk) (p : Proc n Lk) : Proc n Lk :=
  if p.state = .SLEEPING ∧ p.chan = some chan then { p with state := .RUNNABLE } else p

/-- What `kill` does to the process whose pid it was given. -/
def killProc (p : Proc n Lk) : Proc n Lk :=
  { p with killed := true, state := if p.state = .SLEEPING then .RUNNABLE else p.state }

namespace State

/-- Change one process. -/
def modify (s : State n Lk) (q : Fin n) (f : Proc n Lk → Proc n Lk) : State n Lk :=
  { s with proc := update s.proc q (f (s.proc q)) }

variable [DecidableEq Lk]

/-- Change one sleep-lock. -/
def modifyLk (s : State n Lk) (l : Lk) (f : Sleeplock n → Sleeplock n) : State n Lk :=
  { s with sleeplock := update s.sleeplock l (f (s.sleeplock l)) }

end State

variable [DecidableEq Lk]

/-- Perform an operation of process `p`. -/
def exec (p : Fin n) : (o : Op n Lk) → State n Lk → Outcome (State n Lk) (Res o)
  | .acquire q, s =>
    match (s.proc q).lock with
    | none => .done () (s.modify q fun proc => { proc with lock := some p })
    | some r => if r = p then .panic "acquire" else .blocked
  | .release q, s =>
    if (s.proc q).lock = some p then .done () (s.modify q fun proc => { proc with lock := none })
    else .panic "release"
  | .acquireLk l, s =>
    match (s.sleeplock l).lk with
    | none => .done () (s.modifyLk l fun lock => { lock with lk := some p })
    | some r => if r = p then .panic "acquire" else .blocked
  | .releaseLk l, s =>
    if (s.sleeplock l).lk = some p then
      .done () (s.modifyLk l fun lock => { lock with lk := none })
    else .panic "release"
  | .isLocked l, s => .done (s.sleeplock l).locked s
  | .isMine l, s => .done ((s.sleeplock l).locked && (s.sleeplock l).pid = (s.proc p).pid) s
  | .lock l, s =>
    .done () (s.modifyLk l fun lock => { lock with locked := true, pid := (s.proc p).pid })
  | .unlock l, s => .done () (s.modifyLk l fun lock => { lock with locked := false, pid := 0 })
  | .setSleeping chan, s =>
    .done () (s.modify p fun proc => { proc with chan := some chan, state := .SLEEPING })
  | .sched, s =>
    if (s.proc p).lock ≠ some p then .panic "sched p->lock"
    else if (s.proc p).state = .RUNNING then .panic "sched running"
    else .done () (s.modify p fun proc => { proc with lock := none })
  | .resume, s =>
    if (s.proc p).lock = none ∧ (s.proc p).state = .RUNNABLE then
      .done () (s.modify p fun proc => { proc with lock := some p, state := .RUNNING })
    else .blocked
  | .clearChan, s => .done () (s.modify p fun proc => { proc with chan := none })
  | .wakeup q chan, s => .done () (s.modify q (wakeupOn chan))
  | .kill q pid, s =>
    if (s.proc q).pid = pid then .done true (s.modify q killProc) else .done false s
  | .acquired l, s => .done () { s with holding := update s.holding p (l :: s.holding p) }
  | .releasing l, s =>
    .done () { s with
        holding := update s.holding p ((s.holding p).filter (· ≠ l))
        releasing := update s.releasing p (some l) }
  | .released _, s => .done () { s with releasing := update s.releasing p none }

/-- Programs of one process. -/
abbrev Code (n : Nat) (Lk : Type) := Prog (Op n Lk) Res

/-- `sleep` from the moment `p->lock` is held to the moment it is released. -/
def sleepLocked (p : Fin n) (chan : Chan Lk) : Code n Lk Unit := do
  perform (Op.setSleeping chan)
  perform Op.sched
  perform Op.resume
  perform Op.clearChan
  perform (Op.release p)

/-- `sleep(lk, &lk->lk)`. -/
def sleep (p : Fin n) (l : Lk) : Code n Lk Unit := do
  perform (Op.acquire p)
  perform (Op.releaseLk l)
  sleepLocked p (.lk l)
  perform (Op.acquireLk l)

/-- `wakeup`'s loop over the remaining processes. -/
def wakeup (chan : Chan Lk) : List (Fin n) → Code n Lk Unit
  | [] => pure ()
  | q :: rest => do
      perform (Op.acquire q)
      perform (Op.wakeup q chan)
      perform (Op.release q)
      wakeup chan rest

/-- `kill`'s loop over the remaining processes. -/
def kill (pid : BitVec 32) : List (Fin n) → Code n Lk Unit
  | [] => pure ()
  | q :: rest => do
      perform (Op.acquire q)
      let hit ← perform (Op.kill q pid)
      perform (Op.release q)
      if hit then pure () else kill pid rest

/-- Where a process stands: outside, with its sleep-locks, or in the loop of `acquiresleep`. -/
inductive Label (Lk : Type) where
  | user (held : List Lk)
  | trying (l : Lk) (held : List Lk)

/-- `acquiresleep` from the head of its loop: sleep, or take the sleep-lock. -/
def acquiresleepRound (p : Fin n) (l : Lk) (held : List Lk) : Code n Lk (Label Lk) := do
  let locked ← perform (Op.isLocked l)
  if locked then
    sleep p l
    pure (.trying l held)
  else
    perform (Op.lock l)
    perform (Op.releaseLk l)
    perform (Op.acquired l)
    pure (.user (l :: held))

/-- `releasesleep`. -/
def releasesleep (l : Lk) : Code n Lk Unit := do
  perform (Op.releasing l)
  perform (Op.acquireLk l)
  perform (Op.unlock l)
  wakeup (.lk l) (List.finRange n)
  perform (Op.releaseLk l)
  perform (Op.released l)

/-- `holdingsleep`. -/
def holdingsleep (l : Lk) : Code n Lk Bool := do
  perform (Op.acquireLk l)
  let mine ← perform (Op.isMine l)
  perform (Op.releaseLk l)
  pure mine

/-- What a process does next. -/
inductive Call (Lk : Type) where
  | acquiresleep (l : Lk)
  | releasesleep (l : Lk)
  | holdingsleep (l : Lk)
  | sleep (address : Nat)
  | wakeup (address : Nat)
  | kill (pid : BitVec 32)
  | goOn

/-- The code of each call. A process releases only sleep-locks that it has acquired. -/
def code (p : Fin n) : Label Lk → Call Lk → Option (Code n Lk (Label Lk))
  | .user held, .acquiresleep l => some do
      perform (Op.acquireLk l)
      pure (.trying l held)
  | .trying l held, .goOn => some (acquiresleepRound p l held)
  | .user held, .releasesleep l =>
    if l ∈ held then some do
      releasesleep l
      pure (.user (held.filter (· ≠ l)))
    else none
  | .user held, .holdingsleep l => some do
      let _ ← holdingsleep l
      pure (.user held)
  | .user held, .sleep address => some do
      perform (Op.acquire p)
      sleepLocked p (.other address)
      pure (.user held)
  | .user held, .wakeup address => some do
      wakeup (.other address) (List.finRange n)
      pure (.user held)
  | .user held, .kill pid => some do
      kill pid (List.finRange n)
      pure (.user held)
  | _, _ => none

/-- The processes and the sleep-locks they share. -/
def machine (n : Nat) (Lk : Type) [DecidableEq Lk] :
    Machine (Fin n) (Op n Lk) Res (State n Lk) (Label Lk) (Call Lk) Unit where
  silent := fun _ => false
  exec := fun p _ => exec p
  code := code

/-- All processes run, and the sleep-locks are as `initsleeplock` leaves them. -/
def State.initial (pid : Fin n → BitVec 32) : State n Lk where
  proc := fun p => ⟨none, .RUNNING, none, false, pid p⟩
  sleeplock := fun _ => ⟨none, false, 0⟩
  holding := fun _ => []
  releasing := fun _ => none

/-- The configuration in which no process has called anything yet. -/
def start (pid : Fin n → BitVec 32) : Config (Fin n) (Op n Lk) Res (State n Lk) (Label Lk) where
  state := .initial pid
  prog := fun _ => .ret (.user [])
  panicked := none

end Xv6.SleepLock
