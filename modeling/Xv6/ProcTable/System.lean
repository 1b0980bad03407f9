import Xv6.Interleave.Machine
import Xv6.Param
import Mathlib.Data.List.FinRange

/-!
# The process table of `kernel/proc.c`

The machine in which the processes run `fork`, `exit`, `wait`, `kill`, `sleep`, `wakeup` and
`yield`, and every CPU runs `scheduler`, all at once. An operation is one `acquire` or `release`
of a `p->lock`, or one access to the table between two of them; between two operations every
other process and CPU may run. The lock of a process travels with `swtch`: a scheduler hands it
to the process it starts, and `sched` hands it back to the scheduler of the CPU.

A slot of the table has one kernel thread. It is `out` while there is no process in the slot, or
one that no scheduler has chosen yet, or a zombie. Besides the kernel's own variables the state
keeps history variables that no branch reads, from `stamp` on.
-/

namespace Xv6.ProcTable

open Interleave Function
open Prog (perform)

/-- The address of a `struct proc` in the table. -/
abbrev Slot := Fin NPROC

/-- The index of a `struct cpu`. -/
abbrev Cpu := Fin NCPU

/-- Who runs code: the kernel thread of a process, or the scheduler of a CPU. -/
inductive Agent where
  | proc (p : Slot)
  | cpu (c : Cpu)
  deriving DecidableEq

/-- `enum procstate`. -/
inductive ProcState where
  | UNUSED
  | SLEEPING
  | RUNNABLE
  | RUNNING
  | ZOMBIE
  deriving DecidableEq

/-- A sleep channel: a process's own `struct proc`, on which `wait` sleeps, or another address. -/
inductive Chan where
  | proc (p : Slot)
  | other (address : Nat)
  deriving DecidableEq

/-- The fields of `struct proc` that need `p->lock`. A null pointer is `none`. -/
structure Proc where
  lock : Option Agent
  state : ProcState
  parent : Option Slot
  chan : Option Chan
  killed : Bool
  xstate : BitVec 32
  pid : BitVec 32

/-- A process that has become a zombie: its stamp, its pid, and its status. -/
structure ExitRecord where
  stamp : Nat
  pid : BitVec 32
  status : BitVec 32

/-- A child freed by `wait`: its stamp, the caller, the child's parent at that moment, the
returned pid, and the status that was copied out unless the caller's pointer was null. -/
structure WaitRecord where
  child : Nat
  caller : Slot
  parent : Option Slot
  pid : BitVec 32
  status : Option (BitVec 32)

/-- The shared state. -/
structure State where
  proc : Slot → Proc
  nextpid : BitVec 32
  /-- The field `proc` of each `struct cpu`. -/
  cpuProc : Cpu → Option Slot
  /-- Numbers the processes in the order of their creation. -/
  stamp : Slot → Nat
  nextStamp : Nat
  /-- The local variable `original_parent` of a process in `exit`. -/
  originalParent : Slot → Option Slot
  exits : List ExitRecord
  waits : List WaitRecord
  /-- The states that the process in this slot had when a `kill` named its pid. -/
  namedAt : Slot → List ProcState
  /-- The states of the slots for which a `kill` has returned 0. -/
  killHits : List ProcState
  /-- The field `killed` of the child whenever a `fork` has succeeded. -/
  births : List Bool

/-- `initproc`: `userinit` finds the first slot free. -/
def initproc : Slot := 0

/-- A slot of the table before it is used for the first time. -/
def Proc.zero : Proc where
  lock := none
  state := .UNUSED
  parent := none
  chan := none
  killed := false
  xstate := 0
  pid := 0

namespace State

/-- The state that `userinit` leaves: one runnable process. -/
def boot : State where
  proc := update (fun _ => .zero) initproc { Proc.zero with state := .RUNNABLE, pid := 1 }
  nextpid := 2
  cpuProc := fun _ => none
  stamp := fun _ => 0
  nextStamp := 1
  originalParent := fun _ => none
  exits := []
  waits := []
  namedAt := fun _ => []
  killHits := []
  births := []

/-- Change one slot. -/
def modify (s : State) (q : Slot) (f : Proc → Proc) : State :=
  { s with proc := update s.proc q (f (s.proc q)) }

/-- The CPU that runs the process in slot `p`. -/
def cpuOf (s : State) (p : Slot) : Option Cpu :=
  (List.finRange NCPU).find? fun c => s.cpuProc c = some p

/-- How many process locks an agent holds. -/
def noff (s : State) (a : Agent) : Nat :=
  (List.finRange NPROC).countP fun q => (s.proc q).lock = some a

end State

/-- What `wait` finds in the slot of a child. -/
inductive Child where
  | running
  | fault
  | freed (pid : BitVec 32)

/-- The atomic operations. -/
inductive Op where
  | acquire (q : Slot)
  | release (q : Slot)
  | isUnused (q : Slot)
  | allocpid (q : Slot)
  | kalloc
  | uvmcreate
  | uvmcopy
  | freeproc (q : Slot)
  | setParent (q : Slot)
  | setRunnable (q : Slot)
  | isInit
  | originalParent
  | parentIsMe (q : Slot)
  | giveToInit (q : Slot)
  | wakeup1 (q : Slot)
  | setZombie (status : BitVec 32)
  | collect (q : Slot) (addr : Nat)
  | isKilled
  | setSleeping (chan : Chan)
  | clearChan
  | giveUp
  | sched
  | resume
  | swtch (q : Slot)
  | regain (q : Slot)
  | kill (q : Slot) (pid : BitVec 32)
  | wakeup (q : Slot) (chan : Chan)
  | panic (message : String)

/-- What each operation returns. -/
abbrev Res : Op → Type
  | .isUnused _ => Bool
  | .kalloc => Bool
  | .uvmcopy => Bool
  | .setRunnable _ => BitVec 32
  | .isInit => Bool
  | .originalParent => Option Slot
  | .parentIsMe _ => Bool
  | .collect _ _ => Child
  | .isKilled => Bool
  | .swtch _ => Bool
  | .kill _ _ => Bool
  | _ => Unit

/-- `freeproc`, as far as the modelled fields go. -/
def freeproc (p : Proc) : Proc :=
  { p with pid := 0, parent := none, chan := none, killed := false, xstate := 0, state := .UNUSED }

/-- What `wakeup1` does to the slot `q`. -/
def wakeup1 (q : Slot) (p : Proc) : Proc :=
  if p.chan = some (.proc q) ∧ p.state = .SLEEPING then { p with state := .RUNNABLE } else p

/-- What `wakeup` does to a slot. -/
def wakeupOn (chan : Chan) (p : Proc) : Proc :=
  if p.state = .SLEEPING ∧ p.chan = some chan then { p with state := .RUNNABLE } else p

/-- What `kill` does to the slot whose pid it was given. -/
def killProc (p : Proc) : Proc :=
  { p with killed := true, state := if p.state = .SLEEPING then .RUNNABLE else p.state }

/-- `np->state = RUNNABLE` at the end of `fork`: the process in slot `q` exists from now on. -/
def State.setRunnable (s : State) (q : Slot) : State :=
  { s with
    stamp := update s.stamp q s.nextStamp
    nextStamp := s.nextStamp + 1
    namedAt := update s.namedAt q []
    births := (s.proc q).killed :: s.births }.modify q fun p => { p with state := .RUNNABLE }

/-- The end of `exit`'s locked section: `p` becomes a zombie. -/
def State.setZombie (s : State) (p : Slot) (status : BitVec 32) : State :=
  { s with
    originalParent := update s.originalParent p none
    exits := ⟨s.stamp p, (s.proc p).pid, status⟩ :: s.exits }.modify p fun proc =>
      { proc with xstate := status, state := .ZOMBIE }

/-- `wait` of process `p` frees the zombie in slot `q`. -/
def State.collect (s : State) (p q : Slot) (addr : Nat) : State :=
  { s with
    waits := ⟨s.stamp q, p, (s.proc q).parent, (s.proc q).pid,
      if addr ≠ 0 then some (s.proc q).xstate else none⟩ :: s.waits
    namedAt := update s.namedAt q [] }.modify q freeproc

/-- `kill` has found its pid in slot `q`. -/
def State.kill (s : State) (q : Slot) : State :=
  { s with
    namedAt := update s.namedAt q ((s.proc q).state :: s.namedAt q)
    killHits := (s.proc q).state :: s.killHits }.modify q killProc

/-- The operations that use `myproc()`, performed by the process in slot `p`. -/
def execProc (p : Slot) (ok : Bool) : (o : Op) → State → Outcome State (Res o)
  | .setParent q, s => .done () (s.modify q fun np => { np with parent := some p })
  | .isInit, s => .done (p = initproc) s
  | .originalParent, s =>
    .done (s.proc p).parent { s with originalParent := update s.originalParent p (s.proc p).parent }
  | .parentIsMe q, s => .done ((s.proc q).parent = some p) s
  | .setZombie status, s => .done () (s.setZombie p status)
  | .collect q addr, s =>
    if (s.proc q).state = .ZOMBIE then
      if addr ≠ 0 ∧ ok = false then .done .fault s
      else .done (.freed (s.proc q).pid) (s.collect p q addr)
    else .done .running s
  | .isKilled, s => .done (s.proc p).killed s
  | .setSleeping chan, s =>
    .done () (s.modify p fun proc => { proc with chan := some chan, state := .SLEEPING })
  | .clearChan, s => .done () (s.modify p fun proc => { proc with chan := none })
  | .giveUp, s => .done () (s.modify p fun proc => { proc with state := .RUNNABLE })
  | .sched, s =>
    if (s.proc p).lock ≠ some (.proc p) then .panic "sched p->lock"
    else if s.noff (.proc p) ≠ 1 then .panic "sched locks"
    else if (s.proc p).state = .RUNNING then .panic "sched running"
    else
      match s.cpuOf p with
      | some c => .done () (s.modify p fun proc => { proc with lock := some (.cpu c) })
      | none => .panic "mycpu"
  | .resume, s => if (s.proc p).lock = some (.proc p) then .done () s else .blocked
  | .panic message, _ => .panic message
  | _, _ => .panic "myproc"

/-- The operations of the scheduler of CPU `c`. -/
def execCpu (c : Cpu) : (o : Op) → State → Outcome State (Res o)
  | .swtch q, s =>
    if (s.proc q).state = .RUNNABLE then
      .done true ({ s with cpuProc := update s.cpuProc c (some q) }.modify q fun p =>
          { p with state := .RUNNING, lock := some (.proc q) })
    else .done false s
  | .regain q, s =>
    if (s.proc q).lock = some (.cpu c) then
      .done () { s with cpuProc := update s.cpuProc c none }
    else .blocked
  | _, _ => .panic "mycpu"

/-- Perform an operation of agent `a`; `ok` says whether an allocation or a copy succeeds. -/
def exec (a : Agent) (ok : Bool) : (o : Op) → State → Outcome State (Res o)
  | .acquire q, s =>
    match (s.proc q).lock with
    | none => .done () (s.modify q fun p => { p with lock := some a })
    | some b => if b = a then .panic "acquire" else .blocked
  | .release q, s =>
    if (s.proc q).lock = some a then .done () (s.modify q fun p => { p with lock := none })
    else .panic "release"
  | .isUnused q, s => .done ((s.proc q).state = .UNUSED) s
  | .allocpid q, s =>
    .done () ({ s with nextpid := s.nextpid + 1 }.modify q fun p => { p with pid := s.nextpid })
  | .kalloc, s => .done ok s
  | .uvmcreate, s => if ok then .done () s else .panic "uvmcreate: out of memory"
  | .uvmcopy, s => .done ok s
  | .freeproc q, s => .done () (s.modify q freeproc)
  | .setRunnable q, s => .done (s.proc q).pid (s.setRunnable q)
  | .giveToInit q, s => .done () (s.modify q fun p => { p with parent := some initproc })
  | .wakeup1 q, s =>
    if (s.proc q).lock = some a then .done () (s.modify q (wakeup1 q)) else .panic "wakeup1"
  | .kill q pid, s =>
    if (s.proc q).pid = pid then .done true (s.kill q) else .done false s
  | .wakeup q chan, s => .done () (s.modify q (wakeupOn chan))
  | o, s =>
    match a with
    | .proc p => execProc p ok o s
    | .cpu c => execCpu c o s

/-- Programs of one agent. -/
abbrev Code := Prog Op Res

/-- The slots in the order in which the loops visit them. -/
def slots : List Slot := List.finRange NPROC

/-- The part of `allocproc` behind `found`. -/
def allocprocFound (q : Slot) : Code (Option Slot) := do
  perform (Op.allocpid q)
  let tf ← perform Op.kalloc
  if tf then
    perform Op.uvmcreate
    pure (some q)
  else
    perform (Op.release q)
    pure none

/-- The loop of `allocproc` over the remaining slots. -/
def allocproc : List Slot → Code (Option Slot)
  | [] => pure none
  | q :: rest => do
      perform (Op.acquire q)
      let unused ← perform (Op.isUnused q)
      if unused then allocprocFound q
      else
        perform (Op.release q)
        allocproc rest

/-- The part of `fork` after `allocproc` has found a slot. -/
def forkInto (np : Slot) : Code (BitVec 32) := do
  let copied ← perform Op.uvmcopy
  if copied then
    perform (Op.setParent np)
    let pid ← perform (Op.setRunnable np)
    perform (Op.release np)
    pure pid
  else
    perform (Op.freeproc np)
    perform (Op.release np)
    pure (-1)

/-- `fork`. -/
def fork : Code (BitVec 32) := do
  match ← allocproc slots with
  | some np => forkInto np
  | none => pure (-1)

/-- The loop of `reparent` over the remaining slots. -/
def reparent : List Slot → Code Unit
  | [] => pure ()
  | pp :: rest => do
      let mine ← perform (Op.parentIsMe pp)
      if mine then
        perform (Op.acquire pp)
        perform (Op.giveToInit pp)
        perform (Op.release pp)
        reparent rest
      else reparent rest

/-- The part of `exit` after `original_parent` has been read. -/
def exitUnder (p parent : Slot) (status : BitVec 32) : Code Unit := do
  perform (Op.acquire parent)
  perform (Op.acquire p)
  reparent slots
  perform (Op.wakeup1 parent)
  perform (Op.setZombie status)
  perform (Op.release parent)
  perform Op.sched

/-- The part of `exit` that a process other than init reaches. -/
def exitProc (p : Slot) (status : BitVec 32) : Code Unit := do
  perform (Op.acquire initproc)
  perform (Op.wakeup1 initproc)
  perform (Op.release initproc)
  perform (Op.acquire p)
  let originalParent ← perform Op.originalParent
  perform (Op.release p)
  match originalParent with
  | some parent => exitUnder p parent status
  | none => perform (Op.panic "original_parent")

/-- `exit`, as far as the process table is concerned. -/
def exit (p : Slot) (status : BitVec 32) : Code Unit := do
  let isInit ← perform Op.isInit
  if isInit then perform (Op.panic "init exiting")
  else exitProc p status

/-- The scan of `wait` over the remaining slots: what `wait` returns, or else `havekids`. -/
def waitScan (p : Slot) (addr : Nat) : (havekids : Bool) → List Slot → Code (BitVec 32 ⊕ Bool)
  | havekids, [] => pure (.inr havekids)
  | havekids, np :: rest => do
      let mine ← perform (Op.parentIsMe np)
      if mine then
        perform (Op.acquire np)
        match ← perform (Op.collect np addr) with
        | .freed pid =>
          perform (Op.release np)
          perform (Op.release p)
          pure (.inl pid)
        | .fault =>
          perform (Op.release np)
          perform (Op.release p)
          pure (.inl (-1))
        | .running =>
          perform (Op.release np)
          waitScan p addr true rest
      else waitScan p addr havekids rest

/-- `sleep` from the moment `p->lock` is held. -/
def sleepLocked (chan : Chan) : Code Unit := do
  perform (Op.setSleeping chan)
  perform Op.sched
  perform Op.resume
  perform Op.clearChan

/-- Where an agent stands between two calls: a thread that runs no process, a process in user
space with the value that its last system call returned, a process at the head of the loop of
`wait`, or a scheduler that looks at a slot next. -/
inductive Label where
  | out
  | user (a0 : BitVec 32)
  | waiting (addr : Nat)
  | scheduler (q : Slot)

/-- The end of one round of `wait`'s loop: return, or sleep and go round again. -/
def waitSleep (p : Slot) (addr : Nat) (havekids : Bool) : Code Label := do
  let killed ← perform Op.isKilled
  if havekids = false ∨ killed = true then
    perform (Op.release p)
    pure (.user (-1))
  else
    sleepLocked (.proc p)
    pure (.waiting addr)

/-- One round of `wait`'s loop. -/
def waitRound (p : Slot) (addr : Nat) : Code Label := do
  match ← waitScan p addr false slots with
  | .inl a0 => pure (.user a0)
  | .inr havekids => waitSleep p addr havekids

/-- `kill`'s loop over the remaining slots. -/
def kill (pid : BitVec 32) : List Slot → Code (BitVec 32)
  | [] => pure (-1)
  | q :: rest => do
      perform (Op.acquire q)
      let hit ← perform (Op.kill q pid)
      perform (Op.release q)
      if hit then pure 0 else kill pid rest

/-- `wakeup`'s loop over the remaining slots. -/
def wakeup (chan : Chan) : List Slot → Code Unit
  | [] => pure ()
  | q :: rest => do
      perform (Op.acquire q)
      perform (Op.wakeup q chan)
      perform (Op.release q)
      wakeup chan rest

/-- `sleep` on a channel other than the process itself; the caller's lock is not modelled. -/
def sleep (p : Slot) (chan : Chan) : Code Unit := do
  perform (Op.acquire p)
  sleepLocked chan
  perform (Op.release p)

/-- `yield`. -/
def yield (p : Slot) : Code Unit := do
  perform (Op.acquire p)
  perform Op.giveUp
  perform Op.sched
  perform Op.resume
  perform (Op.release p)

/-- The start of a new process: a scheduler switches to `forkret`. -/
def forkret (p : Slot) : Code Unit := do
  perform Op.resume
  perform (Op.release p)

/-- What `scheduler` does with one slot. -/
def scheduleSlot (q : Slot) : Code Unit := do
  perform (Op.acquire q)
  let switched ← perform (Op.swtch q)
  if switched then
    perform (Op.regain q)
    perform (Op.release q)
  else perform (Op.release q)

/-- What an agent does next. -/
inductive Call where
  | start
  | fork
  | exit (status : BitVec 32)
  | wait (addr : Nat)
  | kill (pid : BitVec 32)
  | sleep (address : Nat)
  | wakeup (address : Nat)
  | yield
  | goOn

/-- The code of a process. -/
def codeProc (p : Slot) : Label → Call → Option (Code Label)
  | .out, .start => some do
      forkret p
      pure (.user 0)
  | .user _, .fork => some do
      let pid ← fork
      pure (.user pid)
  | .user _, .exit status => some do
      exit p status
      pure .out
  | .user _, .wait addr => some do
      perform (Op.acquire p)
      pure (.waiting addr)
  | .waiting addr, .goOn => some (waitRound p addr)
  | .user _, .kill pid => some do
      let a0 ← kill pid slots
      pure (.user a0)
  | .user a0, .sleep address => some do
      sleep p (.other address)
      pure (.user a0)
  | .user a0, .wakeup address => some do
      wakeup (.other address) slots
      pure (.user a0)
  | .user a0, .yield => some do
      yield p
      pure (.user a0)
  | _, _ => none

/-- The code of a scheduler. -/
def codeCpu : Label → Call → Option (Code Label)
  | .scheduler q, .goOn => some do
      scheduleSlot q
      pure (.scheduler (q + 1))
  | _, _ => none

/-- The code of each call. A process yields only between its calls: the `yield` of `kerneltrap` in
the midst of `kill`, `exit`, `wakeup` or `allocproc`, where no lock is held, is not modelled. -/
def code : Agent → Label → Call → Option (Code Label)
  | .proc p => codeProc p
  | .cpu _ => codeCpu

/-- The kernel, as far as the process table is concerned. -/
def machine : Machine Agent Op Res State Label Call Bool where
  silent := fun _ => false
  exec := exec
  code := code

/-- The configuration in which the CPUs enter `scheduler` for the first time. -/
def powerOn : Config Agent Op Res State Label where
  state := .boot
  prog
    | .proc _ => .ret .out
    | .cpu _ => .ret (.scheduler 0)
  panicked := none

end Xv6.ProcTable
