import Xv6.Interleave.Machine
import Mathlib.Data.List.FinRange

/-!
# CPUs, contexts and `swtch`

The machine in which each CPU executes one thread at a time: its own scheduler, or the kernel
thread of a process. A `Label` is a point at which a thread can be left. It is what a CPU does
next, and it is what `swtch` saves in `p->context` or `c->scheduler` and loads from the other of
the two: a label stands for the saved registers and stack. So a process may be left on one CPU and
continued on another, and a context that was restored too early would be a label of the past.

The numbers of processes and CPUs are parameters. Locks are held by CPUs, and `noff`, `intena` and
the interrupt flag are kept as in `push_off` and `pop_off`. The state also has history variables
that no branch reads, from `live` on.
-/

namespace Xv6.Sched

open Interleave Function
open Prog (perform)

/-- A spinlock: that of a process, or another one. -/
inductive Lock (n : Nat) where
  | proc (p : Fin n)
  | other (address : Nat)
  deriving DecidableEq

/-- `enum procstate`. -/
inductive ProcState where
  | UNUSED
  | SLEEPING
  | RUNNABLE
  | RUNNING
  | ZOMBIE
  deriving DecidableEq

/-- A sleep channel: a process's own `struct proc`, on which `wait` sleeps, or another address. -/
inductive Chan (n : Nat) where
  | proc (p : Fin n)
  | other (address : Nat)
  deriving DecidableEq

/-- A point at which a thread can be left. -/
inductive Label (n : Nat) where
  /-- A CPU that enters `scheduler`. -/
  | boot
  /-- `scheduler` with interrupts on, between `intr_on` and `intr_off`. -/
  | window
  /-- `scheduler` in its loop, with the slots that are left. -/
  | scan (rest : List (Fin n)) (found : Bool)
  /-- `scheduler` behind its `swtch` to `q`. -/
  | back (q : Fin n) (rest : List (Fin n))
  /-- The first instruction of a new process. -/
  | forkret
  /-- A process in user space or in kernel code that is not modelled. -/
  | user
  /-- The head of the loop of `wait`. -/
  | waiting (p : Fin n) (addr : Nat)
  /-- `yield` behind the `swtch` of `sched`. -/
  | yielded (p : Fin n) (intena : Bool)
  /-- `sleep` behind the `swtch` of `sched`; the caller is `wait` with its argument, or unknown. -/
  | slept (p : Fin n) (lk : Lock n) (caller : Option Nat) (intena : Bool)
  /-- `exit` behind the `swtch` of `sched`. -/
  | exited (p : Fin n) (intena : Bool)
  deriving DecidableEq

/-- The modelled fields of `struct proc`. -/
structure Proc (n : Nat) where
  state : ProcState
  parent : Option (Fin n)
  chan : Option (Chan n)
  killed : Bool
  pid : BitVec 32
  context : Label n

/-- `struct cpu`, and the interrupt flag of the CPU. -/
structure Cpu (n : Nat) where
  proc : Option (Fin n)
  scheduler : Label n
  noff : Nat
  intena : Bool
  interrupts : Bool

/-- A kernel thread. -/
inductive Thread (n m : Nat) where
  | scheduler (c : Fin m)
  | proc (p : Fin n)
  deriving DecidableEq

/-- What can happen to the lock of a process. -/
inductive LockEvent (n m : Nat) where
  | acquire (t : Thread n m)
  | swtch (old new : Thread n m)
  | release (t : Thread n m)

/-- The shared state. -/
structure State (n m : Nat) where
  proc : Fin n → Proc n
  cpu : Fin m → Cpu n
  /-- The CPU that holds a lock. -/
  lock : Lock n → Option (Fin m)
  nextpid : BitVec 32
  /-- The thread whose registers and stack the CPU uses. -/
  live : Fin m → Thread n m
  /-- The context of the process has been saved, and not restored since. -/
  saved : Fin n → Bool
  /-- What has happened to the lock of each process, the latest first. -/
  log : Fin n → List (LockEvent n m)

section Operations

variable {n m : Nat}

/-- A slot of the table before it is used for the first time. -/
def Proc.zero : Proc n where
  state := .UNUSED
  parent := none
  chan := none
  killed := false
  pid := 0
  context := .forkret

/-- `initproc`: `userinit` finds the first slot free. -/
def initproc [NeZero n] : Fin n := 0

namespace Cpu

/-- `push_off`. -/
def pushOff (c : Cpu n) : Cpu n :=
  { c with
    interrupts := false
    intena := if c.noff = 0 then c.interrupts else c.intena
    noff := c.noff + 1 }

/-- `pop_off`. -/
def popOff (c : Cpu n) : Except String (Cpu n) :=
  if c.interrupts then .error "pop_off - interruptible"
  else if c.noff < 1 then .error "pop_off"
  else .ok { c with noff := c.noff - 1, interrupts := c.noff = 1 ∧ c.intena = true }

end Cpu

namespace State

/-- Change one slot. -/
def modify (s : State n m) (q : Fin n) (f : Proc n → Proc n) : State n m :=
  { s with proc := update s.proc q (f (s.proc q)) }

/-- Change one CPU. -/
def modifyCpu (s : State n m) (c : Fin m) (f : Cpu n → Cpu n) : State n m :=
  { s with cpu := update s.cpu c (f (s.cpu c)) }

/-- Set or clear a lock. -/
def setLock (s : State n m) (l : Lock n) (holder : Option (Fin m)) : State n m :=
  { s with lock := update s.lock l holder }

/-- Note what has happened to the lock of a process; other locks have no history. -/
def note (s : State n m) (l : Lock n) (event : LockEvent n m) : State n m :=
  match l with
  | .proc q => { s with log := update s.log q (event :: s.log q) }
  | .other _ => s

/-- `acquire` of a free lock. -/
def acquire (s : State n m) (c : Fin m) (l : Lock n) : State n m :=
  ((s.modifyCpu c Cpu.pushOff).setLock l (some c)).note l (.acquire (s.live c))

/-- `release`, with the CPU that `pop_off` leaves. -/
def release (s : State n m) (c : Fin m) (l : Lock n) (cpu : Cpu n) : State n m :=
  ((s.modifyCpu c fun _ => cpu).setLock l none).note l (.release (s.live c))

/-- `swtch(&c->scheduler, &p->context)`. -/
def swtchTo (s : State n m) (c : Fin m) (p : Fin n) (point : Label n) : State n m :=
  { s.modifyCpu c fun cpu => { cpu with scheduler := point } with
    live := update s.live c (.proc p)
    saved := update s.saved p false }.note (.proc p) (.swtch (s.live c) (.proc p))

/-- `swtch(&p->context, &mycpu()->scheduler)`. -/
def swtchOut (s : State n m) (c : Fin m) (p : Fin n) (point : Label n) : State n m :=
  { s.modify p fun proc => { proc with context := point } with
    live := update s.live c (.scheduler c)
    saved := update s.saved p true }.note (.proc p) (.swtch (s.live c) (.scheduler c))

end State

/-- What `wait` finds in the slot of a child. -/
inductive Child where
  | running
  | fault
  | freed (pid : BitVec 32)

/-- The atomic operations. -/
inductive Op (n : Nat) where
  | acquire (l : Lock n)
  | release (l : Lock n)
  | myproc
  | intrOn
  | intrOff
  | clearIntena
  | setIntena (intena : Bool)
  | isRunnable (q : Fin n)
  | setRunning (q : Fin n)
  | setCpuProc (q : Fin n)
  | clearCpuProc
  | swtchTo (q : Fin n) (point : Label n)
  | schedChecks (p : Fin n)
  | swtchOut (p : Fin n) (point : Label n)
  | giveUp (p : Fin n)
  | setSleeping (p : Fin n) (chan : Chan n)
  | clearChan (p : Fin n)
  | setZombie (p : Fin n)
  | wakeup1 (q : Fin n)
  | wakeup (q : Fin n) (chan : Chan n)
  | kill (q : Fin n) (pid : BitVec 32)
  | parent (p : Fin n)
  | parentIs (q p : Fin n)
  | giveToInit (q : Fin n)
  | isKilled (p : Fin n)
  | collect (q : Fin n) (addr : Nat)
  | isUnused (q : Fin n)
  | allocpid (q : Fin n)
  | kalloc
  | initContext (q : Fin n)
  | uvmcopy
  | freeproc (q : Fin n)
  | setParent (q p : Fin n)
  | setRunnable (q : Fin n)
  | panic (message : String)

/-- What each operation returns. -/
abbrev Res : Op n → Type
  | .myproc => Option (Fin n)
  | .isRunnable _ => Bool
  | .swtchTo _ _ => Label n
  | .schedChecks _ => Bool
  | .swtchOut _ _ => Label n
  | .kill _ _ => Bool
  | .parent _ => Option (Fin n)
  | .parentIs _ _ => Bool
  | .isKilled _ => Bool
  | .collect _ _ => Child
  | .isUnused _ => Bool
  | .kalloc => Bool
  | .uvmcopy => Bool
  | .setRunnable _ => BitVec 32
  | _ => Unit

/-- `freeproc`, as far as the modelled fields go. -/
def freeproc (p : Proc n) : Proc n :=
  { p with pid := 0, parent := none, chan := none, killed := false, state := .UNUSED }

/-- What `wakeup` does to a slot. -/
def wakeupOn (chan : Chan n) (p : Proc n) : Proc n :=
  if p.state = .SLEEPING ∧ p.chan = some chan then { p with state := .RUNNABLE } else p

/-- What `wakeup1` does to the slot `q`. -/
def wakeup1 (q : Fin n) (p : Proc n) : Proc n :=
  if p.chan = some (.proc q) ∧ p.state = .SLEEPING then { p with state := .RUNNABLE } else p

/-- What `kill` does to the slot whose pid it was given. -/
def killProc (p : Proc n) : Proc n :=
  { p with killed := true, state := if p.state = .SLEEPING then .RUNNABLE else p.state }

variable [NeZero n]

/-- Perform an operation on CPU `c`; `ok` says whether an allocation or a copy succeeds. -/
def exec (c : Fin m) (ok : Bool) : (o : Op n) → State n m → Outcome (State n m) (Res o)
  | .acquire l, s =>
    match s.lock l with
    | none => .done () (s.acquire c l)
    | some c' => if c' = c then .panic "acquire" else .blocked
  | .release l, s =>
    if s.lock l = some c then
      match (s.cpu c).popOff with
      | .ok cpu => .done () (s.release c l cpu)
      | .error message => .panic message
    else .panic "release"
  | .myproc, s => .done (s.cpu c).proc s
  | .intrOn, s => .done () (s.modifyCpu c fun cpu => { cpu with interrupts := true })
  | .intrOff, s => .done () (s.modifyCpu c fun cpu => { cpu with interrupts := false })
  | .clearIntena, s => .done () (s.modifyCpu c fun cpu => { cpu with intena := false })
  | .setIntena intena, s => .done () (s.modifyCpu c fun cpu => { cpu with intena := intena })
  | .isRunnable q, s => .done ((s.proc q).state = .RUNNABLE) s
  | .setRunning q, s => .done () (s.modify q fun p => { p with state := .RUNNING })
  | .setCpuProc q, s => .done () (s.modifyCpu c fun cpu => { cpu with proc := some q })
  | .clearCpuProc, s => .done () (s.modifyCpu c fun cpu => { cpu with proc := none })
  | .swtchTo q point, s => .done (s.proc q).context (s.swtchTo c q point)
  | .schedChecks p, s =>
    if s.lock (.proc p) ≠ some c then .panic "sched p->lock"
    else if (s.cpu c).noff ≠ 1 then .panic "sched locks"
    else if (s.proc p).state = .RUNNING then .panic "sched running"
    else if (s.cpu c).interrupts then .panic "sched interruptible"
    else .done (s.cpu c).intena s
  | .swtchOut p point, s => .done (s.cpu c).scheduler (s.swtchOut c p point)
  | .giveUp p, s => .done () (s.modify p fun proc => { proc with state := .RUNNABLE })
  | .setSleeping p chan, s =>
    .done () (s.modify p fun proc => { proc with chan := some chan, state := .SLEEPING })
  | .clearChan p, s => .done () (s.modify p fun proc => { proc with chan := none })
  | .setZombie p, s => .done () (s.modify p fun proc => { proc with state := .ZOMBIE })
  | .wakeup1 q, s =>
    if s.lock (.proc q) = some c then .done () (s.modify q (wakeup1 q)) else .panic "wakeup1"
  | .wakeup q chan, s => .done () (s.modify q (wakeupOn chan))
  | .kill q pid, s =>
    if (s.proc q).pid = pid then .done true (s.modify q killProc) else .done false s
  | .parent p, s => .done (s.proc p).parent s
  | .parentIs q p, s => .done ((s.proc q).parent = some p) s
  | .giveToInit q, s => .done () (s.modify q fun p => { p with parent := some initproc })
  | .isKilled p, s => .done (s.proc p).killed s
  | .collect q addr, s =>
    if (s.proc q).state = .ZOMBIE then
      if addr ≠ 0 ∧ ok = false then .done .fault s
      else .done (.freed (s.proc q).pid) (s.modify q freeproc)
    else .done .running s
  | .isUnused q, s => .done ((s.proc q).state = .UNUSED) s
  | .allocpid q, s =>
    .done () ({ s with nextpid := s.nextpid + 1 }.modify q fun p => { p with pid := s.nextpid })
  | .kalloc, s => .done ok s
  | .initContext q, s =>
    .done () ({ s with saved := update s.saved q true }.modify q fun p =>
      { p with context := .forkret })
  | .uvmcopy, s => .done ok s
  | .freeproc q, s => .done () (s.modify q freeproc)
  | .setParent q p, s => .done () (s.modify q fun np => { np with parent := some p })
  | .setRunnable q, s => .done (s.proc q).pid (s.modify q fun np => { np with state := .RUNNABLE })
  | .panic message, _ => .panic message

end Operations

/-! ### The code -/

section Code

variable {n : Nat}

/-- Programs of one CPU. -/
abbrev Code (n : Nat) := Prog (Op n) Res

/-- The slots in the order in which the loops visit them. -/
def slots (n : Nat) : List (Fin n) := List.finRange n

/-- `scheduler` looks at slot `q`. -/
def scheduleSlot (q : Fin n) (rest : List (Fin n)) (found : Bool) : Code n (Label n) := do
  perform (Op.acquire (.proc q))
  let runnable ← perform (Op.isRunnable q)
  if runnable then
    perform (Op.setRunning q)
    perform (Op.setCpuProc q)
    perform (Op.swtchTo q (.back q rest))
  else
    perform Op.clearIntena
    perform (Op.release (.proc q))
    pure (.scan rest found)

/-- `scheduler`, when process `q` is done running for now. -/
def scheduleBack (q : Fin n) (rest : List (Fin n)) : Code n (Label n) := do
  perform Op.clearCpuProc
  perform Op.clearIntena
  perform (Op.release (.proc q))
  pure (.scan rest true)

/-- `sched`, up to the point at which the thread is left; `point` is where it will go on. -/
def sched (p : Fin n) (point : Bool → Label n) : Code n (Label n) := do
  let intena ← perform (Op.schedChecks p)
  perform (Op.swtchOut p (point intena))

/-- `yield`. -/
def yield (p : Fin n) : Code n (Label n) := do
  perform (Op.acquire (.proc p))
  perform (Op.giveUp p)
  sched p (.yielded p)

/-- `yield`, when a scheduler has switched back. -/
def yieldBack (p : Fin n) (intena : Bool) : Code n (Label n) := do
  perform (Op.setIntena intena)
  perform (Op.release (.proc p))
  pure .user

/-- `sleep` from the moment `p->lock` is held. -/
def sleepLocked (p : Fin n) (chan : Chan n) (lk : Lock n) (caller : Option Nat) :
    Code n (Label n) := do
  perform (Op.setSleeping p chan)
  sched p (.slept p lk caller)

/-- `sleep`. -/
def sleep (p : Fin n) (chan : Chan n) (lk : Lock n) (caller : Option Nat) : Code n (Label n) := do
  if lk = .proc p then sleepLocked p chan lk caller
  else
    perform (Op.acquire (.proc p))
    perform (Op.release lk)
    sleepLocked p chan lk caller

/-- Where `sleep` returns to. -/
def sleepReturn (p : Fin n) : Option Nat → Label n
  | some addr => .waiting p addr
  | none => .user

/-- `sleep`, when a scheduler has switched back. -/
def sleepBack (p : Fin n) (lk : Lock n) (caller : Option Nat) (intena : Bool) :
    Code n (Label n) := do
  perform (Op.setIntena intena)
  perform (Op.clearChan p)
  if lk = .proc p then pure (sleepReturn p caller)
  else
    perform (Op.release (.proc p))
    perform (Op.acquire lk)
    pure (sleepReturn p caller)

/-- `forkret`. -/
def forkret (p : Fin n) : Code n (Label n) := do
  perform (Op.release (.proc p))
  pure .user

/-- `wakeup`'s loop over the remaining slots. -/
def wakeup (chan : Chan n) : List (Fin n) → Code n Unit
  | [] => pure ()
  | q :: rest => do
      perform (Op.acquire (.proc q))
      perform (Op.wakeup q chan)
      perform (Op.release (.proc q))
      wakeup chan rest

/-- `kill`'s loop over the remaining slots. -/
def kill (pid : BitVec 32) : List (Fin n) → Code n Unit
  | [] => pure ()
  | q :: rest => do
      perform (Op.acquire (.proc q))
      let hit ← perform (Op.kill q pid)
      perform (Op.release (.proc q))
      if hit then pure () else kill pid rest

/-- The part of `allocproc` behind `found`. -/
def allocprocFound (q : Fin n) : Code n (Option (Fin n)) := do
  perform (Op.allocpid q)
  let tf ← perform Op.kalloc
  if tf then
    perform (Op.initContext q)
    pure (some q)
  else
    perform (Op.release (.proc q))
    pure none

/-- The loop of `allocproc` over the remaining slots. -/
def allocproc : List (Fin n) → Code n (Option (Fin n))
  | [] => pure none
  | q :: rest => do
      perform (Op.acquire (.proc q))
      let unused ← perform (Op.isUnused q)
      if unused then allocprocFound q
      else
        perform (Op.release (.proc q))
        allocproc rest

/-- The part of `fork` after `allocproc` has found a slot. -/
def forkInto (p np : Fin n) : Code n Unit := do
  let copied ← perform Op.uvmcopy
  if copied then
    perform (Op.setParent np p)
    let _ ← perform (Op.setRunnable np)
    perform (Op.release (.proc np))
  else
    perform (Op.freeproc np)
    perform (Op.release (.proc np))

/-- `fork`. -/
def fork (p : Fin n) : Code n Unit := do
  match ← allocproc (slots n) with
  | some np => forkInto p np
  | none => pure ()

/-- The loop of `reparent` over the remaining slots. -/
def reparent (p : Fin n) : List (Fin n) → Code n Unit
  | [] => pure ()
  | pp :: rest => do
      let mine ← perform (Op.parentIs pp p)
      if mine then
        perform (Op.acquire (.proc pp))
        perform (Op.giveToInit pp)
        perform (Op.release (.proc pp))
        reparent p rest
      else reparent p rest

/-- The part of `exit` after `original_parent` has been read. -/
def exitUnder (p parent : Fin n) : Code n (Label n) := do
  perform (Op.acquire (.proc parent))
  perform (Op.acquire (.proc p))
  reparent p (slots n)
  perform (Op.wakeup1 parent)
  perform (Op.setZombie p)
  perform (Op.release (.proc parent))
  sched p (.exited p)

/-- `exit`, as far as the process table is concerned. -/
def exit [NeZero n] (p : Fin n) : Code n (Label n) := do
  if p = initproc then
    perform (Op.panic "init exiting")
    pure .user
  else
    perform (Op.acquire (.proc initproc))
    perform (Op.wakeup1 initproc)
    perform (Op.release (.proc initproc))
    perform (Op.acquire (.proc p))
    let originalParent ← perform (Op.parent p)
    perform (Op.release (.proc p))
    match originalParent with
    | some parent => exitUnder p parent
    | none => do
        perform (Op.panic "original_parent")
        pure .user

/-- The scan of `wait` over the remaining slots. It returns `havekids` unless `wait` returns. -/
def waitScan (p : Fin n) (addr : Nat) : (havekids : Bool) → List (Fin n) → Code n (Option Bool)
  | havekids, [] => pure (some havekids)
  | havekids, np :: rest => do
      let mine ← perform (Op.parentIs np p)
      if mine then
        perform (Op.acquire (.proc np))
        match ← perform (Op.collect np addr) with
        | .running =>
          perform (Op.release (.proc np))
          waitScan p addr true rest
        | _ =>
          perform (Op.release (.proc np))
          perform (Op.release (.proc p))
          pure none
      else waitScan p addr havekids rest

/-- The end of one round of `wait`'s loop. -/
def waitSleep (p : Fin n) (addr : Nat) (havekids : Bool) : Code n (Label n) := do
  let killed ← perform (Op.isKilled p)
  if havekids = false ∨ killed = true then
    perform (Op.release (.proc p))
    pure .user
  else sleep p (.proc p) (.proc p) (some addr)

/-- One round of `wait`'s loop. -/
def waitRound (p : Fin n) (addr : Nat) : Code n (Label n) := do
  match ← waitScan p addr false (slots n) with
  | none => pure .user
  | some havekids => waitSleep p addr havekids

/-- What a CPU does next. -/
inductive Call where
  | goOn
  | yield
  | sleep (chan lk : Nat)
  | wakeup (chan : Nat)
  | kill (pid : BitVec 32)
  | fork
  | exit
  | wait (addr : Nat)
  | acquire (lk : Nat)
  | release (lk : Nat)

/-- A system call of the process that `myproc` names. -/
def syscall (call : Fin n → Code n (Label n)) : Code n (Label n) := do
  match ← perform Op.myproc with
  | some p => call p
  | none => do
      perform (Op.panic "myproc")
      pure .user

/-- The code of each call. A process outside the modelled functions may acquire and release other
locks; an interrupt may call `wakeup` in a process or in the window of a scheduler. A timer
interrupt makes a process yield only outside the modelled functions: the `yield` of `kerneltrap` in
the midst of `kill`, `exit`, `wakeup` or `allocproc`, where no lock is held, is not modelled. -/
def code [NeZero n] : Label n → Call → Option (Code n (Label n))
  | .boot, .goOn => some do
      perform Op.clearCpuProc
      perform Op.intrOn
      pure .window
  | .window, .goOn => some do
      perform Op.intrOff
      pure (.scan (slots n) false)
  | .window, .wakeup chan => some do
      wakeup (.other chan) (slots n)
      pure .window
  | .scan [] _, .goOn => some do
      perform Op.intrOn
      pure .window
  | .scan (q :: rest) found, .goOn => some (scheduleSlot q rest found)
  | .back q rest, .goOn => some (scheduleBack q rest)
  | .forkret, .goOn => some (syscall forkret)
  | .yielded p intena, .goOn => some (yieldBack p intena)
  | .slept p lk caller intena, .goOn => some (sleepBack p lk caller intena)
  | .exited _ _, .goOn => some do
      perform (Op.panic "zombie exit")
      pure .user
  | .waiting p addr, .goOn => some (waitRound p addr)
  | .user, .yield => some (syscall yield)
  | .user, .sleep chan lk => some (syscall fun p => sleep p (.other chan) (.other lk) none)
  | .user, .wakeup chan => some do
      wakeup (.other chan) (slots n)
      pure .user
  | .user, .kill pid => some do
      kill pid (slots n)
      pure .user
  | .user, .fork => some (syscall fun p => do
      fork p
      pure .user)
  | .user, .exit => some (syscall exit)
  | .user, .wait addr => some (syscall fun p => do
      perform (Op.acquire (.proc p))
      pure (.waiting p addr))
  | .user, .acquire lk => some do
      perform (Op.acquire (.other lk))
      pure .user
  | .user, .release lk => some do
      perform (Op.release (.other lk))
      pure .user
  | _, _ => none

end Code

/-- The CPUs. -/
def machine (n m : Nat) [NeZero n] :
    Machine (Fin m) (Op n) Res (State n m) (Label n) Call Bool where
  silent := fun _ => false
  exec := exec
  code := fun _ => code

/-- The state that `userinit` leaves: one runnable process. -/
def boot (n m : Nat) [NeZero n] : State n m where
  proc := update (fun _ => .zero) initproc { Proc.zero with state := .RUNNABLE, pid := 1 }
  cpu := fun _ => ⟨none, .boot, 0, false, false⟩
  lock := fun _ => none
  nextpid := 2
  live := .scheduler
  saved := fun p => p = initproc
  log := fun _ => []

/-- The configuration in which the CPUs enter `scheduler` for the first time. -/
def powerOn (n m : Nat) [NeZero n] : Config (Fin m) (Op n) Res (State n m) (Label n) where
  state := boot n m
  prog := fun _ => .ret .boot
  panicked := none

end Xv6.Sched
