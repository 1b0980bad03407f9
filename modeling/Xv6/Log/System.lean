import Xv6.Bio.Cache
import Xv6.Interleave.Machine
import Xv6.Log.Crash

/-!
# Processes over the buffer cache and the log

The machine in which any number of processes use `bread`, `brelse`, `begin_op`, `log_write`
and `end_op` at once. An operation is one critical section of `bio.c`, `sleeplock.c` or
`log.c`, or one access to the data of a buffer; between two operations every other process
may run. The first process boots the file system with `initlog`; the others wait until it
has. Besides the kernel's own variables, the state keeps a few history variables that no
branch reads: who holds which reference, what each operation has logged, and what every
finished commit found and left.
-/

namespace Xv6.Log

open Interleave Function
open Prog (perform)

/-- The fields of `struct superblock` that `initlog` reads. -/
structure Superblock where
  logstart : Nat
  nlog : Nat

/-- A finished commit: the blocks that its operations logged, what the cache held for each block
when it began, and the disk when it was done. -/
structure CommitRecord where
  blocks : List Nat
  began : Nat → Option Block
  disk : Disk

/-- The shared state. The history variables are those from `booted` on. -/
structure State where
  bcache : Bcache Nat Pid
  disk : Disk
  lh : LogHeader
  outstanding : Int
  committing : Bool
  /-- `initlog` has returned. -/
  booted : Bool
  /-- References that `bget` gave to a process and `brelse` has not taken back. -/
  refs : Pid → BufIdx → Nat
  /-- How many entries of the log `install_trans` has unpinned. -/
  unpinned : Nat
  /-- The distinct blocks that the current operation of a process has logged. -/
  logged : Pid → List Nat
  /-- The blocks logged since the last commit. -/
  group : List Nat
  /-- The cached blocks when the last commit began. -/
  began : Nat → Option Block
  /-- The processes inside `commit`. -/
  committers : List Pid
  commits : List CommitRecord

namespace State

/-- The state in which `initlog` is called: `binit` has run, and the log is zeroed. -/
def boot (disk : Disk) : State where
  bcache := .init
  disk := disk
  lh := .empty
  outstanding := 0
  committing := false
  booted := false
  refs := fun _ _ => 0
  unpinned := 0
  logged := fun _ => []
  group := []
  began := fun _ => none
  committers := []
  commits := []

/-- The entries of the in-memory log that have not been unpinned. -/
def pending (s : State) : List Nat := s.lh.block.drop s.unpinned

/-- The contents the cache holds for a block. -/
def cached (s : State) (blockno : Nat) : Option Block :=
  match s.bcache.lookup blockno with
  | some i => if (s.bcache.buf i).valid then some (s.bcache.buf i).data else none
  | none => none

/-- Change one buffer. -/
def modifyBuf (s : State) (i : BufIdx) (f : Buf Nat Pid → Buf Nat Pid) : State :=
  { s with bcache := s.bcache.modify i f }

/-- Record a change of the number of references of a process to a buffer. -/
def modifyRefs (s : State) (p : Pid) (i : BufIdx) (f : Nat → Nat) : State :=
  { s with refs := update s.refs p (update (s.refs p) i (f (s.refs p i))) }

end State

/-- The atomic operations. -/
inductive Op where
  | awaitBoot
  | finishBoot
  | bget (blockno : Nat)
  | acquiresleep (i : BufIdx)
  | fill (i : BufIdx)
  | data (i : BufIdx)
  | setData (i : BufIdx) (block : Block)
  | bwrite (i : BufIdx)
  | releasesleep (i : BufIdx)
  | bput (i : BufIdx)
  | bunpin (i : BufIdx)
  | readLh
  | setLh (lh : LogHeader)
  | overrun
  | beginOp
  | checkSize (i : BufIdx)
  | checkTrans
  | logInsert (i : BufIdx)
  | endOp
  | endCommit

/-- What each operation returns. -/
abbrev Res : Op → Type
  | .bget _ => BufIdx
  | .data _ => Block
  | .readLh => LogHeader
  | .endOp => Bool
  | _ => Unit

/-- The message for an index that leaves `lh.block`; the source has no check there. -/
def outOfBounds : String := "lh.block"

/-- The admission test of `begin_op`. -/
def admits (s : State) : Bool :=
  !s.committing && s.lh.block.length + (s.outstanding + 1) * MAXOPBLOCKS ≤ LOGSIZE

/-- The critical section of `log_write`: absorb the block, or append it and pin its buffer. -/
def logInsert (p : Pid) (i : BufIdx) (s : State) : Outcome State Unit :=
  let blockno := (s.bcache.buf i).blockno
  let s := { s with
    logged := update s.logged p (List.insert blockno (s.logged p))
    group := blockno :: s.group }
  if blockno ∈ s.lh.block then .done () s
  else
    match s.lh.push blockno with
    | some lh => .done () { s with bcache := s.bcache.bpin i, lh := lh }
    | none => .panic outOfBounds

/-- The first critical section of `end_op`; it returns `do_commit`. -/
def endOp (p : Pid) (s : State) : Outcome State Bool :=
  let s := { s with outstanding := s.outstanding - 1 }
  if s.committing then .panic "log[dev].committing"
  else if s.outstanding = 0 then
    .done true { s with committing := true, began := s.cached, committers := p :: s.committers }
  else .done false s

/-- Perform an operation of process `p`. -/
def exec (sb : Superblock) (p : Pid) (_ : Unit) : (o : Op) → State → Outcome State (Res o)
  | .awaitBoot, s => if s.booted then .done () s else .blocked
  | .finishBoot, s => .done () { s with booted := true }
  | .bget blockno, s =>
    match s.bcache.bget blockno with
    | some (i, bcache) => .done i ({ s with bcache := bcache }.modifyRefs p i (· + 1))
    | none => .panic "bget: no buffers"
  | .acquiresleep i, s =>
    match (s.bcache.buf i).lock with
    | none => .done () (s.modifyBuf i fun b => { b with lock := some p })
    | some _ => .blocked
  | .fill i, s =>
    if (s.bcache.buf i).valid then .done () s
    else .done () (s.modifyBuf i fun b => { b with data := s.disk b.blockno, valid := true })
  | .data i, s => .done (s.bcache.buf i).data s
  | .setData i block, s => .done () (s.modifyBuf i fun b => { b with data := block })
  | .bwrite i, s =>
    if (s.bcache.buf i).lock = some p then
      .done () { s with
        disk := update s.disk (s.bcache.buf i).blockno (s.bcache.buf i).data }
    else .panic "bwrite"
  | .releasesleep i, s =>
    if (s.bcache.buf i).lock = some p then
      .done () (s.modifyBuf i fun b => { b with lock := none })
    else .panic "brelse"
  | .bput i, s => .done () ({ s with bcache := s.bcache.brelse i }.modifyRefs p i (· - 1))
  | .bunpin i, s => .done () { s with bcache := s.bcache.bunpin i, unpinned := s.unpinned + 1 }
  | .readLh, s => .done s.lh s
  | .setLh lh, s => .done () { s with lh := lh, unpinned := 0 }
  | .overrun, _ => .panic outOfBounds
  | .beginOp, s =>
    if admits s then
      .done () { s with
        outstanding := s.outstanding + 1, logged := update s.logged p [] }
    else .blocked
  | .checkSize _, s =>
    if LOGSIZE ≤ s.lh.block.length ∨ (sb.nlog : Int) - 1 ≤ s.lh.block.length then
      .panic "too big a transaction"
    else .done () s
  | .checkTrans, s =>
    if s.outstanding < 1 then .panic "log_write outside of trans" else .done () s
  | .logInsert i, s => logInsert p i s
  | .endOp, s => endOp p s
  | .endCommit, s =>
    .done () { s with
      committing := false
      commits := ⟨s.group, s.began, s.disk⟩ :: s.commits
      group := []
      committers := s.committers.erase p }

/-- Programs of one process. -/
abbrev Code := Prog Op Res

instance : LogBuffers Code BufIdx where
  bread blockno := do
    let i ← perform (Op.bget blockno)
    perform (Op.acquiresleep i)
    perform (Op.fill i)
    pure i
  data i := perform (Op.data i)
  setData i block := perform (Op.setData i block)
  bwrite i := perform (Op.bwrite i)
  brelse i := do
    perform (Op.releasesleep i)
    perform (Op.bput i)
  bunpin i := perform (Op.bunpin i)
  lh := perform Op.readLh
  setLh lh := perform (Op.setLh lh)
  overrun := perform Op.overrun

/-- Where a process stands: not started, or with the buffers it holds, inside an operation or not.
-/
inductive Label where
  | unborn
  | running (held : List (BufIdx × Nat)) (inOp : Bool)

/-- What a process does next. A buffer is named together with its block. -/
inductive Call where
  | start
  | beginOp
  | endOp
  | bread (blockno : Nat)
  | brelse (buf : BufIdx × Nat)
  | store (buf : BufIdx × Nat) (block : Block)
  | logWrite (buf : BufIdx × Nat)

/-- The first process. -/
def initPid : Pid := 0

/-- `initlog`. -/
def initlog (sb : Superblock) : Code Unit := recoverFromLog sb.logstart

/-- `log_write`: the two checks are made before the lock is taken. -/
def logWrite (i : BufIdx) : Code Unit := do
  perform (Op.checkSize i)
  perform Op.checkTrans
  perform (Op.logInsert i)

/-- `end_op`. -/
def endOpCode (sb : Superblock) : Code Unit := do
  let doCommit ← perform Op.endOp
  if doCommit then
    commit sb.logstart
    perform Op.endCommit
  else pure ()

/-- The first thing a process does: the first one boots the file system, the others wait. -/
def startCode (sb : Superblock) (p : Pid) : Code Unit :=
  if p = initPid then do
    initlog sb
    perform Op.finishBoot
  else perform Op.awaitBoot

/-- The code of each call. A process may change or log a buffer that it holds, during an
operation, if the block lies outside the log; only `log.c` writes the log itself. -/
def code (sb : Superblock) (p : Pid) : Label → Call → Option (Code Label)
  | .unborn, .start => some do
      startCode sb p
      pure (.running [] false)
  | .running held inOp, .beginOp =>
    if inOp then none else some do
      perform Op.beginOp
      pure (.running held true)
  | .running held inOp, .endOp =>
    if inOp then some do
      endOpCode sb
      pure (.running held false)
    else none
  | .running held inOp, .bread blockno => some do
      let i ← LogBuffers.bread blockno
      pure (.running ((i, blockno) :: held) inOp)
  | .running held inOp, .brelse buf =>
    if buf ∈ held then some do
      LogBuffers.brelse buf.1
      pure (.running (held.erase buf) inOp)
    else none
  | .running held inOp, .store buf block =>
    if inOp = true ∧ buf ∈ held ∧ OutsideLog sb.logstart sb.nlog buf.2 then some do
      LogBuffers.setData buf.1 block
      pure (.running held inOp)
    else none
  | .running held inOp, .logWrite buf =>
    if inOp = true ∧ buf ∈ held ∧ OutsideLog sb.logstart sb.nlog buf.2 then some do
      logWrite buf.1
      pure (.running held inOp)
    else none
  | _, _ => none

/-- The kernel, as far as the log and the buffer cache are concerned. -/
def machine (sb : Superblock) : Machine Pid Op Res State Label Call Unit where
  silent := fun _ => false
  exec := exec sb
  code := code sb

/-- The configuration in which the machine is switched on. -/
def powerOn (disk : Disk) : Config Pid Op Res State Label where
  state := .boot disk
  prog := fun _ => .ret .unborn
  panicked := none

end Xv6.Log
