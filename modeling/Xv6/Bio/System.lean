import Xv6.Bio.Cache
import Xv6.FlatMap.History
import Xv6.Interleave.Machine

/-!
# Processes over the buffer cache

The machine in which any number of processes use the interface of `kernel/bio.c` at once. An
operation is one critical section under `bcache.lock` or under the lock of a sleep-lock, or one
access to a locked buffer; `virtio_disk_rw` transfers the block that the buffer is labelled with.
A process may change, write and release a buffer that it has got from `bread` and has not released.

The state has three history variables that no branch reads: the pins of each buffer, whether it has
been changed since it was last written, and the reads and changes of blocks in their order.
-/

namespace Xv6.Bio

open Interleave Function
open Prog (perform)

/-- A block of a device. -/
structure BlockId where
  dev : UInt32
  blockno : UInt32
  deriving DecidableEq

instance : Zero BlockId := ⟨⟨0, 0⟩⟩

/-- The cache, the disks, and the history. -/
structure State (Proc : Type) where
  bcache : Bcache BlockId Proc
  disk : BlockId → Block
  /-- Calls of `bpin` that no `bunpin` has undone. -/
  pins : BufIdx → Nat
  /-- The buffer has been changed since it was last written. -/
  dirty : BufIdx → Bool
  /-- What `bread` has returned, and what has been stored. -/
  history : List (FlatMap.Access BlockId Block)

/-- The atomic operations. -/
inductive Op where
  | bget (b : BlockId)
  | acquiresleep (i : BufIdx)
  | fill (i : BufIdx) (b : BlockId)
  | store (i : BufIdx) (b : BlockId) (block : Block)
  | bwrite (i : BufIdx)
  | releasesleep (i : BufIdx)
  | bput (i : BufIdx)
  | bpin (i : BufIdx)
  | bunpin (i : BufIdx)

/-- What each operation returns. -/
abbrev Res : Op → Type
  | .bget _ => BufIdx
  | _ => Unit

variable {Proc : Type}

namespace State

/-- Change one buffer. -/
def modifyBuf (s : State Proc) (i : BufIdx) (f : Buf BlockId Proc → Buf BlockId Proc) :
    State Proc :=
  { s with bcache := s.bcache.modify i f }

/-- Record an access. -/
def note (s : State Proc) (access : FlatMap.Access BlockId Block) : State Proc :=
  { s with history := s.history ++ [access] }

end State

/-- A buffer behind `bget` in `bread`: it is read if it is not valid. -/
def fill (disk : BlockId → Block) (b : Buf BlockId Proc) : Buf BlockId Proc :=
  if b.valid then b else { b with data := disk b.blockno, valid := true }

variable [DecidableEq Proc]

/-- Perform an operation of process `p`. -/
def exec (p : Proc) (_ : Unit) : (o : Op) → State Proc → Outcome (State Proc) (Res o)
  | .bget b, s =>
    match s.bcache.bget b with
    | some (i, bcache) => .done i { s with bcache := bcache }
    | none => .panic "bget: no buffers"
  | .acquiresleep i, s =>
    match (s.bcache.buf i).lock with
    | none => .done () (s.modifyBuf i fun b => { b with lock := some p })
    | some _ => .blocked
  | .fill i b, s =>
    .done () ((s.modifyBuf i (fill s.disk)).note (.read b (fill s.disk (s.bcache.buf i)).data))
  | .store i b block, s =>
    .done () { (s.modifyBuf i fun b => { b with data := block }).note (.write b block) with
      dirty := update s.dirty i true }
  | .bwrite i, s =>
    if (s.bcache.buf i).lock = some p then
      .done () { s with
          disk := update s.disk (s.bcache.buf i).blockno (s.bcache.buf i).data
          dirty := update s.dirty i false }
    else .panic "bwrite"
  | .releasesleep i, s =>
    if (s.bcache.buf i).lock = some p then
      .done () (s.modifyBuf i fun b => { b with lock := none })
    else .panic "brelse"
  | .bput i, s => .done () { s with bcache := s.bcache.brelse i }
  | .bpin i, s =>
    .done () { s with bcache := s.bcache.bpin i, pins := update s.pins i (s.pins i + 1) }
  | .bunpin i, s =>
    .done () { s with bcache := s.bcache.bunpin i, pins := update s.pins i (s.pins i - 1) }

/-- Programs of one process. -/
abbrev Code := Prog Op Res

/-- Where a process stands: the buffers it has got from `bread`, with their blocks. -/
abbrev Label := List (BufIdx × BlockId)

/-- What a process does next. -/
inductive Call where
  | bread (b : BlockId)
  | store (buf : BufIdx × BlockId) (block : Block)
  | bwrite (buf : BufIdx × BlockId)
  | brelse (buf : BufIdx × BlockId)
  | bpin (buf : BufIdx × BlockId)
  | bunpin (i : BufIdx)

/-- `bread`. -/
def bread (b : BlockId) : Code BufIdx := do
  let i ← perform (Op.bget b)
  perform (Op.acquiresleep i)
  perform (Op.fill i b)
  pure i

/-- `brelse`. -/
def brelse (i : BufIdx) : Code Unit := do
  perform (Op.releasesleep i)
  perform (Op.bput i)

/-- The code of each call. -/
def code (held : Label) : Call → Option (Code Label)
  | .bread b => some do
      let i ← bread b
      pure ((i, b) :: held)
  | .store buf block =>
    if buf ∈ held then some do
      perform (Op.store buf.1 buf.2 block)
      pure held
    else none
  | .bwrite buf =>
    if buf ∈ held then some do
      perform (Op.bwrite buf.1)
      pure held
    else none
  | .brelse buf =>
    if buf ∈ held then some do
      brelse buf.1
      pure (held.erase buf)
    else none
  | .bpin buf =>
    if buf ∈ held then some do
      perform (Op.bpin buf.1)
      pure held
    else none
  | .bunpin i => some do
      perform (Op.bunpin i)
      pure held

/-- The processes and the cache. -/
def machine (Proc : Type) [DecidableEq Proc] :
    Machine Proc Op Res (State Proc) Label Call Unit where
  silent := fun _ => false
  exec := exec
  code := fun _ => code

/-- The state that `binit` leaves. -/
def State.init (disk : BlockId → Block) : State Proc where
  bcache := .init
  disk := disk
  pins := fun _ => 0
  dirty := fun _ => false
  history := []

/-- The processes before their first call. -/
def start (disk : BlockId → Block) : Config Proc Op Res (State Proc) Label where
  state := .init disk
  prog := fun _ => .ret []
  panicked := none

/-! ### What the users of the cache must do -/

/-- Pins are matched, and a changed buffer is written before it is released, or stays pinned until
it is written. -/
def matched (_ : Proc) : Op → State Proc → Bool
  | .releasesleep i, s => !s.dirty i || 0 < s.pins i
  | .bunpin i, s => 0 < s.pins i && (!s.dirty i || (s.bcache.buf i).lock.isSome || 1 < s.pins i)
  | _, _ => true

/-- No buffer gets more references than `refcnt` can count. -/
def countable (_ : Proc) : Op → State Proc → Bool
  | .bget b, s => (s.bcache.lookup b).all fun i => (s.bcache.buf i).refcnt.toNat + 1 < 2 ^ 32
  | .bpin i, s => (s.bcache.buf i).refcnt.toNat + 1 < 2 ^ 32
  | _, _ => true

end Xv6.Bio
