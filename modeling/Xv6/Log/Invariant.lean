import Xv6.Bio.Pending
import Xv6.Log.System

/-!
# The invariant of the log and the buffer cache

Each process has a role: it is outside any operation, inside one, or committing. `Inv` ties
the roles and the references of all processes to the shared state. Its parts are: `RefsOk`
for the cache, `LogOk` for the protocol of `begin_op` and `end_op`, `DataOk` for the contents
of buffers and disk, and `Reserved` for the space in the log, which is claimed only for runs
in which `begin_op` leaves enough of it.
-/

namespace Xv6.Log

open Interleave Function

/-- What a committing process knows about its commit. -/
structure Work where
  /-- The transaction. -/
  lh : LogHeader
  /-- The cached blocks when the commit began. -/
  began : Nat → Option Block
  /-- How many blocks the log holds, how many are installed, and how many unpinned. -/
  written : Nat
  installed : Nat
  unpinned : Nat
  /-- The in-memory header has been cleared. -/
  cleared : Bool

/-- The role of a process towards the log. -/
inductive Role where
  | unborn
  | boot
  | out
  | op
  | commit
  deriving DecidableEq

/-- The process is between `begin_op` and `end_op`. -/
def Role.isOp : Role → Bool
  | .op => true
  | _ => false

/-- The role of a process before `initlog` has returned. -/
def bootRole (p : Pid) : Role := if p = initPid then .boot else .unborn

/-- What a process knows: its references, the buffer of a log block whose data it has changed
but not yet written, with that data, its role, and its commit if it is committing. -/
structure Own where
  hands : Hands Nat
  dirty : Option (BufIdx × Block)
  role : Role
  work : Work

/-- The references of all processes. -/
def hands (g : Pid → Own) (p : Pid) : Hands Nat := (g p).hands

@[simp] theorem hands_update (g : Pid → Own) (p : Pid) (own : Own) :
    hands (update g p own) = update (hands g) p own.hands := by
  funext q
  by_cases h : q = p
  · subst h
    simp [hands]
  · simp [hands, h]

/-- The roles of all processes. -/
def roles (g : Pid → Own) (p : Pid) : Role := (g p).role

@[simp] theorem roles_update (g : Pid → Own) (p : Pid) (own : Own) :
    roles (update g p own) = update (roles g) p own.role := by
  funext q
  by_cases h : q = p
  · subst h
    simp [roles]
  · simp [roles, h]

/-- The block lies in the log. -/
def InLog (sb : Superblock) (blockno : Nat) : Prop := ¬OutsideLog sb.logstart sb.nlog blockno

/-- The commit that a process works on. -/
structure WorkOk (sb : Superblock) (s : State) (w : Work) : Prop where
  lh : s.lh = w.lh
  began : s.began = w.began
  unpinned : s.unpinned = w.unpinned
  written : ∀ j, (h : j < w.lh.block.length) → j < w.written →
    w.began w.lh.block[j] = some (s.disk (sb.logstart + j + 1))
  installed : ∀ j, (h : j < w.lh.block.length) → j < w.installed →
    w.began w.lh.block[j] = some (s.disk w.lh.block[j])
  cached : ∀ i, (s.bcache.buf i).valid = true → (s.bcache.buf i).blockno ∈ s.pending →
    w.began (s.bcache.buf i).blockno = some (s.bcache.buf i).data
  group : ∀ b ∈ s.group, if w.cleared then w.began b = some (s.disk b) else b ∈ w.lh.block

/-- The protocol of `begin_op`, `log_write` and `end_op`. -/
structure LogOk (sb : Superblock) (s : State) (role : Pid → Role) : Prop where
  outstanding : s.outstanding = (∑ p, (role p).isOp.toNat : Nat)
  committer : ∀ p, role p = .commit → s.committers = [p]
  committers : s.committers = [] ∨ ∃ p, s.committers = [p] ∧ role p = .commit
  committing : s.committing = true ↔ s.committers ≠ []
  quiet : s.committing = true → s.outstanding = 0
  booting : s.booted = false → ∀ p, role p = bootRole p
  booted : s.booted = true → ∀ p, role p ≠ .boot
  clear : s.booted = false → s.lh = .empty ∧ s.group = [] ∧ LogHeader.diskN (s.disk sb.logstart) = 0
  nodup : s.lh.block.Nodup
  outside : ∀ b ∈ s.lh.block, OutsideLog sb.logstart sb.nlog b
  grouped : ∀ b ∈ s.group, OutsideLog sb.logstart sb.nlog b
  idle : s.committing = false → s.unpinned = 0 ∧ ∀ b ∈ s.group, b ∈ s.lh.block

/-- The contents of buffers, disk and finished commits. -/
structure DataOk (sb : Superblock) (s : State) (g : Pid → Own) : Prop where
  coherent : ∀ i, (s.bcache.buf i).valid = true → InLog sb (s.bcache.buf i).blockno →
    (∀ p block, (g p).dirty ≠ some (i, block)) →
    (s.bcache.buf i).data = s.disk (s.bcache.buf i).blockno
  dirty : ∀ p i block, (g p).dirty = some (i, block) →
    (s.bcache.buf i).data = block ∧ ∃ b, (i, b) ∈ (g p).hands.held ∧ InLog sb b
  work : ∀ p, (g p).role = .commit → WorkOk sb s (g p).work
  commits : ∀ r ∈ s.commits, ∀ b ∈ r.blocks, r.began b = some (r.disk b)

/-- How many more blocks an operation may log. -/
def budget (s : State) (role : Role) (p : Pid) : Nat :=
  if role.isOp then MAXOPBLOCKS - (s.logged p).length else 0

/-- The log has room for all that operations under way may still log, and one block to spare. -/
structure Reserved (sb : Superblock) (s : State) (role : Pid → Role) : Prop where
  room : s.lh.block.length + ∑ p, budget s (role p) p + 2 ≤ sb.nlog
  logged : ∀ p, role p = .op → ∀ b ∈ s.logged p, b ∈ s.lh.block

/-- The invariant. The reservation is part of it if `tight`. -/
structure Inv (sb : Superblock) (tight : Prop) (s : State) (g : Pid → Own) : Prop where
  refs : RefsOk s.bcache s.pending (hands g)
  counted : ∀ p i, s.refs p i = (g p).hands.refs i
  log : LogOk sb s (roles g)
  data : DataOk sb s g
  reserved : tight → Reserved sb s (roles g)

/-- An operation logs at most `MAXOPBLOCKS` distinct blocks. -/
def withinLimit (p : Pid) (o : Op) (s : State) : Bool :=
  match o with
  | .checkSize i | .logInsert i =>
    decide ((s.bcache.buf i).blockno ∈ s.logged p ∨ (s.logged p).length < MAXOPBLOCKS)
  | _ => true

/-- `begin_op` admits an operation only if the log keeps a block to spare. -/
def leavesRoom (sb : Superblock) (o : Op) (s : State) : Bool :=
  match o with
  | .beginOp => !admits s ||
      decide (s.lh.block.length + (s.outstanding + 1) * MAXOPBLOCKS + 2 ≤ sb.nlog)
  | _ => true

/-- How the processes share the cache and the log. -/
def discipline (sb : Superblock) (tight : Prop) : Discipline (machine sb) Own where
  inv := Inv sb tight
  needs _ o own := match o with
    | .logInsert _ => own.role = .op
    | _ => True
  idle p label own := match label with
    | .unborn => own.hands = .none ∧ own.dirty = none ∧ own.role = bootRole p
    | .running held inOp =>
      own.hands = ⟨held, none⟩ ∧ own.dirty = none ∧ own.role = if inOp then .op else .out
  allowed message := message = "bget: no buffers" ∨ (¬tight ∧ message = "too big a transaction")
  guard p o s := tight → withinLimit p o s = true ∧ leavesRoom sb o s = true

section Triples

variable {α : Type} (sb : Superblock) (tight : Prop) (p : Pid) (own : Own) (prog : Code α)

abbrev Triple (post : α → Own → Prop) : Prop := (discipline sb tight).Triple p own prog post

abbrev Moves (own' : Own) : Prop := (discipline sb tight).Moves p own prog own'

end Triples

end Xv6.Log
