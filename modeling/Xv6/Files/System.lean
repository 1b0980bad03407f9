import Xv6.Fs.Code
import Xv6.Pipe.System

/-!
# Open files, pipes and the processes that use them

The state that `kernel/file.c`, `kernel/sysfile.c` and `kernel/pipe.c` work on, over the file system
of `Xv6.Fs.Code`: the file table, the descriptors and current directory of every process, and the
pages that hold pipes. An operation is one critical section under `ftable.lock`, one access to what
only the running process uses, an operation of the file system, or an operation on a pipe.

A pointer to a pipe carries the number of the allocation it comes from. No branch reads that number;
it tells apart two pipes that were in the same page one after the other. The rest of memory is left
to the environment: it decides whether an allocation or a copy to user space succeeds.
-/

namespace Xv6.Files

open Interleave Function

export Fs (Inode InodePtr Dinode Superblock)

/-! ### State -/

/-- The types of an open file. -/
inductive FdType where
  | FD_NONE
  | FD_PIPE
  | FD_INODE
  | FD_DEVICE
  deriving DecidableEq, Repr

/-- A pointer to a pipe: its page, and the number of the allocation. -/
structure PipePtr where
  page : Nat
  id : Nat
  deriving DecidableEq

/-- `struct file`. -/
structure File where
  type : FdType
  ref : Int
  readable : Bool
  writable : Bool
  pipe : PipePtr
  ip : InodePtr
  off : BitVec 32
  major : BitVec 16

/-- A pointer to an entry of `ftable.file`. -/
abbrev FilePtr := Fin NFILE

/-- An index into `p->ofile`. -/
abbrev Fd := Fin NOFILE

/-- What a slot of the process table is used for. In `embryo` it is still marked `UNUSED`, but a
`fork` that fills it holds its lock; `alive` stands for all states of a running process. -/
inductive Life where
  | unused
  | embryo
  | alive
  | zombie
  deriving DecidableEq, Repr

/-- The fields of `struct proc` that hold references. -/
structure Proc where
  life : Life
  ofile : Fd → Option FilePtr
  cwd : Option InodePtr

/-- The pages that pipes are in. `pages` lists the pages that `kalloc` handed out for pipes, in
order, so that the pipe with number `id` is in page `pages[id]`; `freed` lists the pipes that
`kfree` was called for. No branch reads these two. -/
structure Memory (n : Nat) where
  pipe : Nat → Pipe.State (Fin n)
  freelist : List Nat
  pages : List Nat
  freed : List Nat

/-- The whole state. -/
structure State (n : Nat) where
  fs : Fs.State (Fin n)
  file : FilePtr → File
  proc : Fin n → Proc
  memory : Memory n

variable {n : Nat}

namespace State

/-- Change an entry of the file table. -/
def setFile (s : State n) (f : FilePtr) (g : File → File) : State n :=
  { s with file := update s.file f (g (s.file f)) }

/-- Change a process. -/
def setProc (s : State n) (p : Fin n) (g : Proc → Proc) : State n :=
  { s with proc := update s.proc p (g (s.proc p)) }

end State

namespace Memory

/-- Change the pipe in a page. -/
def setPipe (m : Memory n) (page : Nat) (pipe : Pipe.State (Fin n)) : Memory n :=
  { m with pipe := update m.pipe page pipe }

/-- Hand a page back to the free list. -/
def kfree (m : Memory n) (pi : PipePtr) : Memory n :=
  { m with freelist := pi.page :: m.freelist, freed := pi.id :: m.freed }

/-- Take a page from the free list and make it a pipe with two open ends. -/
def kalloc (m : Memory n) (page : Nat) : Memory n where
  pipe := update m.pipe page (.fresh (m.pipe page).data)
  freelist := m.freelist.erase page
  pages := m.pages ++ [page]
  freed := m.freed

/-- The pipe that the next `kalloc` makes. -/
def nextPipe (m : Memory n) (page : Nat) : PipePtr := ⟨page, m.pages.length⟩

/-- What an operation on a pipe leaves: `kfree` also puts the page on the free list. -/
def afterPipe (m : Memory n) (pi : PipePtr) (pipe : Pipe.State (Fin n)) : Pipe.Op → Memory n
  | .kfree => (m.setPipe pi.page pipe).kfree pi
  | _ => m.setPipe pi.page pipe

end Memory

/-- Set one descriptor of a process. -/
def Proc.setFd (proc : Proc) (fd : Fd) (f : Option FilePtr) : Proc :=
  { proc with ofile := update proc.ofile fd f }

/-! ### Operations -/

/-- What the environment decides: whether memory is there and a copy succeeds, which free page
`kalloc` returns, what a device returns, which zombie `wait` finds, and what a pipe's copies do. -/
structure Choice (n : Nat) where
  ok : Bool
  page : Nat
  device : Int
  zombie : Fin n
  pipe : Pipe.Choice

/-- The atomic operations. -/
inductive Op (n : Nat) where
  | fs (o : Fs.Op)
  | pipe (pi : PipePtr) (o : Pipe.Op)
  /-- An allocation or a copy to user space that changes nothing here. -/
  | succeeds
  /-- `devsw[f->major].read` or `devsw[f->major].write`. -/
  | device
  | filealloc
  | filedup (f : FilePtr)
  /-- The critical section of `fileclose`; it returns the copy `ff` if the count has become 0. -/
  | fileclose (f : FilePtr)
  | file (f : FilePtr)
  /-- The assignments to a new file at the end of `sys_open`. -/
  | openInode (f : FilePtr) (ip : InodePtr) (d : Dinode) (omode : BitVec 32)
  /-- The assignments to one of the two new files at the end of `pipealloc`. -/
  | openPipe (f : FilePtr) (pi : PipePtr) (writable : Bool)
  /-- `f->off += r`. -/
  | addOff (f : FilePtr) (r : Int)
  | ofile (fd : Fd)
  | fdalloc (f : FilePtr)
  /-- `p->ofile[fd] = 0`. -/
  | clearFd (fd : Fd)
  | cwd
  | setCwd (ip : Option InodePtr)
  /-- `kalloc` in `pipealloc`, with the initialisation of the pipe. -/
  | kalloc
  /-- `allocproc` at one slot of the process table; it returns whether the slot was free. -/
  | allocproc (q : Fin n)
  | freeproc (q : Fin n)
  /-- `np->ofile[i] = f`. -/
  | setChildFd (q : Fin n) (fd : Fd) (f : FilePtr)
  /-- `np->cwd = ip`. -/
  | setChildCwd (q : Fin n) (ip : InodePtr)
  /-- `np->state = RUNNABLE`. -/
  | setRunnable (q : Fin n)
  /-- The first step of a new process. -/
  | forkret
  /-- `p->state = ZOMBIE`. -/
  | setZombie
  /-- `wait` frees a zombie, or finds none. -/
  | wait
  | panic (message : String)

/-- What each operation returns. -/
abbrev Res : Op n → Type
  | .fs o => Fs.Res o
  | .pipe _ o => Pipe.Res o
  | .succeeds => Bool
  | .device => Int
  | .filealloc => Option FilePtr
  | .fileclose _ => Option File
  | .file _ => File
  | .ofile _ => Option FilePtr
  | .fdalloc _ => Option Fd
  | .cwd => InodePtr
  | .kalloc => Option PipePtr
  | .allocproc _ => Bool
  | .wait => Int
  | .panic _ => Empty
  | _ => Unit

/-- `O_WRONLY`. -/
def O_WRONLY : BitVec 32 := 0x001

/-- `O_RDWR`. -/
def O_RDWR : BitVec 32 := 0x002

/-- `O_CREATE`. -/
def O_CREATE : BitVec 32 := 0x200

/-- Whether a flag is set in a mode. -/
def hasFlag (omode flag : BitVec 32) : Bool := omode &&& flag != 0

/-- The fields of a new file for an inode. -/
def File.openInode (file : File) (ip : InodePtr) (d : Dinode) (omode : BitVec 32) : File :=
  { file with
    type := if d.type = Fs.T_DEVICE then .FD_DEVICE else .FD_INODE
    major := if d.type = Fs.T_DEVICE then d.major else file.major
    ip := ip
    off := 0
    readable := !hasFlag omode O_WRONLY
    writable := hasFlag omode O_WRONLY || hasFlag omode O_RDWR }

/-- The fields of a new file for one end of a pipe. -/
def File.openPipe (file : File) (pi : PipePtr) (writable : Bool) : File :=
  { file with type := .FD_PIPE, readable := !writable, writable := writable, pipe := pi }

/-- Perform an operation of process `p`. -/
def exec (sb : Superblock) (p : Fin n) (choice : Choice n) :
    (o : Op n) → State n → Outcome (State n) (Res o)
  | .fs o, s => (Fs.exec sb p o s.fs).inside fun fs => { s with fs := fs }
  | .pipe pi o, s =>
    (Pipe.exec p choice.pipe o (s.memory.pipe pi.page)).inside fun pipe =>
      { s with memory := s.memory.afterPipe pi pipe o }
  | .succeeds, s => .done choice.ok s
  | .device, s => .done choice.device s
  | .filealloc, s =>
    match (List.finRange NFILE).find? fun f => (s.file f).ref = 0 with
    | some f => .done (some f) (s.setFile f fun file => { file with ref := 1 })
    | none => .done none s
  | .filedup f, s =>
    if (s.file f).ref < 1 then .panic "filedup"
    else .done () (s.setFile f fun file => { file with ref := file.ref + 1 })
  | .fileclose f, s =>
    if (s.file f).ref < 1 then .panic "fileclose"
    else if 0 < (s.file f).ref - 1 then
      .done none (s.setFile f fun file => { file with ref := file.ref - 1 })
    else
      .done (some (s.file f)) (s.setFile f fun file => { file with ref := 0, type := .FD_NONE })
  | .file f, s => .done (s.file f) s
  | .openInode f ip d omode, s => .done () (s.setFile f fun file => file.openInode ip d omode)
  | .openPipe f pi writable, s => .done () (s.setFile f fun file => file.openPipe pi writable)
  | .addOff f r, s =>
    .done () (s.setFile f fun file => { file with off := file.off + BitVec.ofInt 32 r })
  | .ofile fd, s => .done ((s.proc p).ofile fd) s
  | .fdalloc f, s =>
    match (List.finRange NOFILE).find? fun fd => (s.proc p).ofile fd = none with
    | some fd => .done (some fd) (s.setProc p fun proc => proc.setFd fd (some f))
    | none => .done none s
  | .clearFd fd, s => .done () (s.setProc p fun proc => proc.setFd fd none)
  | .cwd, s =>
    match (s.proc p).cwd with
    | some ip => .done ip s
    | none => .panic "kerneltrap"
  | .setCwd ip, s => .done () (s.setProc p fun proc => { proc with cwd := ip })
  | .kalloc, s =>
    if choice.page ∈ s.memory.freelist then
      .done (some (s.memory.nextPipe choice.page)) { s with memory := s.memory.kalloc choice.page }
    else .done none s
  | .allocproc q, s =>
    match (s.proc q).life with
    | .unused => .done true (s.setProc q fun proc => { proc with life := .embryo })
    | .embryo => .blocked
    | _ => .done false s
  | .freeproc q, s => .done () (s.setProc q fun proc => { proc with life := .unused })
  | .setChildFd q fd f, s => .done () (s.setProc q fun proc => proc.setFd fd (some f))
  | .setChildCwd q ip, s => .done () (s.setProc q fun proc => { proc with cwd := some ip })
  | .setRunnable q, s => .done () (s.setProc q fun proc => { proc with life := .alive })
  | .forkret, s => if (s.proc p).life = .alive then .done () s else .blocked
  | .setZombie, s => .done () (s.setProc p fun proc => { proc with life := .zombie })
  | .wait, s =>
    if (s.proc choice.zombie).life = .zombie then
      .done choice.zombie (s.setProc choice.zombie fun proc => { proc with life := .unused })
    else .done (-1) s
  | .panic message, _ => .panic message

/-- Operations that let no other process in: the decisions of `pipeclose` are taken under the lock
of the pipe, and a new process starts when it has been made runnable. -/
def silent : Op n → Bool
  | .pipe _ (.close _) => true
  | .pipe _ (.wakeup _) => true
  | .pipe _ .bothClosed => true
  | .forkret => true
  | _ => false

/-! ### Code -/

/-- Kernel code of one process. -/
abbrev Code (n : Nat) := Prog (Op n) Res

/-- Code of the file system. -/
def liftFs {α : Type} (prog : Fs.Code α) : Code n α := prog.lift Op.fs fun _ r => r

/-- Code on one pipe. -/
def liftPipe {α : Type} (pi : PipePtr) (prog : Pipe.Code α) : Code n α :=
  prog.lift (Op.pipe pi) fun _ r => r

/-- Stop the machine. -/
def stop {α : Type} (message : String) : Code n α := .op (.panic message) nofun

/-- Run `body` on each element in turn. -/
def forEach {β : Type} : List β → (β → Code n Unit) → Code n Unit
  | [], _ => pure ()
  | x :: rest, body => do
      body x
      forEach rest body

end Xv6.Files
