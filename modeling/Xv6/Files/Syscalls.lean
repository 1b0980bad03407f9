import Xv6.Fs.Sysfile
import Xv6.Files.System

/-!
# System calls on files

The system calls of `kernel/sysfile.c` with `kernel/file.c`, the inode part of `kernel/exec.c`, and
what `fork`, `exit` and `wait` do to open files and current directories, as programs whose every
operation lets the other processes in. A path is `none` when `argstr` fails.

A process may also run code in the kernel that uses inodes directly, as long as it only works on
references and locks that it has. Reading or writing a pipe stops at each `sleep`.
-/

namespace Xv6.Files

open Interleave
open Prog (perform)

variable {n : Nat}

/-! ### Open files -/

/-- Allocate a file structure. -/
def filealloc : Code n (Option FilePtr) := perform Op.filealloc

/-- Increment the reference count of an open file. -/
def filedup (f : FilePtr) : Code n Unit := perform (Op.filedup f)

/-- Close one end of a pipe; free the pipe when both are closed. -/
def pipeclose (pi : PipePtr) (writable : Bool) : Code n Unit := do
  let _ ← liftPipe pi (Pipe.pipeclose writable)
  pure ()

/-- What `fileclose` does with the last reference to a file that was `ff`. -/
def filecloseLast (ff : File) : Code n Unit :=
  match ff.type with
  | .FD_PIPE => pipeclose ff.pipe ff.writable
  | .FD_INODE => liftFs (Fs.iput ff.ip)
  | .FD_DEVICE => liftFs (Fs.iput ff.ip)
  | .FD_NONE => pure ()

/-- Close an open file: decrement the reference count, and close it when it reaches 0. -/
def fileclose (f : FilePtr) : Code n Unit := do
  match ← perform (Op.fileclose f) with
  | none => pure ()
  | some ff => filecloseLast ff

/-- Allocate a file descriptor for an open file. -/
def fdalloc (f : FilePtr) : Code n (Option Fd) := perform (Op.fdalloc f)

/-- Where a process stands between two steps of its own: not started yet or gone, in user space with
the value that its last call returned, asleep in a pipe, or in kernel code that holds the references
`refs` and the inode locks `locks`. -/
inductive Label where
  | unborn
  | user (result : Int)
  | inPipe (pi : PipePtr) (point : Pipe.Label)
  | kernel (refs locks : List InodePtr)

/-- Fetch a descriptor argument and go on with its file. -/
def argfd (fd : Int) (body : Fd → FilePtr → Code n Label) : Code n Label :=
  if h : 0 ≤ fd ∧ fd < NOFILE then do
    let fd : Fd := ⟨fd.toNat, by omega⟩
    match ← perform (Op.ofile fd) with
    | none => pure (.user (-1))
    | some f => body fd f
  else pure (.user (-1))

/-- Duplicate a descriptor. -/
def sysDup (fd : Int) : Code n Label :=
  argfd fd fun _ f => do
    match ← fdalloc f with
    | none => pure (.user (-1))
    | some fd' =>
      filedup f
      pure (.user fd')

/-- Close a descriptor. -/
def sysClose (fd : Int) : Code n Label :=
  argfd fd fun fd f => do
    perform (Op.clearFd fd)
    fileclose f
    pure (.user 0)

/-! ### Reading and writing -/

/-- Go on in user space, or sleep in the pipe. -/
def Label.ofPipe (pi : PipePtr) : Pipe.Label → Label
  | .user result => .user result
  | point => .inPipe pi point

/-- Run code of the pipe up to its end or to a `sleep`. -/
def runPipe (pi : PipePtr) (prog : Pipe.Code Pipe.Label) : Code n Label := do
  let point ← liftPipe pi prog
  pure (.ofPipe pi point)

/-- `CONSOLE`. -/
def CONSOLE : Int := 1

/-- Call the device of a file, if it has one. -/
def devsw (major : BitVec 16) : Code n Label :=
  if major.toInt < 0 ∨ NDEV ≤ major.toInt ∨ major.toInt ≠ CONSOLE then pure (.user (-1))
  else do
    let r ← perform Op.device
    pure (.user r)

/-- Read from an inode at the file's offset. -/
def filereadInode (sb : Superblock) (f : FilePtr) (ip : InodePtr) (copyout : Fs.Copyout)
    (len : Int) :
    Code n Label := do
  liftFs (Fs.ilock ip)
  let file ← perform (Op.file f)
  let (r, _) ← liftFs (Fs.readi sb ip copyout file.off.toNat (BitVec.ofInt 32 len).toNat)
  if 0 < r then
    perform (Op.addOff f r)
    liftFs (Fs.iunlock ip)
    pure (.user r)
  else
    liftFs (Fs.iunlock ip)
    pure (.user r)

/-- Read from a file. -/
def fileread (sb : Superblock) (f : FilePtr) (copyout : Fs.Copyout) (len : Int) : Code n Label := do
  let file ← perform (Op.file f)
  if !file.readable then pure (.user (-1))
  else
    match file.type with
    | .FD_PIPE => runPipe file.pipe do
        perform Pipe.Op.acquire
        Pipe.pipereadWait len
    | .FD_DEVICE => devsw file.major
    | .FD_INODE => filereadInode sb f file.ip copyout len
    | .FD_NONE => stop "fileread"

/-- The largest number of bytes that `filewrite` writes in one transaction. -/
def maxWrite : Nat := ((MAXOPBLOCKS - 1 - 1 - 2) / 2) * BSIZE

/-- One round of the loop of `filewrite`: write `n1` bytes from `i` on. -/
def filewriteChunk (sb : Superblock) (f : FilePtr) (ip : InodePtr) (src : Fs.Copyin) (i n1 : Nat) :
    Code n Int := do
  liftFs (Fs.ilock ip)
  let file ← perform (Op.file f)
  let piece : Fs.Copyin := ⟨fun k => src.bytes (i + k), fun tot m => src.piece (i + tot) m⟩
  let r ← liftFs (Fs.writei sb ip piece file.off.toNat n1)
  if 0 < r then
    perform (Op.addOff f r)
    liftFs (Fs.iunlock ip)
    pure r
  else
    liftFs (Fs.iunlock ip)
    pure r

/-- The loop of `filewrite` with `i` of `len` bytes written: how many are in the end. -/
def filewriteFrom (sb : Superblock) (f : FilePtr) (ip : InodePtr) (src : Fs.Copyin) (len : Nat) :
    (fuel i : Nat) → Code n Nat
  | 0, i => pure i
  | fuel + 1, i =>
    if i < len then do
      let n1 := min (len - i) maxWrite
      let r ← filewriteChunk sb f ip src i n1
      if r < 0 then pure i
      else if r ≠ n1 then stop "short filewrite"
      else filewriteFrom sb f ip src len fuel (i + n1)
    else pure i

/-- Write to a file. -/
def filewrite (sb : Superblock) (f : FilePtr) (src : Fs.Copyin) (len : Int) : Code n Label := do
  let file ← perform (Op.file f)
  if !file.writable then pure (.user (-1))
  else
    match file.type with
    | .FD_PIPE => runPipe file.pipe do
        perform Pipe.Op.acquire
        Pipe.pipewriteFrom len len.toNat
    | .FD_DEVICE => devsw file.major
    | .FD_INODE => do
        let i ← filewriteFrom sb f file.ip src len.toNat len.toNat 0
        pure (.user (if i = len then len else -1))
    | .FD_NONE => stop "filewrite"

/-- Get metadata about a file. -/
def filestat (f : FilePtr) : Code n Label := do
  let file ← perform (Op.file f)
  if file.type = .FD_INODE ∨ file.type = .FD_DEVICE then
    liftFs (Fs.ilock file.ip)
    let _ ← liftFs (Fs.dinode file.ip)
    liftFs (Fs.iunlock file.ip)
    let copied ← perform Op.succeeds
    pure (.user (if copied then 0 else -1))
  else pure (.user (-1))

/-! ### Pipes -/

/-- Allocate a pipe and the files for its two ends. -/
def pipealloc : Code n (Option (FilePtr × FilePtr)) := do
  match ← filealloc with
  | none => pure none
  | some f0 =>
    match ← filealloc with
    | none =>
      fileclose f0
      pure none
    | some f1 =>
      match ← perform Op.kalloc with
      | none =>
        fileclose f0
        fileclose f1
        pure none
      | some pi =>
        perform (Op.openPipe f0 pi false)
        perform (Op.openPipe f1 pi true)
        pure (some (f0, f1))

/-- Give up the two files of a new pipe. -/
def sysPipeBad (rf wf : FilePtr) : Code n Label := do
  fileclose rf
  fileclose wf
  pure (.user (-1))

/-- The part of `sys_pipe` that copies the descriptors to user space. -/
def sysPipeCopy (rf wf : FilePtr) (fd0 fd1 : Fd) : Code n Label := do
  let copied ← perform Op.succeeds
  if copied then pure (.user 0)
  else
    perform (Op.clearFd fd0)
    perform (Op.clearFd fd1)
    sysPipeBad rf wf

/-- Create a pipe. -/
def sysPipe : Code n Label := do
  match ← pipealloc with
  | none => pure (.user (-1))
  | some (rf, wf) =>
    match ← fdalloc rf with
    | none => sysPipeBad rf wf
    | some fd0 =>
      match ← fdalloc wf with
      | none =>
        perform (Op.clearFd fd0)
        sysPipeBad rf wf
      | some fd1 => sysPipeCopy rf wf fd0 fd1

/-! ### Opening -/

/-- Run code of the file system that needs the current directory. -/
def withCwd {α : Type} (body : InodePtr → Fs.Code α) : Code n α := do
  let cwd ← perform Op.cwd
  liftFs (body cwd)

/-- The part of `sys_open` that finds or creates the inode and locks it. -/
def sysOpenInode (sb : Superblock) (cwd : InodePtr) (path : List UInt8) (omode : BitVec 32) :
    Fs.Code (Option InodePtr) :=
  if hasFlag omode O_CREATE then Fs.create sb cwd path Fs.T_FILE 0 0
  else do
    match ← Fs.namei sb cwd path with
    | none => pure none
    | some ip =>
      Fs.ilock ip
      let d ← Fs.dinode ip
      if d.type = Fs.T_DIR ∧ omode ≠ 0 then
        Fs.iunlockput ip
        pure none
      else pure (some ip)

/-- The part of `sys_open` that allocates an open file and a descriptor for the locked inode. -/
def sysOpenFile (ip : InodePtr) (d : Dinode) (omode : BitVec 32) : Code n Label := do
  match ← filealloc with
  | none =>
    liftFs (Fs.iunlockput ip)
    pure (.user (-1))
  | some f =>
    match ← fdalloc f with
    | none =>
      fileclose f
      liftFs (Fs.iunlockput ip)
      pure (.user (-1))
    | some fd =>
      perform (Op.openInode f ip d omode)
      liftFs (Fs.iunlock ip)
      pure (.user fd)

/-- Open a path. -/
def sysOpen (sb : Superblock) (path : List UInt8) (omode : BitVec 32) : Code n Label := do
  match ← withCwd fun cwd => sysOpenInode sb cwd path omode with
  | none => pure (.user (-1))
  | some ip =>
    let d ← liftFs (Fs.dinode ip)
    if d.type = Fs.T_DEVICE ∧ (d.major.toInt < 0 ∨ NDEV ≤ d.major.toInt) then
      liftFs (Fs.iunlockput ip)
      pure (.user (-1))
    else sysOpenFile ip d omode

/-- The part of `sys_chdir` that finds the directory. -/
def sysChdirInode (sb : Superblock) (cwd : InodePtr) (path : List UInt8) :
    Fs.Code (Option InodePtr) := do
  match ← Fs.namei sb cwd path with
  | none => pure none
  | some ip =>
    Fs.ilock ip
    let d ← Fs.dinode ip
    if d.type ≠ Fs.T_DIR then
      Fs.iunlockput ip
      pure none
    else
      Fs.iunlock ip
      pure (some ip)

/-- Change the current directory. -/
def sysChdir (sb : Superblock) (path : List UInt8) : Code n Label := do
  match ← withCwd fun cwd => sysChdirInode sb cwd path with
  | none => pure (.user (-1))
  | some ip =>
    withCwd Fs.iput
    perform (Op.setCwd (some ip))
    pure (.user 0)

/-! ### Executing -/

/-- The page size. -/
def PGSIZE : Nat := 4096

/-- A little-endian word of `width` bytes in what `readi` has copied. -/
def wordAt (bytes : List Nat) : (width off : Nat) → Nat
  | 0, _ => 0
  | width + 1, off => bytes.getD off 0 + 256 * wordAt bytes width (off + 1)

/-- `sizeof(struct elfhdr)`. -/
def elfhdrSize : Nat := 64

/-- `sizeof(struct proghdr)`. -/
def proghdrSize : Nat := 56

/-- `ELF_MAGIC`. -/
def ELF_MAGIC : Nat := 0x464C457F

/-- The loop of `loadseg` from byte `i` of the segment on. -/
def loadsegFrom (sb : Superblock) (ip : InodePtr) (offset sz : Nat) : (fuel i : Nat) → Code n Bool
  | 0, _ => pure true
  | fuel + 1, i =>
    if i < sz then do
      let mapped ← perform Op.succeeds
      if mapped then
        let len := min (sz - i) PGSIZE
        let (r, _) ← liftFs (Fs.readi sb ip (fun _ _ => true) ((offset + i) % 2 ^ 32) len)
        if r ≠ len then pure false else loadsegFrom sb ip offset sz fuel (i + PGSIZE)
      else stop "loadseg: address should exist"
    else pure true

/-- Load a program segment of `sz` bytes at `offset`. -/
def loadseg (sb : Superblock) (ip : InodePtr) (offset sz : Nat) : Code n Bool :=
  loadsegFrom sb ip offset sz (sz / PGSIZE + 1) 0

/-- What `exec` does with one program header: `false` to give up. -/
def execSegment (sb : Superblock) (ip : InodePtr) (ph : List Nat) : Code n Bool :=
  let vaddr := wordAt ph 8 16
  let filesz := wordAt ph 8 32
  let memsz := wordAt ph 8 40
  if wordAt ph 4 0 ≠ 1 then pure true
  else if memsz < filesz ∨ 2 ^ 64 ≤ vaddr + memsz then pure false
  else do
    let allocated ← perform Op.succeeds
    if !allocated ∨ vaddr % PGSIZE ≠ 0 then pure false
    else loadseg sb ip (wordAt ph 8 8 % 2 ^ 32) (filesz % 2 ^ 32)

/-- The loop of `exec` over `left` program headers, the next one at `off`. -/
def execSegments (sb : Superblock) (ip : InodePtr) : (left off : Nat) → Code n Bool
  | 0, _ => pure true
  | left + 1, off => do
      let (r, ph) ← liftFs (Fs.readi sb ip (fun _ _ => true) off proghdrSize)
      if r ≠ proghdrSize then pure false
      else
        let loaded ← execSegment sb ip ph
        if loaded then execSegments sb ip left ((off + proghdrSize) % 2 ^ 32) else pure false

/-- Load the program in a locked inode: `false` to give up. -/
def execLoad (sb : Superblock) (ip : InodePtr) : Code n Bool := do
  let (r, elf) ← liftFs (Fs.readi sb ip (fun _ _ => true) 0 elfhdrSize)
  if r ≠ elfhdrSize ∨ wordAt elf 4 0 ≠ ELF_MAGIC then pure false
  else
    let pagetable ← perform Op.succeeds
    if pagetable then execSegments sb ip (wordAt elf 2 56) (wordAt elf 8 32 % 2 ^ 32)
    else pure false

/-- Replace the user image by the program in a file. -/
def execFile (sb : Superblock) (path : List UInt8) (argc : Nat) : Code n Label := do
  match ← withCwd fun cwd => Fs.namei sb cwd path with
  | none => pure (.user (-1))
  | some ip =>
    liftFs (Fs.ilock ip)
    let loaded ← execLoad sb ip
    liftFs (Fs.iunlockput ip)
    if loaded then
      let built ← perform Op.succeeds
      pure (.user (if built then argc else -1))
    else pure (.user (-1))

/-- Execute a program: copy the arguments, then `exec`. -/
def sysExec (sb : Superblock) (path : List UInt8) (argc : Nat) : Code n Label := do
  let copied ← perform Op.succeeds
  if copied then execFile sb path argc else pure (.user (-1))

/-! ### Processes -/

/-- The loop of `allocproc` over the process table. -/
def allocprocFrom : List (Fin n) → Code n (Option (Fin n))
  | [] => pure none
  | q :: rest => do
      let unused ← perform (Op.allocproc q)
      if unused then pure (some q) else allocprocFrom rest

/-- Find an unused slot of the process table and allocate a trapframe for it. -/
def allocproc : Code n (Option (Fin n)) := do
  match ← allocprocFrom (List.finRange n) with
  | none => pure none
  | some q =>
    let tf ← perform Op.succeeds
    if tf then pure (some q)
    else
      perform (Op.freeproc q)
      pure none

/-- What `fork` does with descriptor `fd`. -/
def forkFile (q : Fin n) (fd : Fd) : Code n Unit := do
  match ← perform (Op.ofile fd) with
  | none => pure ()
  | some f =>
    filedup f
    perform (Op.setChildFd q fd f)

/-- The part of `fork` that shares the open files and the current directory with the child. -/
def forkShare (q : Fin n) : Code n Label := do
  forEach (List.finRange NOFILE) (forkFile q)
  let ip ← withCwd Fs.idup
  perform (Op.setChildCwd q ip)
  perform (Op.setRunnable q)
  pure (.user q)

/-- Create a new process. -/
def fork : Code n Label := do
  match ← allocproc with
  | none => pure (.user (-1))
  | some q =>
    let copied ← perform Op.succeeds
    if copied then forkShare q
    else
      perform (Op.freeproc q)
      pure (.user (-1))

/-- What `exit` does with descriptor `fd`. -/
def exitFile (fd : Fd) : Code n Unit := do
  match ← perform (Op.ofile fd) with
  | none => pure ()
  | some f =>
    fileclose f
    perform (Op.clearFd fd)

/-- Exit the current process. -/
def exit [NeZero n] (p : Fin n) : Code n Label :=
  if p = 0 then stop "init exiting"
  else do
    forEach (List.finRange NOFILE) exitFile
    withCwd Fs.iput
    perform (Op.setCwd none)
    perform Op.setZombie
    pure .unborn

/-- Free a zombie. Which ones are children of the caller is up to the environment. -/
def wait : Code n Label := do
  let r ← perform Op.wait
  pure (.user r)

/-! ### Inodes in the hands of kernel code -/

/-- A use of the inode layer. -/
inductive InodeCall where
  | iget (inum : Nat)
  | idup (ip : InodePtr)
  | ilock (ip : InodePtr)
  | iunlock (ip : InodePtr)
  | iput (ip : InodePtr)
  | ialloc (type : BitVec 16)
  | writei (ip : InodePtr) (src : Fs.Copyin) (off len : Nat)
  | itrunc (ip : InodePtr)

/-- Write to an inode that is not a directory. -/
def writeFile (sb : Superblock) (ip : InodePtr) (src : Fs.Copyin) (off len : Nat) :
    Fs.Code Unit := do
  let d ← Fs.dinode ip
  if d.type = Fs.T_DIR then pure ()
  else
    let _ ← Fs.writei sb ip src off len
    pure ()

/-- What code that holds the references `refs` and the locks `locks` does with one use, and what it
holds afterwards. It uses references that it has, locks each inode once, reads and writes locked
inodes only and drops no reference to an inode that it has locked. -/
def useInode (sb : Superblock) (refs locks : List InodePtr) :
    InodeCall → Option (Fs.Code (List InodePtr × List InodePtr))
  | .iget inum =>
    if 0 < inum ∧ inum < sb.ninodes then some do
      let ip ← Fs.iget inum
      pure (ip :: refs, locks)
    else none
  | .idup ip =>
    if ip ∈ refs then some do
      let ip ← Fs.idup ip
      pure (ip :: refs, locks)
    else none
  | .ilock ip =>
    if ip ∈ refs ∧ ip ∉ locks then some do
      Fs.ilock ip
      pure (refs, ip :: locks)
    else none
  | .iunlock ip =>
    if ip ∈ locks then some do
      Fs.iunlock ip
      pure (refs, locks.erase ip)
    else none
  | .iput ip =>
    if ip ∈ refs ∧ ip ∉ locks then some do
      Fs.iput ip
      pure (refs.erase ip, locks)
    else none
  | .ialloc type =>
    if type ≠ 0 then some do
      let ip ← Fs.ialloc sb type
      pure (ip :: refs, locks)
    else none
  | .writei ip src off len =>
    if ip ∈ locks then some do
      writeFile sb ip src off len
      pure (refs, locks)
    else none
  | .itrunc ip =>
    if ip ∈ locks then some do
      Fs.itrunc ip
      pure (refs, locks)
    else none

/-! ### The machine -/

/-- What a process does next. -/
inductive Call where
  | start
  | goOn
  | read (fd : Int) (copyout : Fs.Copyout) (len : Int)
  | write (fd : Int) (src : Fs.Copyin) (len : Int)
  | fstat (fd : Int)
  | dup (fd : Int)
  | close (fd : Int)
  | pipe
  | open (path : Option (List UInt8)) (omode : BitVec 32)
  | mkdir (path : Option (List UInt8))
  | mknod (path : Option (List UInt8)) (major minor : BitVec 16)
  | link (old new : Option (List UInt8))
  | unlink (path : Option (List UInt8))
  | chdir (path : Option (List UInt8))
  | exec (path : Option (List UInt8)) (argc : Nat)
  | fork
  | exit
  | wait
  | inode (use : InodeCall)

/-- A system call with a path argument. -/
def withPath (path : Option (List UInt8)) (body : List UInt8 → Code n Label) : Code n Label :=
  match path with
  | none => pure (.user (-1))
  | some path => body path

/-- A system call that is code of the file system and needs the current directory. -/
def fsCall (body : InodePtr → Fs.Code Int) : Code n Label := do
  let r ← withCwd body
  pure (.user r)

/-- One use of the inode layer by kernel code. -/
def kernelCode (sb : Superblock) (refs locks : List InodePtr) (use : InodeCall) :
    Option (Code n Label) :=
  (useInode sb refs locks use).map fun prog => do
    let (refs, locks) ← liftFs prog
    pure (.kernel refs locks)

/-- The system calls, and the entry into kernel code that uses inodes directly. -/
def syscall [NeZero n] (sb : Superblock) (p : Fin n) : Call → Option (Code n Label)
  | .read fd copyout len => some (argfd fd fun _ f => fileread sb f copyout len)
  | .write fd src len => some (argfd fd fun _ f => filewrite sb f src len)
  | .fstat fd => some (argfd fd fun _ f => filestat f)
  | .dup fd => some (sysDup fd)
  | .close fd => some (sysClose fd)
  | .pipe => some sysPipe
  | .open path omode => some (withPath path fun path => sysOpen sb path omode)
  | .mkdir path => some (withPath path fun path => fsCall fun cwd => Fs.sysMkdir sb cwd path)
  | .mknod path major minor =>
    some (withPath path fun path => fsCall fun cwd => Fs.sysMknod sb cwd path major minor)
  | .link old new =>
    some (withPath old fun old => withPath new fun new =>
      fsCall fun cwd => Fs.sysLink sb cwd old new)
  | .unlink path => some (withPath path fun path => fsCall fun cwd => Fs.sysUnlink sb cwd path)
  | .chdir path => some (withPath path fun path => sysChdir sb path)
  | .exec path argc => some (withPath path fun path => sysExec sb path argc)
  | .fork => some fork
  | .exit => some (exit p)
  | .wait => some wait
  | .inode use => kernelCode sb [] [] use
  | .start => none
  | .goOn => none

/-- The code of each call. -/
def code [NeZero n] (sb : Superblock) (p : Fin n) : Label → Call → Option (Code n Label)
  | .unborn, .start => some do
      perform Op.forkret
      pure (.user 0)
  | .inPipe pi point, .goOn => (Pipe.code p point .goOn).map (runPipe pi)
  | .kernel [] [], .goOn => some (pure (.user 0))
  | .kernel refs locks, .inode use => kernelCode sb refs locks use
  | .user _, call => syscall sb p call
  | _, _ => none

/-- The processes, their files and the file system. -/
def machine (n : Nat) [NeZero n] (sb : Superblock) :
    Machine (Fin n) (Op n) Res (State n) Label Call (Choice n) where
  silent := silent
  exec := exec sb
  code := code sb

/-- A file table entry before its first use. -/
def File.zero : File := ⟨.FD_NONE, 0, false, false, ⟨0, 0⟩, 0, 0, 0⟩

/-- The process table after `userinit`: only process 0 is there, with the current directory in the
first entry of the inode cache. -/
def bootedProc [NeZero n] (p : Fin n) : Proc :=
  if p = 0 then ⟨.alive, fun _ => none, some 0⟩ else ⟨.unused, fun _ => none, none⟩

/-- The inode cache after `userinit`, which has looked up the root directory. -/
def bootedInode (ip : InodePtr) : Inode (Fin n) :=
  if ip = 0 then ⟨ROOTINO, 1, none, false, .zero⟩ else ⟨0, 0, none, false, .zero⟩

/-- The state after `userinit` with a given disk and free memory. -/
def booted [NeZero n] (disk : Nat → Block) (pipe : Nat → Pipe.State (Fin n)) (freelist : List Nat) :
    Config (Fin n) (Op n) Res (State n) Label where
  state := ⟨⟨disk, bootedInode⟩, fun _ => .zero, bootedProc, ⟨pipe, freelist, [], []⟩⟩
  prog := fun _ => .ret .unborn
  panicked := none

end Xv6.Files
