import Xv6.Fs.Layout
import Xv6.Interleave.Prog
import Mathlib.Data.List.FinRange

/-!
# The file system of `kernel/fs.c`

The inode cache and the disk, and the code of the file system from the block allocator to path
names. `disk` holds each block as the buffer cache shows it: `bread` reads it and a modified buffer
stays there, so `log_write` and the transactions around the calls leave no other trace here. There
is one device.

An operation is one critical section under `icache.lock`, one step of an inode's sleep-lock, one
access to the fields of a locked inode, or the work on one buffer between `bread` and `brelse`. The
buffer of an indirect block is held over `balloc` in `bmap`; since it belongs to a locked inode,
reading it and storing into it are two operations here.
-/

namespace Xv6.Fs

open Interleave Function
open Prog (perform)

/-! ### State -/

/-- `struct inode`: an entry of the inode cache. `lock` is the process that holds the sleep-lock. -/
structure Inode (Pid : Type) where
  inum : Nat
  ref : Int
  lock : Option Pid
  valid : Bool
  dinode : Dinode

/-- A pointer to an entry of `icache.inode`. -/
abbrev InodePtr := Fin NINODE

/-- The disk and the inode cache. -/
structure State (Pid : Type) where
  disk : Nat → Block
  inode : InodePtr → Inode Pid

variable {Pid : Type}

namespace State

/-- Change the entry that `ip` points to. -/
def setInode (s : State Pid) (ip : InodePtr) (f : Inode Pid → Inode Pid) : State Pid :=
  { s with inode := update s.inode ip (f (s.inode ip)) }

/-- Leave new contents in the buffer of a block. -/
def setBlock (s : State Pid) (b : Nat) (data : Block) : State Pid :=
  { s with disk := update s.disk b data }

/-- The disk inode with number `inum`. -/
def dinode (s : State Pid) (sb : Superblock) (inum : Nat) : Dinode :=
  Dinode.decode (s.disk (sb.IBLOCK inum)) (inum % IPB)

/-- Store a disk inode. -/
def setDinode (s : State Pid) (sb : Superblock) (inum : Nat) (d : Dinode) : State Pid :=
  s.setBlock (sb.IBLOCK inum) (d.encode (inum % IPB) (s.disk (sb.IBLOCK inum)))

end State

/-! ### Operations -/

/-- The atomic operations. -/
inductive Op where
  /-- Look for a free block in the part of the free map with the bit of `b`, and allocate it. -/
  | ballocAt (b : Nat)
  | bzero (b : Nat)
  | bfree (b : Nat)
  /-- Allocate inode `inum` on disk if it is free. -/
  | iallocAt (inum : Nat) (type : BitVec 16)
  | iget (inum : Nat)
  | idup (ip : InodePtr)
  /-- The check of `ilock`. -/
  | checkRef (ip : InodePtr)
  | acquiresleep (ip : InodePtr)
  /-- The part of `ilock` that reads the inode from disk. -/
  | iload (ip : InodePtr)
  | iunlock (ip : InodePtr)
  /-- The first critical section of `iput`; it returns whether the inode must be freed. -/
  | iputBegin (ip : InodePtr)
  /-- `ip->valid = 0`. -/
  | invalidate (ip : InodePtr)
  | releasesleep (ip : InodePtr)
  /-- The second critical section of `iput`. -/
  | iputEnd (ip : InodePtr)
  | inum (ip : InodePtr)
  | dinode (ip : InodePtr)
  | setDinode (ip : InodePtr) (f : Dinode → Dinode)
  | iupdate (ip : InodePtr)
  | bread (b : Nat)
  /-- Copy `m` bytes into the buffer of block `b` at offset `off`. -/
  | store (b off m : Nat) (bytes : Nat → Nat)
  /-- Store `addr` as entry `j` of the indirect block `ind`. -/
  | setEntry (ind : Nat) (j : Fin NINDIRECT) (addr : Nat)
  | panic (message : String)

/-- What each operation returns. -/
abbrev Res : Op → Type
  | .ballocAt _ => Option Nat
  | .iallocAt _ _ => Bool
  | .iget _ => InodePtr
  | .iputBegin _ => Bool
  | .inum _ => Nat
  | .dinode _ => Dinode
  | .bread _ => Block
  | .panic _ => Empty
  | _ => Unit

/-- The entry that `iget` finds for an inode: one with references, or else the first one without. -/
def State.entryFor (s : State Pid) (inum : Nat) : Option InodePtr :=
  (List.finRange NINODE).find? fun ip => 0 < (s.inode ip).ref ∧ (s.inode ip).inum = inum

/-- The first entry without references. -/
def State.emptyEntry (s : State Pid) : Option InodePtr :=
  (List.finRange NINODE).find? fun ip => (s.inode ip).ref = 0

variable [DecidableEq Pid]

/-- Perform an operation of process `p`. -/
def exec (sb : Superblock) (p : Pid) : (o : Op) → State Pid → Outcome (State Pid) (Res o)
  | .ballocAt b, s =>
    let bp := s.disk (sb.BBLOCK b)
    match bp.firstClear (min BPB (sb.size - b)) 0 with
    | some bi => .done (some (b + bi)) (s.setBlock (sb.BBLOCK b) (bp.setBit bi true))
    | none => .done none s
  | .bzero b, s => .done () (s.setBlock b .zeros)
  | .bfree b, s =>
    let bp := s.disk (sb.BBLOCK b)
    if bp.bit (b % BPB) then .done () (s.setBlock (sb.BBLOCK b) (bp.setBit (b % BPB) false))
    else .panic "freeing free block"
  | .iallocAt inum type, s =>
    if (s.dinode sb inum).type = 0 then
      .done true (s.setDinode sb inum { Dinode.zero with type := type })
    else .done false s
  | .iget inum, s =>
    match s.entryFor inum with
    | some ip => .done ip (s.setInode ip fun e => { e with ref := e.ref + 1 })
    | none =>
      match s.emptyEntry with
      | some ip =>
        .done ip (s.setInode ip fun e => { e with inum := inum, ref := 1, valid := false })
      | none => .panic "iget: no inodes"
  | .idup ip, s => .done () (s.setInode ip fun e => { e with ref := e.ref + 1 })
  | .checkRef ip, s => if (s.inode ip).ref < 1 then .panic "ilock" else .done () s
  | .acquiresleep ip, s =>
    match (s.inode ip).lock with
    | none => .done () (s.setInode ip fun e => { e with lock := some p })
    | some _ => .blocked
  | .iload ip, s =>
    let e := s.inode ip
    if e.valid then .done () s
    else if (s.dinode sb e.inum).type = 0 then .panic "ilock: no type"
    else .done () (s.setInode ip fun e => { e with dinode := s.dinode sb e.inum, valid := true })
  | .iunlock ip, s =>
    if (s.inode ip).lock ≠ some p ∨ (s.inode ip).ref < 1 then .panic "iunlock"
    else .done () (s.setInode ip fun e => { e with lock := none })
  | .iputBegin ip, s =>
    let e := s.inode ip
    if e.ref = 1 ∧ e.valid = true ∧ e.dinode.nlink = 0 then
      match e.lock with
      | none => .done true (s.setInode ip fun e => { e with lock := some p })
      | some _ => .blocked
    else .done false (s.setInode ip fun e => { e with ref := e.ref - 1 })
  | .invalidate ip, s => .done () (s.setInode ip fun e => { e with valid := false })
  | .releasesleep ip, s => .done () (s.setInode ip fun e => { e with lock := none })
  | .iputEnd ip, s => .done () (s.setInode ip fun e => { e with ref := e.ref - 1 })
  | .inum ip, s => .done (s.inode ip).inum s
  | .dinode ip, s => .done (s.inode ip).dinode s
  | .setDinode ip f, s => .done () (s.setInode ip fun e => { e with dinode := f e.dinode })
  | .iupdate ip, s => .done () (s.setDinode sb (s.inode ip).inum (s.inode ip).dinode)
  | .bread b, s => .done (s.disk b) s
  | .store b off m bytes, s => .done () (s.setBlock b ((s.disk b).splice off m bytes))
  | .setEntry ind j addr, s => .done () (s.setBlock ind ((s.disk ind).writeLE 4 (4 * j) addr))
  | .panic message, _ => .panic message

/-! ### Code -/

/-- Kernel code that works on the file system. -/
abbrev Code := Prog Op Res

/-- Stop the machine. -/
def stop {α : Type} (message : String) : Code α := .op (.panic message) nofun

/-- Run `body` on each element in turn. -/
def forEach {β : Type} : List β → (β → Code Unit) → Code Unit
  | [], _ => pure ()
  | x :: rest, body => do
      body x
      forEach rest body

/-! ### Blocks -/

/-- The loop of `balloc` from block `b` on, with a round for each block of the free map. -/
def ballocFrom (sb : Superblock) : (fuel b : Nat) → Code Nat
  | 0, _ => stop "balloc: out of blocks"
  | fuel + 1, b =>
    if b < sb.size then do
      match ← perform (Op.ballocAt b) with
      | some addr =>
        perform (Op.bzero addr)
        pure addr
      | none => ballocFrom sb fuel (b + BPB)
    else stop "balloc: out of blocks"

/-- Allocate a zeroed disk block. -/
def balloc (sb : Superblock) : Code Nat := ballocFrom sb (sb.size / BPB + 1) 0

/-- Free a disk block. -/
def bfree (b : Nat) : Code Unit := perform (Op.bfree b)

/-! ### Inodes -/

/-- Find the inode with number `inum` and return its entry, neither locked nor read from disk. -/
def iget (inum : Nat) : Code InodePtr := perform (Op.iget inum)

/-- The loop of `ialloc` from inode `inum` on. -/
def iallocFrom (type : BitVec 16) : (fuel inum : Nat) → Code InodePtr
  | 0, _ => stop "ialloc: no inodes"
  | fuel + 1, inum => do
      let allocated ← perform (Op.iallocAt inum type)
      if allocated then iget inum else iallocFrom type fuel (inum + 1)

/-- Allocate an inode and mark it as allocated by giving it type `type`. -/
def ialloc (sb : Superblock) (type : BitVec 16) : Code InodePtr :=
  iallocFrom type (sb.ninodes - 1) 1

/-- Copy a modified in-memory inode to disk. -/
def iupdate (ip : InodePtr) : Code Unit := perform (Op.iupdate ip)

/-- Increment the reference count. -/
def idup (ip : InodePtr) : Code InodePtr := do
  perform (Op.idup ip)
  pure ip

/-- Lock the inode and read it from disk if necessary. -/
def ilock (ip : InodePtr) : Code Unit := do
  perform (Op.checkRef ip)
  perform (Op.acquiresleep ip)
  perform (Op.iload ip)

/-- Unlock the inode. -/
def iunlock (ip : InodePtr) : Code Unit := perform (Op.iunlock ip)

/-- The fields of a locked inode. -/
def dinode (ip : InodePtr) : Code Dinode := perform (Op.dinode ip)

/-- Change the fields of a locked inode. -/
def setDinode (ip : InodePtr) (f : Dinode → Dinode) : Code Unit := perform (Op.setDinode ip f)

/-! ### Inode content -/

/-- Free the block in direct slot `i`. -/
def itruncDirect (ip : InodePtr) (i : Fin NDIRECT) : Code Unit := do
  let d ← dinode ip
  if d.addrs i.castSucc ≠ 0 then
    bfree (d.addrs i.castSucc).toNat
    setDinode ip fun d => { d with addrs := update d.addrs i.castSucc 0 }
  else pure ()

/-- Free the block in entry `j` of an indirect block with contents `a`. -/
def itruncEntry (a : Block) (j : Fin NINDIRECT) : Code Unit :=
  if a.readLE 4 (4 * j) ≠ 0 then bfree (a.readLE 4 (4 * j)) else pure ()

/-- Free the indirect block and the blocks it lists. -/
def itruncIndirect (ip : InodePtr) : Code Unit := do
  let d ← dinode ip
  let addr := d.addrs (Fin.last NDIRECT)
  if addr ≠ 0 then
    let bp ← perform (Op.bread addr.toNat)
    forEach (List.finRange NINDIRECT) (itruncEntry bp)
    bfree addr.toNat
    setDinode ip fun d => { d with addrs := update d.addrs (Fin.last NDIRECT) 0 }
  else pure ()

/-- Discard the contents of an inode. -/
def itrunc (ip : InodePtr) : Code Unit := do
  forEach (List.finRange NDIRECT) (itruncDirect ip)
  itruncIndirect ip
  setDinode ip fun d => { d with size := 0 }
  iupdate ip

/-- Free the inode on disk, with its content. -/
def ifree (ip : InodePtr) : Code Unit := do
  itrunc ip
  setDinode ip fun d => { d with type := 0 }
  iupdate ip
  perform (Op.invalidate ip)
  perform (Op.releasesleep ip)
  perform (Op.iputEnd ip)

/-- Drop a reference to an in-memory inode; if it was the last one and the inode has no links, free
the inode and its content on disk. -/
def iput (ip : InodePtr) : Code Unit := do
  let last ← perform (Op.iputBegin ip)
  if last then ifree ip else pure ()

/-- Unlock, then put. -/
def iunlockput (ip : InodePtr) : Code Unit := do
  iunlock ip
  iput ip

/-- The block in slot `k` of `ip->addrs`, allocated if there is none. -/
def bmapSlot (sb : Superblock) (ip : InodePtr) (k : Fin (NDIRECT + 1)) : Code Nat := do
  let d ← dinode ip
  if d.addrs k = 0 then
    let addr ← balloc sb
    setDinode ip fun d => { d with addrs := update d.addrs k (BitVec.ofNat 32 addr) }
    pure addr
  else pure (d.addrs k).toNat

/-- The block in entry `j` of the indirect block `ind`, allocated if there is none. -/
def bmapEntry (sb : Superblock) (ind : Nat) (j : Fin NINDIRECT) : Code Nat := do
  let bp ← perform (Op.bread ind)
  if bp.readLE 4 (4 * j) = 0 then
    let addr ← balloc sb
    perform (Op.setEntry ind j addr)
    pure addr
  else pure (bp.readLE 4 (4 * j))

/-- The disk block address of block `bn` of an inode; if there is no such block, allocate one. -/
def bmap (sb : Superblock) (ip : InodePtr) (bn : Nat) : Code Nat :=
  if h : bn < NDIRECT then bmapSlot sb ip (Fin.castSucc ⟨bn, h⟩)
  else if h' : bn - NDIRECT < NINDIRECT then do
    let ind ← bmapSlot sb ip (Fin.last NDIRECT)
    bmapEntry sb ind ⟨bn - NDIRECT, h'⟩
  else stop "bmap: out of range"

/-- Whether `either_copyout` of a piece succeeds, by the piece's start and length. -/
abbrev Copyout := Nat → Nat → Bool

/-- The loop of `readi`: the bytes copied from offset `off` on, with `tot` of `n` copied already. -/
def readiFrom (sb : Superblock) (ip : InodePtr) (copyout : Copyout) (n : Nat) :
    (fuel tot off : Nat) → Code (List Nat)
  | 0, _, _ => pure []
  | fuel + 1, tot, off =>
    if tot < n then do
      let addr ← bmap sb ip (off / BSIZE)
      let bp ← perform (Op.bread addr)
      let m := min (n - tot) (BSIZE - off % BSIZE)
      if copyout tot m then
        let rest ← readiFrom sb ip copyout n fuel (tot + m) (off + m)
        pure ((List.range m).map (fun k => bp.byte (off % BSIZE + k)) ++ rest)
      else pure []
    else pure []

/-- Read data from an inode: the value returned and the bytes copied. -/
def readi (sb : Superblock) (ip : InodePtr) (copyout : Copyout) (off n : Nat) :
    Code (Int × List Nat) := do
  let d ← dinode ip
  if d.size.toNat < off ∨ 2 ^ 32 ≤ off + n then pure (-1, [])
  else
    let n := if d.size.toNat < off + n then d.size.toNat - off else n
    let bytes ← readiFrom sb ip copyout n (n + 1) 0 off
    pure (n, bytes)

/-- Whether `either_copyin` of a piece succeeds, and how many bytes it has stored if not. -/
structure CopiedPiece where
  ok : Bool
  stored : Nat

/-- The source of `writei`: its bytes, and how copying the piece at a start with a length goes. -/
structure Copyin where
  bytes : Nat → Nat
  piece : Nat → Nat → CopiedPiece

/-- A source in kernel memory: every copy succeeds. -/
def Copyin.kernel (bytes : Nat → Nat) : Copyin := ⟨bytes, fun _ m => ⟨true, m⟩⟩

/-- The loop of `writei` with `tot` of `n` bytes written: the offset where it ends. A piece whose
copy fails leaves what was stored in the buffer. -/
def writeiFrom (sb : Superblock) (ip : InodePtr) (src : Copyin) (n : Nat) :
    (fuel tot off : Nat) → Code Nat
  | 0, _, off => pure off
  | fuel + 1, tot, off =>
    if tot < n then do
      let addr ← bmap sb ip (off / BSIZE)
      let m := min (n - tot) (BSIZE - off % BSIZE)
      let copied := src.piece tot m
      if copied.ok then
        perform (Op.store addr (off % BSIZE) m fun k => src.bytes (tot + k))
        writeiFrom sb ip src n fuel (tot + m) (off + m)
      else
        perform (Op.store addr (off % BSIZE) (min copied.stored m) fun k => src.bytes (tot + k))
        pure off
    else pure off

/-- The end of `writei`, which writes the inode back. -/
def writeiEnd (ip : InodePtr) (off : Nat) : Code Unit := do
  setDinode ip fun d => if d.size.toNat < off then { d with size := BitVec.ofNat 32 off } else d
  iupdate ip

/-- Write data to an inode. -/
def writei (sb : Superblock) (ip : InodePtr) (src : Copyin) (off n : Nat) : Code Int := do
  let d ← dinode ip
  if d.size.toNat < off ∨ 2 ^ 32 ≤ off + n then pure (-1)
  else if MAXFILE * BSIZE < off + n then pure (-1)
  else
    let off ← writeiFrom sb ip src n (n + 1) 0 off
    if 0 < n then writeiEnd ip off else pure ()
    pure n

/-! ### Directories -/

/-- Read the directory entry at offset `off`; `message` is the panic of the caller's check. -/
def readDirent (sb : Superblock) (dp : InodePtr) (message : String) (off : Nat) : Code Dirent := do
  let (r, bytes) ← readi sb dp (fun _ _ => true) off direntSize
  if r ≠ direntSize then stop message else pure (.ofBytes fun i => bytes.getD i 0)

/-- The loop of `dirlookup` from offset `off` on: where the name is, and its inode number. -/
def dirlookupFrom (sb : Superblock) (dp : InodePtr) (name : List UInt8) :
    (fuel off : Nat) → Code (Option (Nat × Nat))
  | 0, _ => pure none
  | fuel + 1, off => do
      let d ← dinode dp
      if off < d.size.toNat then
        let de ← readDirent sb dp "dirlookup read" off
        if de.inum ≠ 0 ∧ namecmp (cstr name) de.name = 0 then pure (some (off, de.inum))
        else dirlookupFrom sb dp name fuel (off + direntSize)
      else pure none

/-- Look for an entry in a directory; return its inode and the offset of the entry. -/
def dirlookup (sb : Superblock) (dp : InodePtr) (name : List UInt8) :
    Code (Option (InodePtr × Nat)) := do
  let d ← dinode dp
  if d.type ≠ T_DIR then stop "dirlookup not DIR"
  else
    match ← dirlookupFrom sb dp name (d.size.toNat / direntSize + 1) 0 with
    | none => pure none
    | some (off, inum) =>
      let ip ← iget inum
      pure (some (ip, off))

/-- The loop of `dirlink` from offset `off` on: where there is an empty entry. -/
def dirlinkFrom (sb : Superblock) (dp : InodePtr) : (fuel off : Nat) → Code Nat
  | 0, off => pure off
  | fuel + 1, off => do
      let d ← dinode dp
      if off < d.size.toNat then
        let de ← readDirent sb dp "dirlink read" off
        if de.inum = 0 then pure off else dirlinkFrom sb dp fuel (off + direntSize)
      else pure off

/-- The part of `dirlink` after the name is known not to be present. -/
def dirlinkNew (sb : Superblock) (dp : InodePtr) (name : List UInt8) (inum : Nat) : Code Unit := do
  let d ← dinode dp
  let off ← dirlinkFrom sb dp (d.size.toNat / direntSize + 1) 0
  let de : Dirent := ⟨inum, strncpy (cstr name)⟩
  let r ← writei sb dp (.kernel de.toBytes) off direntSize
  if r ≠ direntSize then stop "dirlink" else pure ()

/-- Write a new entry into a directory; `false` if the name is present already. -/
def dirlink (sb : Superblock) (dp : InodePtr) (name : List UInt8) (inum : Nat) : Code Bool := do
  match ← dirlookup sb dp name with
  | some (ip, _) =>
    iput ip
    pure false
  | none =>
    dirlinkNew sb dp name inum
    pure true

/-! ### Paths -/

/-- The character `/`. -/
def slash : UInt8 := 47

/-- Split off the next path element, cut to `DIRSIZ` bytes, and the slashes behind it. -/
def skipelem (path : List UInt8) : Option (List UInt8 × List UInt8) :=
  let path := path.dropWhile (· == slash)
  if path = [] then none
  else some ((path.takeWhile (· != slash)).take DIRSIZ,
    (path.dropWhile (· != slash)).dropWhile (· == slash))

/-- The elements that the loop of `namex` splits off one after the other. -/
def elements : (fuel : Nat) → List UInt8 → List (List UInt8)
  | 0, _ => []
  | fuel + 1, path =>
    match skipelem path with
    | none => []
    | some (elem, rest) => elem :: elements fuel rest

/-- The loop of `namex` from the inode `ip` on. `name` is the last element that was split off. -/
def namexFrom (sb : Superblock) (nameiparent : Bool) :
    List (List UInt8) → InodePtr → (name : List UInt8) → Code (Option (InodePtr × List UInt8))
  | [], ip, name =>
    if nameiparent then do
      iput ip
      pure none
    else pure (some (ip, name))
  | elem :: rest, ip, _ => do
      ilock ip
      let d ← dinode ip
      if d.type ≠ T_DIR then
        iunlockput ip
        pure none
      else if nameiparent ∧ rest = [] then
        iunlock ip
        pure (some (ip, elem))
      else
        match ← dirlookup sb ip elem with
        | none =>
          iunlockput ip
          pure none
        | some (next, _) =>
          iunlockput ip
          namexFrom sb nameiparent rest next elem

/-- Where path resolution starts: the root if the path starts with a slash, else the current
directory. -/
def namexStart (cwd : InodePtr) (path : List UInt8) : Code InodePtr :=
  if path.head? = some slash then iget ROOTINO else idup cwd

/-- Look up the inode for a path, or with `nameiparent` the parent's and the final element. -/
def namex (sb : Superblock) (cwd : InodePtr) (path : List UInt8) (nameiparent : Bool) :
    Code (Option (InodePtr × List UInt8)) := do
  let ip ← namexStart cwd path
  namexFrom sb nameiparent (elements (path.length + 1) path) ip []

/-- The inode for a path name. -/
def namei (sb : Superblock) (cwd : InodePtr) (path : List UInt8) : Code (Option InodePtr) := do
  let found ← namex sb cwd path false
  pure (found.map Prod.fst)

/-- The inode of the parent directory and the final path element. -/
def nameiparent (sb : Superblock) (cwd : InodePtr) (path : List UInt8) :
    Code (Option (InodePtr × List UInt8)) :=
  namex sb cwd path true

end Xv6.Fs
