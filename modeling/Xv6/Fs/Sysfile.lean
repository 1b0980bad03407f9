import Xv6.Fs.Code

/-!
# Names: the part of `kernel/sysfile.c` above the file system

`sys_link`, `sys_unlink` and `create` with their error exits, as code on the file system. `cwd` is
the current directory of the calling process.
-/

namespace Xv6.Fs

open Interleave

/-! ### Links -/

/-- The label `bad` of `sys_link`: take back the link that was counted. -/
def sysLinkBad (ip : InodePtr) : Code Int := do
  ilock ip
  setDinode ip fun d => { d with nlink := d.nlink - 1 }
  iupdate ip
  iunlockput ip
  pure (-1)

/-- The part of `sys_link` after the link is counted. -/
def sysLinkEntry (sb : Superblock) (cwd ip : InodePtr) (new : List UInt8) : Code Int := do
  match ← nameiparent sb cwd new with
  | none => sysLinkBad ip
  | some (dp, name) =>
    ilock dp
    let inum ← Prog.perform (Op.inum ip)
    let linked ← dirlink sb dp name inum
    iunlockput dp
    if linked then
      iput ip
      pure 0
    else sysLinkBad ip

/-- Create the path `new` as a link to the same inode as `old`. -/
def sysLink (sb : Superblock) (cwd : InodePtr) (old new : List UInt8) : Code Int := do
  match ← namei sb cwd old with
  | none => pure (-1)
  | some ip =>
    ilock ip
    let d ← dinode ip
    if d.type = T_DIR then
      iunlockput ip
      pure (-1)
    else
      setDinode ip fun d => { d with nlink := d.nlink + 1 }
      iupdate ip
      iunlock ip
      sysLinkEntry sb cwd ip new

/-- The loop of `isdirempty` from offset `off` on. -/
def isdiremptyFrom (sb : Superblock) (dp : InodePtr) : (fuel off : Nat) → Code Bool
  | 0, _ => pure true
  | fuel + 1, off => do
      let d ← dinode dp
      if off < d.size.toNat then
        let de ← readDirent sb dp "isdirempty: readi" off
        if de.inum ≠ 0 then pure false else isdiremptyFrom sb dp fuel (off + direntSize)
      else pure true

/-- Whether a directory is empty except for `.` and `..`. -/
def isdirempty (sb : Superblock) (dp : InodePtr) : Code Bool := do
  let d ← dinode dp
  isdiremptyFrom sb dp (d.size.toNat / direntSize + 1) (2 * direntSize)

/-- The name `.`. -/
def dot : List UInt8 := [46]

/-- The name `..`. -/
def dotdot : List UInt8 := [46, 46]

/-- The end of `sys_unlink`, after the entry has been cleared. -/
def sysUnlinkEnd (dp ip : InodePtr) : Code Int := do
  iunlockput dp
  setDinode ip fun d => { d with nlink := d.nlink - 1 }
  iupdate ip
  iunlockput ip
  pure 0

/-- The part of `sys_unlink` that clears the entry at `off` of `dp`, which refers to `ip`. -/
def sysUnlinkEntry (sb : Superblock) (dp ip : InodePtr) (off : Nat) : Code Int := do
  let r ← writei sb dp (.kernel fun _ => 0) off direntSize
  if r ≠ direntSize then stop "unlink: writei"
  else
    let d ← dinode ip
    if d.type = T_DIR then
      setDinode dp fun d => { d with nlink := d.nlink - 1 }
      iupdate dp
      sysUnlinkEnd dp ip
    else sysUnlinkEnd dp ip

/-- Whether `sys_unlink` refuses to remove a directory because it is not empty. -/
def isBusyDir (sb : Superblock) (ip : InodePtr) : Code Bool := do
  let d ← dinode ip
  if d.type = T_DIR then
    let empty ← isdirempty sb ip
    pure (!empty)
  else pure false

/-- The part of `sys_unlink` after the entry at `off` of `dp` was found to refer to `ip`. -/
def sysUnlinkFound (sb : Superblock) (dp ip : InodePtr) (off : Nat) : Code Int := do
  ilock ip
  let d ← dinode ip
  if d.nlink.toInt < 1 then stop "unlink: nlink < 1"
  else
    let busy ← isBusyDir sb ip
    if busy then
      iunlockput ip
      iunlockput dp
      pure (-1)
    else sysUnlinkEntry sb dp ip off

/-- Remove a directory entry. -/
def sysUnlink (sb : Superblock) (cwd : InodePtr) (path : List UInt8) : Code Int := do
  match ← nameiparent sb cwd path with
  | none => pure (-1)
  | some (dp, name) =>
    ilock dp
    if namecmp (cstr name) (cstr dot) = 0 ∨ namecmp (cstr name) (cstr dotdot) = 0 then
      iunlockput dp
      pure (-1)
    else
      match ← dirlookup sb dp name with
      | none =>
        iunlockput dp
        pure (-1)
      | some (ip, off) => sysUnlinkFound sb dp ip off

/-! ### Creating -/

/-- The part of `create` that makes the entries `.` and `..` of a new directory. -/
def createDots (sb : Superblock) (dp ip : InodePtr) : Code Unit := do
  setDinode dp fun d => { d with nlink := d.nlink + 1 }
  iupdate dp
  let inum ← Prog.perform (Op.inum ip)
  let linked ← dirlink sb ip dot inum
  if linked then
    let parent ← Prog.perform (Op.inum dp)
    let linked ← dirlink sb ip dotdot parent
    if linked then pure () else stop "create dots"
  else stop "create dots"

/-- The part of `create` that enters the new inode into its directory. -/
def createEntry (sb : Superblock) (dp ip : InodePtr) (name : List UInt8) : Code InodePtr := do
  let inum ← Prog.perform (Op.inum ip)
  let linked ← dirlink sb dp name inum
  if linked then
    iunlockput dp
    pure ip
  else stop "create: dirlink"

/-- The part of `create` after the name is known to be new. -/
def createNew (sb : Superblock) (dp : InodePtr) (name : List UInt8) (type major minor : BitVec 16) :
    Code InodePtr := do
  let ip ← ialloc sb type
  ilock ip
  setDinode ip fun d => { d with major := major, minor := minor, nlink := 1 }
  iupdate ip
  if type = T_DIR then
    createDots sb dp ip
    createEntry sb dp ip name
  else createEntry sb dp ip name

/-- The part of `create` after the name was found. -/
def createFound (dp ip : InodePtr) (type : BitVec 16) : Code (Option InodePtr) := do
  iunlockput dp
  ilock ip
  let d ← dinode ip
  if type = T_FILE ∧ (d.type = T_FILE ∨ d.type = T_DEVICE) then pure (some ip)
  else
    iunlockput ip
    pure none

/-- Create an inode with a name; the result is locked. -/
def create (sb : Superblock) (cwd : InodePtr) (path : List UInt8) (type major minor : BitVec 16) :
    Code (Option InodePtr) := do
  match ← nameiparent sb cwd path with
  | none => pure none
  | some (dp, name) =>
    ilock dp
    match ← dirlookup sb dp name with
    | some (ip, _) => createFound dp ip type
    | none =>
      let ip ← createNew sb dp name type major minor
      pure (some ip)

/-- Create a directory or a device file: `sys_mkdir` and `sys_mknod`. -/
def sysMake (sb : Superblock) (cwd : InodePtr) (path : List UInt8) (type major minor : BitVec 16) :
    Code Int := do
  match ← create sb cwd path type major minor with
  | none => pure (-1)
  | some ip =>
    iunlockput ip
    pure 0

/-- Create a directory. -/
def sysMkdir (sb : Superblock) (cwd : InodePtr) (path : List UInt8) : Code Int :=
  sysMake sb cwd path T_DIR 0 0

/-- Create a device file. -/
def sysMknod (sb : Superblock) (cwd : InodePtr) (path : List UInt8) (major minor : BitVec 16) :
    Code Int :=
  sysMake sb cwd path T_DEVICE major minor

end Xv6.Fs
