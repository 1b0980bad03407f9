import Xv6.Bytes.Buffer

/-!
# Constants of the kernel

The constants of `kernel/param.h`, `kernel/fs.h` and `kernel/stat.h` that the models use,
under their own names, and the type of a disk block's contents.
-/

namespace Xv6

/-- Maximum number of processes. -/
def NPROC : Nat := 10

/-- Maximum number of CPUs. -/
def NCPU : Nat := 8

/-- Maximum number of blocks any file system operation writes. -/
def MAXOPBLOCKS : Nat := 10

/-- Maximum number of data blocks in the on-disk log. -/
def LOGSIZE : Nat := MAXOPBLOCKS * 3

/-- Size of the disk block cache. -/
def NBUF : Nat := MAXOPBLOCKS * 3

instance : NeZero NPROC := ⟨by decide⟩

/-- A process, by its slot in the process table. -/
abbrev Pid := Fin NPROC

instance : NeZero NCPU := ⟨by decide⟩

instance : NeZero NBUF := ⟨by decide⟩

/-- Open files per process. -/
def NOFILE : Nat := 16

/-- Open files per system. -/
def NFILE : Nat := 100

/-- Maximum number of active i-nodes. -/
def NINODE : Nat := 50

/-- Maximum major device number. -/
def NDEV : Nat := 10

instance : NeZero NINODE := ⟨by decide⟩

instance : NeZero NFILE := ⟨by decide⟩

instance : NeZero NOFILE := ⟨by decide⟩

/-- Block size in bytes. -/
def BSIZE : Nat := 1024

/-- Root i-number. -/
def ROOTINO : Nat := 1

/-- Direct blocks of a file. -/
def NDIRECT : Nat := 12

/-- Block numbers in an indirect block. -/
def NINDIRECT : Nat := BSIZE / 4

/-- Blocks of the largest file. -/
def MAXFILE : Nat := NDIRECT + NINDIRECT

/-- Inodes per block. -/
def IPB : Nat := BSIZE / 64

/-- Bitmap bits per block. -/
def BPB : Nat := BSIZE * 8

/-- Bytes of the name in a directory entry. -/
def DIRSIZ : Nat := 14

/-- The contents of one disk block. -/
abbrev Block := Bytes.Buffer BSIZE

/-- A C `int` read from its 32-bit representation. -/
def int32 (word : Nat) : Int := Int.bmod word (2 ^ 32)

theorem int32_of_lt {word : Nat} (h : word < 2 ^ 31) : int32 word = word := by
  exact Int.bmod_eq_of_le_mul_two (by push_cast; omega) (by push_cast; omega)

end Xv6
