import Xv6.Fs.Sysfile

/-!
# The program `mkfs/mkfs.c`

`mkfs` builds a file system image from a list of files, on a little-endian host. It allocates inodes
and blocks by counting, appends to files with `iappend`, and writes the free map at the end. Each
function that may end the program returns an `Except`; an error is an `exit(1)` or a failed
`assert`.

The counters `freeinode` and `freeblock` are unbounded here. They stay far from the bounds of a
`uint`, since every inode and every block is read from the image before the next one is allocated,
and reading past the end of the image ends the program.
-/

namespace Xv6.Mkfs

open Bytes Fs

/-! ### Layout -/

/-- Size of the file system in blocks. -/
def FSSIZE : Nat := 2000

/-- Number of inodes. -/
def NINODES : Nat := 200

/-- Number of blocks of the free map. -/
def nbitmap : Nat := FSSIZE / (BSIZE * 8) + 1

/-- Number of inode blocks. -/
def ninodeblocks : Nat := NINODES / IPB + 1

/-- Number of log blocks. -/
def nlog : Nat := LOGSIZE

/-- Number of meta blocks: boot block, super block, log, inodes and free map. -/
def nmeta : Nat := 2 + nlog + ninodeblocks + nbitmap

/-- Number of data blocks. -/
def nblocks : Nat := FSSIZE - nmeta

/-- `FSMAGIC`. -/
def FSMAGIC : Nat := 0x10203040

/-- The super block. -/
def sb : Superblock := ⟨FSSIZE, nblocks, NINODES, 2 + nlog, 2 + nlog + ninodeblocks⟩

/-- The members of `struct superblock` in its block. -/
def sbFields : List Field :=
  [⟨4, 0, FSMAGIC⟩, ⟨4, 4, sb.size⟩, ⟨4, 8, sb.nblocks⟩, ⟨4, 12, sb.ninodes⟩, ⟨4, 16, nlog⟩,
    ⟨4, 20, 2⟩, ⟨4, 24, sb.inodestart⟩, ⟨4, 28, sb.bmapstart⟩]

/-! ### The image -/

/-- The image file: its sectors, and how many of them it has. -/
structure Image where
  sector : Nat → Block
  length : Nat

/-- Why the program ends early. -/
inductive Failure where
  /-- `perror("read")` in `rsect`. -/
  | read
  /-- `perror(argv[i])`: the file cannot be opened. -/
  | openFile (arg : List UInt8)
  /-- A failed `assert` with the text of its condition. -/
  | assertion (condition : String)
  deriving DecidableEq

/-- The sector that `lseek(fsfd, sec * BSIZE, 0)` reaches: the product is a `uint`. -/
def seek (sec : Nat) : Nat := sec * BSIZE % 2 ^ 32 / BSIZE

/-- Write a sector. -/
def wsect (image : Image) (sec : Nat) (buf : Block) : Image :=
  ⟨Function.update image.sector (seek sec) buf, max image.length (seek sec + 1)⟩

/-- Read a sector. -/
def rsect (image : Image) (sec : Nat) : Except Failure Block :=
  if seek sec < image.length then .ok (image.sector (seek sec)) else .error .read

/-- Write an inode. -/
def winode (image : Image) (inum : Nat) (din : Dinode) : Except Failure Image := do
  let buf ← rsect image (sb.IBLOCK inum)
  pure (wsect image (sb.IBLOCK inum) (din.encode (inum % IPB) buf))

/-- Read an inode. -/
def rinode (image : Image) (inum : Nat) : Except Failure Dinode := do
  let buf ← rsect image (sb.IBLOCK inum)
  pure (Dinode.decode buf (inum % IPB))

/-! ### Allocation -/

/-- The image and the two counters. -/
structure State where
  image : Image
  freeinode : Nat
  freeblock : Nat

/-- Allocate an inode. -/
def ialloc (s : State) (type : BitVec 16) : Except Failure (Nat × State) := do
  let inum := s.freeinode
  let image ← winode s.image inum { Dinode.zero with type := type, nlink := 1 }
  pure (inum, { s with image := image, freeinode := inum + 1 })

/-- The block of the free map in which the first `used` blocks are marked. -/
def bitmap (used : Nat) : Block := (List.range used).foldl (fun buf i => buf.setBit i true) .zeros

/-- Write the free map. -/
def balloc (image : Image) (used : Nat) : Except Failure Image :=
  if used < BSIZE * 8 then .ok (wsect image sb.bmapstart (bitmap used))
  else .error (.assertion "used < BSIZE*8")

/-! ### Appending -/

/-- What the loop of `iappend` changes: the image, the block counter and its copy of the inode. -/
structure Cursor where
  image : Image
  freeblock : Nat
  din : Dinode

/-- Allocate a block for slot `k` of the inode if there is none. -/
def allocSlot (c : Cursor) (k : Fin (NDIRECT + 1)) : Cursor :=
  if c.din.addrs k = 0 then
    { c with
      freeblock := c.freeblock + 1
      din := { c.din with addrs := Function.update c.din.addrs k (BitVec.ofNat 32 c.freeblock) } }
  else c

/-- The block for entry `j` of the indirect block, allocated if there is none. -/
def allocEntry (c : Cursor) (j : Nat) : Except Failure (Nat × Cursor) := do
  let ind := (c.din.addrs (Fin.last NDIRECT)).toNat
  let indirect ← rsect c.image ind
  if indirect.readLE 4 (4 * j) = 0 then
    let indirect := indirect.writeLE 4 (4 * j) c.freeblock
    pure (indirect.readLE 4 (4 * j),
      { c with image := wsect c.image ind indirect, freeblock := c.freeblock + 1 })
  else pure (indirect.readLE 4 (4 * j), c)

/-- The sector of block `fbn` of the file, allocated if there is none. -/
def sectorOf (c : Cursor) (fbn : Nat) : Except Failure (Nat × Cursor) :=
  if h : fbn < NDIRECT then
    let k : Fin (NDIRECT + 1) := Fin.castSucc ⟨fbn, h⟩
    let c := allocSlot c k
    pure ((c.din.addrs k).toNat, c)
  else allocEntry (allocSlot c (Fin.last NDIRECT)) (fbn - NDIRECT)

/-- One round of `iappend`: append the first `n1` bytes of `p`, which belong to block `fbn`. -/
def appendPiece (c : Cursor) (fbn off n1 : Nat) (p : List UInt8) : Except Failure Cursor := do
  let (x, c) ← sectorOf c fbn
  let buf ← rsect c.image x
  let buf := buf.splice (off - fbn * BSIZE) n1 fun k => (p.getD k 0).toNat
  pure { c with image := wsect c.image x buf }

/-- The loop of `iappend` from offset `off` on: where it ends. There is at most a round for each
byte. -/
def iappendFrom : (fuel : Nat) → Cursor → (off : Nat) → List UInt8 → Except Failure (Nat × Cursor)
  | 0, c, off, _ => pure (off, c)
  | fuel + 1, c, off, p =>
    if p = [] then pure (off, c)
    else
      let fbn := off / BSIZE
      if fbn < MAXFILE then do
        let n1 := min p.length ((fbn + 1) * BSIZE - off)
        let c ← appendPiece c fbn off n1 p
        iappendFrom fuel c (off + n1) (p.drop n1)
      else throw (.assertion "fbn < MAXFILE")

/-- Append bytes to a file. -/
def iappend (s : State) (inum : Nat) (p : List UInt8) : Except Failure State := do
  let din ← rinode s.image inum
  let (off, c) ← iappendFrom p.length ⟨s.image, s.freeblock, din⟩ din.size.toNat p
  let image ← winode c.image inum { c.din with size := BitVec.ofNat 32 off }
  pure { s with image := image, freeblock := c.freeblock }

/-! ### The program -/

/-- What one call of `read` returns before the end of the file. -/
structure Chunk where
  bytes : List UInt8
  nonempty : bytes ≠ []
  length_le : bytes.length ≤ BSIZE

/-- An argument: a file name, and what calls of `read` return, or `none` if it cannot be opened. -/
structure InputFile where
  arg : List UInt8
  no_nul : (0 : UInt8) ∉ arg
  reads : Option (List Chunk)

/-- The bytes of `user/`. -/
def userDir : List UInt8 := [117, 115, 101, 114, 47]

/-- The argument without `user/`. -/
def shortname (arg : List UInt8) : List UInt8 :=
  if userDir.isPrefixOf arg then arg.drop userDir.length else arg

/-- The character `_`. -/
def underscore : UInt8 := 95

/-- Skip a leading `_`. -/
def skipUnderscore (name : List UInt8) : List UInt8 :=
  if name.head? = some underscore then name.tail else name

/-- The name that a file gets in the root directory. -/
def InputFile.name (file : InputFile) : List UInt8 := skipUnderscore (shortname file.arg)

/-- The bytes of a directory entry. -/
def dirent (inum : Nat) (name : List UInt8) : List UInt8 :=
  (List.range direntSize).map fun i =>
    UInt8.ofNat ((⟨inum, strncpy (cstr name)⟩ : Dirent).toBytes i)

/-- Append what the calls of `read` return. -/
def appendChunks (inum : Nat) : List Chunk → State → Except Failure State
  | [], s => pure s
  | chunk :: rest, s => do
      let s ← iappend s inum chunk.bytes
      appendChunks inum rest s

/-- Add one file to the image. -/
def addFile (s : State) (rootino : Nat) (file : InputFile) : Except Failure State :=
  if slash ∈ shortname file.arg then throw (.assertion "index(shortname, '/') == 0")
  else
    match file.reads with
    | none => throw (.openFile file.arg)
    | some chunks => do
        let (inum, s) ← ialloc s T_FILE
        let s ← iappend s rootino (dirent inum file.name)
        appendChunks inum chunks s

/-- Add the files one after the other. -/
def addFiles (rootino : Nat) : List InputFile → State → Except Failure State
  | [], s => pure s
  | file :: rest, s => do
      let s ← addFile s rootino file
      addFiles rootino rest s

/-- The image filled with zeros, with the super block. -/
def blankImage : Image :=
  wsect ((List.range FSSIZE).foldl (fun image i => wsect image i .zeros) ⟨fun _ => .zeros, 0⟩) 1
    (Buffer.writeFields .zeros sbFields)

/-- The root directory before the first file. -/
def makeRoot (s : State) : Except Failure (Nat × State) := do
  let (rootino, s) ← ialloc s T_DIR
  if rootino = ROOTINO then
    let s ← iappend s rootino (dirent rootino dot)
    let s ← iappend s rootino (dirent rootino dotdot)
    pure (rootino, s)
  else throw (.assertion "rootino == ROOTINO")

/-- The end of the program: round up the size of the root directory and write the free map. -/
def finish (s : State) (rootino : Nat) : Except Failure State := do
  let din ← rinode s.image rootino
  let off := (din.size.toNat / BSIZE + 1) * BSIZE
  let image ← winode s.image rootino { din with size := BitVec.ofNat 32 off }
  let image ← balloc image s.freeblock
  pure { s with image := image }

/-- The program. -/
def mkfs (files : List InputFile) : Except Failure State := do
  let (rootino, s) ← makeRoot ⟨blankImage, 1, nmeta⟩
  let s ← addFiles rootino files s
  finish s rootino

end Xv6.Mkfs
