import Xv6.Fs.Blocks

/-!
# File system images

What it means for an image to be consistent: `Consistent sb disk used` is about the image with
super block `sb` in which the inodes that satisfy `used` are in use.
-/

namespace Xv6.Fs

open Bytes

/-- The super block in a block. -/
def Superblock.decode (b : Block) : Superblock :=
  ⟨b.readLE 4 4, b.readLE 4 8, b.readLE 4 12, b.readLE 4 24, b.readLE 4 28⟩

/-- The file with inode number `i`. -/
def fileAt (sb : Superblock) (disk : Nat → Block) (i : Nat) : FileView :=
  ⟨Dinode.decode (disk (sb.IBLOCK i)) (i % IPB), disk⟩

namespace FileView

/-- The size of the file. -/
def size (F : FileView) : Nat := F.dinode.size.toNat

/-- Entry `k` of a directory. -/
def entryAt (F : FileView) (k : Nat) : Dirent := .ofBytes fun i => F.byte (direntSize * k + i)

/-- Entry `k` of a directory is below the end of the directory and in use. -/
def IsLive (F : FileView) (k : Nat) : Prop :=
  direntSize * k + direntSize ≤ F.size ∧ (F.entryAt k).inum ≠ 0

end FileView

/-- The image is a file system that the kernel can use. -/
structure Consistent (sb : Superblock) (disk : Nat → Block) (used : Nat → Prop) : Prop where
  inode_lt : ∀ i, used i → i < sb.ninodes
  data_block : ∀ i b, used i → (fileAt sb disk i).Owns b → sb.datastart ≤ b ∧ b < sb.size
  bitmap : ∀ b, b < sb.size → ((disk (sb.BBLOCK b)).bit (b % BPB) = true ↔
    b < sb.datastart ∨ ∃ i, used i ∧ (fileAt sb disk i).Owns b)
  distinct : ∀ i j t u, used i → used j → (fileAt sb disk i).slot t ≠ 0 →
    (fileAt sb disk i).slot t = (fileAt sb disk j).slot u → i = j ∧ t = u
  allocated : ∀ i bn, used i → bn * BSIZE < (fileAt sb disk i).size →
    (fileAt sb disk i).block bn ≠ 0
  names : ∀ k l, (fileAt sb disk ROOTINO).IsLive k → (fileAt sb disk ROOTINO).IsLive l →
    namecmp ((fileAt sb disk ROOTINO).entryAt k).name
      ((fileAt sb disk ROOTINO).entryAt l).name = 0 → k = l

end Xv6.Fs
