import Xv6.Param
import Xv6.Bytes.Fields

/-!
# The on-disk format of `kernel/fs.h`

`struct superblock`, `struct dinode` and its place in an inode block, the free map and
`struct dirent`. `decode_encode_same` and `decode_encode_other` say that the dinodes of one block do
not disturb each other.
-/

namespace Xv6.Fs

open Bytes List BitVec

/-- The fields of `struct superblock` that `kernel/fs.c` reads. -/
structure Superblock where
  size : Nat
  nblocks : Nat
  ninodes : Nat
  inodestart : Nat
  bmapstart : Nat
  deriving DecidableEq

namespace Superblock

/-- Block containing inode `inum`. -/
def IBLOCK (sb : Superblock) (inum : Nat) : Nat := inum / IPB + sb.inodestart

/-- Block of the free map containing the bit for block `b`. -/
def BBLOCK (sb : Superblock) (b : Nat) : Nat := b / BPB + sb.bmapstart

/-- The first data block, behind the log, the inodes and the free map. -/
def datastart (sb : Superblock) : Nat := sb.size - sb.nblocks

end Superblock

/-! ### File types -/

/-- Directory. -/
def T_DIR : BitVec 16 := 1

/-- File. -/
def T_FILE : BitVec 16 := 2

/-- Device. -/
def T_DEVICE : BitVec 16 := 3

/-! ### Inodes -/

/-- `struct dinode`, and the copy of it in `struct inode`. -/
@[ext] structure Dinode where
  type : BitVec 16
  major : BitVec 16
  minor : BitVec 16
  nlink : BitVec 16
  size : BitVec 32
  addrs : Fin (NDIRECT + 1) → BitVec 32

namespace Dinode

/-- `sizeof(struct dinode)`. -/
def bytes : Nat := 64

/-- The dinode that `memset` leaves. -/
def zero : Dinode := ⟨0, 0, 0, 0, 0, fun _ => 0⟩

/-- Dinode number `k` of an inode block. -/
def decode (b : Block) (k : Nat) : Dinode where
  type := BitVec.ofNat 16 (b.readLE 2 (bytes * k))
  major := BitVec.ofNat 16 (b.readLE 2 (bytes * k + 2))
  minor := BitVec.ofNat 16 (b.readLE 2 (bytes * k + 4))
  nlink := BitVec.ofNat 16 (b.readLE 2 (bytes * k + 6))
  size := BitVec.ofNat 32 (b.readLE 4 (bytes * k + 8))
  addrs j := BitVec.ofNat 32 (b.readLE 4 (bytes * k + 12 + 4 * j))

/-- The members of dinode number `k` of an inode block. -/
def fields (d : Dinode) (k : Nat) : List Field :=
  ⟨2, bytes * k, d.type.toNat⟩ :: ⟨2, bytes * k + 2, d.major.toNat⟩ ::
  ⟨2, bytes * k + 4, d.minor.toNat⟩ :: ⟨2, bytes * k + 6, d.nlink.toNat⟩ ::
  ⟨4, bytes * k + 8, d.size.toNat⟩ ::
    (List.finRange (NDIRECT + 1)).map fun j => ⟨4, bytes * k + 12 + 4 * j.val, (d.addrs j).toNat⟩

/-- Store `d` as dinode number `k` of an inode block. -/
def encode (d : Dinode) (k : Nat) (b : Block) : Block := b.writeFields (d.fields k)

theorem fields_within (d : Dinode) (k : Nat) {f : Field} (hf : f ∈ d.fields k) :
    bytes * k ≤ f.off ∧ f.off + f.width ≤ bytes * k + bytes := by
  have hb : bytes = 64 := rfl
  simp only [fields, mem_cons, mem_map, mem_finRange, true_and] at hf
  rcases hf with rfl | rfl | rfl | rfl | rfl | ⟨j, rfl⟩ <;> dsimp only
  iterate 5 exact ⟨by omega, by omega⟩
  have hj : j.val < 13 := j.isLt
  exact ⟨by omega, by omega⟩

theorem fields_apart (d : Dinode) (k : Nat) : (d.fields k).Pairwise Field.Apart := by
  have haddrs : ((List.finRange (NDIRECT + 1)).map fun j : Fin (NDIRECT + 1) =>
      (⟨4, bytes * k + 12 + 4 * j, (d.addrs j).toNat⟩ : Field)).Pairwise Field.Apart := by
    refine List.Pairwise.map _ (fun i j hij => ?_) (pairwise_lt_finRange _)
    exact .inl (by dsimp only; omega)
  simp only [fields, pairwise_cons, mem_cons, mem_map, mem_finRange, true_and]
  refine ⟨?_, ?_, ?_, ?_, ?_, haddrs⟩
  · rintro f (rfl | rfl | rfl | rfl | ⟨j, rfl⟩) <;> exact .inl (by dsimp only; omega)
  · rintro f (rfl | rfl | rfl | ⟨j, rfl⟩) <;> exact .inl (by dsimp only; omega)
  · rintro f (rfl | rfl | ⟨j, rfl⟩) <;> exact .inl (by dsimp only; omega)
  · rintro f (rfl | ⟨j, rfl⟩) <;> exact .inl (by dsimp only; omega)
  · rintro f ⟨j, rfl⟩
    exact .inl (by dsimp only; omega)

variable {k : Nat}

theorem readLE_encode (d : Dinode) (b : Block) (hk : k < IPB) {f : Field} (hf : f ∈ d.fields k) :
    (d.encode k b).readLE f.width f.off = f.value % 256 ^ f.width := by
  have hwithin := d.fields_within k hf
  have hipb : IPB = 16 := rfl
  have hsize : BSIZE = 1024 := rfl
  unfold bytes at hwithin
  exact Buffer.readLE_writeFields_of_mem b (d.fields_apart k) hf (by omega)

theorem decode_encode_same (d : Dinode) (b : Block) (hk : k < IPB) :
    decode (d.encode k b) k = d := by
  have h16 : ∀ (v : BitVec 16) (off : Nat), (⟨2, off, v.toNat⟩ : Field) ∈ d.fields k →
      BitVec.ofNat 16 ((d.encode k b).readLE 2 off) = v := by
    intro v off hmem
    have hread := d.readLE_encode b hk hmem
    have hword : v.toNat % 256 ^ 2 = v.toNat := Nat.mod_eq_of_lt v.isLt
    rw [show (d.encode k b).readLE 2 off = v.toNat from hread.trans hword, ofNat_toNat, setWidth_eq]
  have h32 : ∀ (v : BitVec 32) (off : Nat), (⟨4, off, v.toNat⟩ : Field) ∈ d.fields k →
      BitVec.ofNat 32 ((d.encode k b).readLE 4 off) = v := by
    intro v off hmem
    have hread := d.readLE_encode b hk hmem
    have hword : v.toNat % 256 ^ 4 = v.toNat := Nat.mod_eq_of_lt v.isLt
    rw [show (d.encode k b).readLE 4 off = v.toNat from hread.trans hword, ofNat_toNat, setWidth_eq]
  ext1
  · exact h16 _ _ (by simp [fields])
  · exact h16 _ _ (by simp [fields])
  · exact h16 _ _ (by simp [fields])
  · exact h16 _ _ (by simp [fields])
  · exact h32 _ _ (by simp [fields])
  · funext j
    refine h32 _ _ ?_
    simp only [fields, mem_cons, mem_map, mem_finRange, true_and]
    exact .inr (.inr (.inr (.inr (.inr ⟨j, rfl⟩))))

theorem readLE_encode_other (d : Dinode) (b : Block) {width off : Nat}
    (h : off + width ≤ bytes * k ∨ bytes * k + bytes ≤ off) :
    (d.encode k b).readLE width off = b.readLE width off := by
  refine Buffer.readLE_writeFields_other b fun f hf => ?_
  have hwithin := d.fields_within k hf
  omega

theorem decode_encode_other (d : Dinode) {k l : Nat} (b : Block) (h : l ≠ k) :
    decode (d.encode k b) l = decode b l := by
  have hread : ∀ width i, i + width ≤ 64 →
      (d.encode k b).readLE width (bytes * l + i) = b.readLE width (bytes * l + i) := by
    intro width i hi
    exact d.readLE_encode_other b (by unfold bytes; omega)
  have haddr : ∀ j : Fin (NDIRECT + 1), 12 + 4 * j.val + 4 ≤ 64 := by
    intro j
    have hj : j.val < 13 := j.isLt
    omega
  have htype := hread 2 0 (by omega)
  simp only [decode, add_assoc, hread _ _ (haddr _)]
  rw [hread 2 2 (by omega), hread 2 4 (by omega), hread 2 6 (by omega), hread 4 8 (by omega)]
  rw [add_zero] at htype
  rw [htype]

end Dinode

/-! ### Directory entries -/

/-- `sizeof(struct dirent)`. -/
def direntSize : Nat := 16

/-- `struct dirent`. -/
structure Dirent where
  inum : Nat
  name : Nat → Nat

/-- A directory entry in the bytes that `readi` has copied. -/
def Dirent.ofBytes (bytes : Nat → Nat) : Dirent where
  inum := bytes 0 + 256 * bytes 1
  name i := bytes (2 + i)

/-- The bytes of a directory entry; `inum` is an `ushort`. -/
def Dirent.toBytes (de : Dirent) : Nat → Nat
  | 0 => de.inum % 256
  | 1 => de.inum / 256 % 256
  | i + 2 => de.name i

/-- `strncmp` on the bytes from index `i` on. -/
def strncmpFrom (p q : Nat → Nat) : (n i : Nat) → Int
  | 0, _ => 0
  | n + 1, i => if p i ≠ 0 ∧ p i = q i then strncmpFrom p q n (i + 1) else (p i : Int) - q i

/-- Compare two names. -/
def namecmp (s t : Nat → Nat) : Int := strncmpFrom s t DIRSIZ 0

/-- A string in memory: its bytes, then zero. -/
def cstr (s : List UInt8) (i : Nat) : Nat := (s.getD i 0).toNat

/-- The bytes that `strncpy` stores: those of `t` up to the first zero, then zeros. -/
def strncpy (t : Nat → Nat) (i : Nat) : Nat :=
  if (List.range (i + 1)).all fun j => t j ≠ 0 then t i else 0

end Xv6.Fs
