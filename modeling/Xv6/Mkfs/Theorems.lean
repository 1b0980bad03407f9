import Xv6.Mkfs.Root
import Xv6.Fs.Image

/-!
# When the images of `mkfs` are consistent

`mkfs` does not check how many inodes it allocates, it rounds the size of the root directory up by a
block that it has not allocated when the entries fill their blocks exactly, and it does not compare
the names of the files. `mkfs_consistent_iff` says that nothing else can go wrong.
-/

namespace Xv6.Mkfs

open Bytes Fs Ownership FileView Function List

/-! ### The end of the program -/

theorem bit_bitmap {used : Nat} (h : used ≤ BPB) (b : Nat) :
    (bitmap used).bit b = decide (b < used) := by
  induction used with
  | zero =>
    have hzero : (0 : Nat).testBit (b % 8) = false := Nat.zero_testBit _
    show (Buffer.byte _ (b / 8)).testBit (b % 8) = _
    rw [show bitmap 0 = Buffer.zeros from rfl, Buffer.byte_zeros, hzero]
    simp
  | succ used ih =>
    have hbpb : BPB = 8192 := rfl
    have hsize : BSIZE = 1024 := rfl
    have hstep : bitmap (used + 1) = (bitmap used).setBit used true := by
      rw [bitmap, range_succ, foldl_append]
      rfl
    rw [hstep, Buffer.bit_setBit _ _ (by omega), ih (by omega)]
    by_cases heq : b = used
    · simp [heq]
    · rw [if_neg heq]
      congr 1
      exact propext (by omega)

variable {s s' : State} {content : Nat → List UInt8}

/-- The size that the root directory gets at the end. -/
def roundUp (len : Nat) : Nat := (len / BSIZE + 1) * BSIZE

theorem finish_eq (h : Inv s content) (hroot : s.Used ROOTINO) :
    finish s ROOTINO = .ok { s with image := ⟨update (setInode s.image.sector ROOTINO
      { inodeAt s.image.sector ROOTINO with
        size := BitVec.ofNat 32 (roundUp (content ROOTINO).length) }) sb.bmapstart
        (bitmap s.freeblock), FSSIZE⟩ } := by
  have hin := h.lt_ninodes hroot
  have hsize : (inodeAt s.image.sector ROOTINO).size.toNat = (content ROOTINO).length :=
    h.size ROOTINO hroot
  have hused : s.freeblock < BSIZE * 8 := lt_of_le_of_lt h.high (by decide)
  simp only [finish, rinode_ok h.length hin, winode_ok h.length hin, bind, Except.bind, hsize,
    balloc, if_pos hused]
  rw [wsect_eq rfl (by decide)]
  rfl

/-- The files on the finished image. -/
structure Finished (s : State) (content : Nat → List UInt8) (disk : Nat → Block) : Prop where
  inv : Inv s content
  root : s.Used ROOTINO
  bits : disk sb.bmapstart = bitmap s.freeblock
  slot : ∀ i, s.Used i → (fileAt sb disk i).slot = (s.view i).slot
  byte : ∀ i, s.Used i → ∀ k, (fileAt sb disk i).byte k = (s.view i).byte k
  size : ∀ i, s.Used i → i ≠ ROOTINO → (fileAt sb disk i).size = (content i).length
  rootSize : (fileAt sb disk ROOTINO).size = roundUp (content ROOTINO).length

theorem roundUp_lt {len : Nat} (h : len ≤ MAXFILE * BSIZE) : roundUp len < 2 ^ 32 := by
  have hbound : len ≤ 274432 := h
  show (len / 1024 + 1) * 1024 < _
  omega

theorem finished (h : Inv s content) (hroot : s.Used ROOTINO)
    (hrun : finish s ROOTINO = .ok s') : Finished s content s'.image.sector := by
  obtain ⟨d, hd⟩ : ∃ d : Dinode, d = { inodeAt s.image.sector ROOTINO with
    size := BitVec.ofNat 32 (roundUp (content ROOTINO).length) } := ⟨_, rfl⟩
  have hsector : s'.image.sector =
      update (setInode s.image.sector ROOTINO d) sb.bmapstart (bitmap s.freeblock) := by
    rw [finish_eq h hroot, ← hd] at hrun
    rw [← Except.ok.inj hrun]
  have hbmap : ∀ i, i < NINODES → sb.IBLOCK i ≠ sb.bmapstart := fun i hi =>
    ne_of_lt (iblock_lt hi)
  have hinode : ∀ i, i < NINODES → inodeAt s'.image.sector i =
      inodeAt (setInode s.image.sector ROOTINO d) i := by
    intro i hi
    unfold inodeAt
    rw [hsector, update_of_ne (hbmap i hi)]
  have hself : inodeAt s'.image.sector ROOTINO = d := by
    rw [hinode _ (h.lt_ninodes hroot), inodeAt_setInode_self]
  have hother : ∀ i, s.Used i → i ≠ ROOTINO →
      inodeAt s'.image.sector i = inodeAt s.image.sector i := by
    intro i hi hne
    rw [hinode i (h.lt_ninodes hi), inodeAt_setInode_other hne]
  have haddrs : ∀ i, s.Used i →
      (fileAt sb s'.image.sector i).dinode.addrs = (s.view i).dinode.addrs := by
    intro i hi
    show (inodeAt s'.image.sector i).addrs = (inodeAt s.image.sector i).addrs
    rcases eq_or_ne i ROOTINO with rfl | hne
    · rw [hself, hd]
    · rw [hother i hi hne]
  have hdisk : ∀ i, s.Used i → ∀ b, (s.view i).Owns b →
      (fileAt sb s'.image.sector i).disk b = (s.view i).disk b := by
    intro i hi b hb
    have hlow := (h.owned i b hi hb).1
    have hmeta : nmeta = sb.bmapstart + 1 := rfl
    show s'.image.sector b = s.image.sector b
    rw [hsector, update_of_ne (by omega), setInode_of_ne (h.ne_iblock hi (h.lt_ninodes hroot) hb)]
  constructor
  · exact h
  · exact hroot
  · rw [hsector, update_self]
  · exact fun i hi => slot_congr (haddrs i hi) fun hne => hdisk i hi _ (.intro hne)
  · exact fun i hi k => byte_congr (haddrs i hi) (hdisk i hi) k
  · intro i hi hne
    show (inodeAt s'.image.sector i).size.toNat = _
    rw [hother i hi hne]
    exact h.size i hi
  · show (inodeAt s'.image.sector ROOTINO).size.toNat = _
    rw [hself, hd]
    exact Nat.mod_eq_of_lt (roundUp_lt (h.bounded ROOTINO))

/-! ### The parts of consistency -/

namespace Finished

variable {disk : Nat → Block}

section

variable (h : Finished s content disk)
include h

theorem owns {i : Nat} (hi : s.Used i) (b : Nat) :
    (fileAt sb disk i).Owns b ↔ (s.view i).Owns b := by
  rw [Owns, Owns, h.slot i hi]

theorem block_ne_zero {i : Nat} (hi : s.Used i) (bn : Nat) :
    (fileAt sb disk i).block bn ≠ 0 ↔ bn * BSIZE < (content i).length := by
  by_cases hbn : bn < MAXFILE
  · obtain ⟨t, hof⟩ := Slot.exists_ofBlock hbn
    rw [block_of_ofBlock hof, h.slot i hi, h.inv.slots i hi, (Slot.ofBlock_eq_some.mp hof).2]
  · have hnone : (fileAt sb disk i).block bn = 0 := by
      rw [block, Slot.ofBlock_none (by omega)]
      rfl
    have hle : MAXFILE * BSIZE ≤ bn * BSIZE := Nat.mul_le_mul_right _ (by omega)
    have hbound := h.inv.bounded i
    rw [hnone]
    exact ⟨fun hne => absurd rfl hne, fun hlt =>
      absurd (hlt.trans_le (hbound.trans hle)) (by omega)⟩

theorem data_block (i b : Nat) (hi : s.Used i)
    (hb : (fileAt sb disk i).Owns b) : sb.datastart ≤ b ∧ b < sb.size := by
  have howned := h.inv.owned i b hi ((h.owns hi b).mp hb)
  have hhigh := h.inv.high
  have hdata : sb.datastart = nmeta := rfl
  have hsize : sb.size = FSSIZE := rfl
  omega

theorem bitmap (b : Nat) (hb : b < sb.size) : (disk (sb.BBLOCK b)).bit (b % BPB) = true ↔
      b < sb.datastart ∨ ∃ i, s.Used i ∧ (fileAt sb disk i).Owns b := by
  have hsize : sb.size = 2000 := rfl
  have hblock : sb.BBLOCK b = sb.bmapstart := by
    show b / 8192 + 45 = 45
    omega
  have hbit : b % BPB = b := by
    show b % 8192 = b
    omega
  have hhigh : s.freeblock ≤ 2000 := h.inv.high
  rw [hblock, h.bits, hbit, bit_bitmap (by show s.freeblock ≤ 8192; omega), decide_eq_true_iff]
  have hlow := h.inv.low
  have hdata : sb.datastart = nmeta := rfl
  constructor
  · intro hlt
    by_cases hmeta : b < nmeta
    · exact .inl (by omega)
    · obtain ⟨i, hi, hown⟩ := h.inv.taken b (by omega) hlt
      exact .inr ⟨i, hi, (h.owns hi b).mpr hown⟩
  · rintro (hmeta | ⟨i, hi, hown⟩)
    · omega
    · exact (h.inv.owned i b hi ((h.owns hi b).mp hown)).2

theorem distinct (i j : Nat) (t u : Slot) (hi : s.Used i)
    (hj : s.Used j) (ht : (fileAt sb disk i).slot t ≠ 0)
    (htu : (fileAt sb disk i).slot t = (fileAt sb disk j).slot u) : i = j ∧ t = u := by
  rw [h.slot i hi] at ht htu
  rw [h.slot j hj] at htu
  exact h.inv.distinct i j t u hi hj ht htu

/-- The blocks below the sizes are there unless the root directory fills its blocks exactly. -/
theorem allocated_iff :
    (∀ i bn, s.Used i → bn * BSIZE < (fileAt sb disk i).size → (fileAt sb disk i).block bn ≠ 0) ↔
      (content ROOTINO).length % BSIZE ≠ 0 := by
  have hsize : BSIZE = 1024 := rfl
  constructor
  · intro hall hzero
    have hround : (content ROOTINO).length / BSIZE * BSIZE < (fileAt sb disk ROOTINO).size := by
      rw [h.rootSize, roundUp, hsize]
      omega
    have hlt := (h.block_ne_zero h.root _).mp (hall ROOTINO _ h.root hround)
    rw [hsize] at hlt hzero
    omega
  · intro hne i bn hi hlt
    rw [h.block_ne_zero hi]
    rcases eq_or_ne i ROOTINO with rfl | hroot
    · rw [h.rootSize, roundUp, hsize] at hlt
      rw [hsize] at hne ⊢
      omega
    · rwa [h.size i hi hroot] at hlt

end

end Finished

/-! ### Names in the root directory -/

section Names

variable {disk : Nat → Block} {files : List InputFile} {e : Nat × List UInt8}
  {entries : List (Nat × List UInt8)}

theorem entryAt_of_getElem? {F : FileView}
    (hbyte : ∀ k, F.byte k = ((directory entries).getD k 0).toNat) {k : Nat}
    (hk : entries[k]? = some e) :
    (F.entryAt k).inum = e.1 % 2 ^ 16 ∧ nameOf (F.entryAt k).name = nameOf (cstr e.2) := by
  have hdirent : direntSize = 16 := rfl
  have hread : ∀ i, i < direntSize → F.byte (direntSize * k + i) =
      (⟨e.1, strncpy (cstr e.2)⟩ : Dirent).toBytes i % 256 := by
    intro i hi
    rw [hbyte, getD_eq_getElem?_getD, getElem?_directory hi, hk, ← getD_dirent e.1 e.2 hi,
      getD_eq_getElem?_getD]
    rfl
  constructor
  · show F.byte (direntSize * k + 0) + 256 * F.byte (direntSize * k + 1) = _
    rw [hread 0 (by omega), hread 1 (by omega)]
    show e.1 % 256 % 256 + 256 * (e.1 / 256 % 256 % 256) = _
    omega
  · rw [← nameOf_strncpy (cstr e.2)]
    refine nameOf_congr fun i hi => ?_
    have hlt : 2 + i < direntSize := by
      have hdirsiz : DIRSIZ = 14 := rfl
      omega
    show F.byte (direntSize * k + (2 + i)) = _
    rw [hread _ hlt, add_comm 2 i]
    exact Nat.mod_eq_of_lt (strncpy_lt e.2 i)

theorem entryAt_of_le {F : FileView}
    (hbyte : ∀ k, F.byte k = ((directory entries).getD k 0).toNat) {k : Nat}
    (hk : entries.length ≤ k) : (F.entryAt k).inum = 0 := by
  have hzero : ∀ i, F.byte (direntSize * k + i) = 0 := by
    intro i
    have hle : direntSize * entries.length ≤ direntSize * k := Nat.mul_le_mul_left _ hk
    rw [hbyte, getD_eq_getElem?_getD, getElem?_eq_none (by rw [length_directory]; omega)]
    rfl
  show F.byte (direntSize * k + 0) + 256 * F.byte (direntSize * k + 1) = 0
  rw [hzero, hzero]

theorem length_rootEntries : (rootEntries files).length = files.length + 2 := by
  simp [rootEntries, length_entriesFrom]

theorem no_nul_drop {a : List UInt8} (h : (0 : UInt8) ∉ a) (n : Nat) : (0 : UInt8) ∉ a.drop n :=
  fun hmem => h (mem_of_mem_drop hmem)

theorem InputFile.no_nul_name (file : InputFile) : (0 : UInt8) ∉ file.name := by
  have hshort : (0 : UInt8) ∉ shortname file.arg := by
    unfold shortname
    split
    · exact no_nul_drop file.no_nul _
    · exact file.no_nul
  unfold InputFile.name skipUnderscore
  split
  · rw [← drop_one]
    exact no_nul_drop hshort 1
  · exact hshort

theorem no_nul_rootEntries (h : e ∈ rootEntries files) : (0 : UInt8) ∉ e.2 := by
  simp only [rootEntries, mem_cons] at h
  rcases h with rfl | rfl | hfile
  · decide
  · decide
  · have hmem : e.2 ∈ files.map InputFile.name := by
      rw [← map_snd_entriesFrom (ROOTINO + 1)]
      exact mem_map_of_mem hfile
    obtain ⟨file, _, hname⟩ := mem_map.mp hmem
    rw [← hname]
    exact file.no_nul_name

theorem inum_rootEntries (h : e ∈ rootEntries files) : 0 < e.1 ∧ e.1 < files.length + 2 := by
  have hroot : ROOTINO = 1 := rfl
  simp only [rootEntries, mem_cons] at h
  rcases h with rfl | rfl | hfile
  · dsimp only
    omega
  · dsimp only
    omega
  · have := fst_entriesFrom hfile
    omega

/-- The names as the kernel compares them. -/
def rootNames (files : List InputFile) : List (List UInt8) :=
  (dot :: dotdot :: files.map InputFile.name).map (List.take DIRSIZ)

theorem rootNames_eq : rootNames files = (rootEntries files).map fun e => e.2.take DIRSIZ := by
  have hfun : (fun e : Nat × List UInt8 => e.2.take DIRSIZ) = List.take DIRSIZ ∘ Prod.snd := rfl
  rw [hfun, ← map_map]
  simp [rootNames, rootEntries, map_snd_entriesFrom]

/-- The names of the root directory are different exactly when those of the files are. -/
theorem Finished.names_iff (h : Finished s content disk)
    (hcontent : content ROOTINO = directory (rootEntries files))
    (hcount : files.length + 2 ≤ NINODES) :
    (∀ k l, (fileAt sb disk ROOTINO).IsLive k → (fileAt sb disk ROOTINO).IsLive l →
      namecmp ((fileAt sb disk ROOTINO).entryAt k).name
        ((fileAt sb disk ROOTINO).entryAt l).name = 0 → k = l) ↔ (rootNames files).Nodup := by
  have hbyte : ∀ k, (fileAt sb disk ROOTINO).byte k =
      ((directory (rootEntries files)).getD k 0).toNat := by
    intro k
    rw [h.byte _ h.root, h.inv.byte _ h.root, hcontent]
  have hninodes : NINODES = 200 := rfl
  have hlive : ∀ k, (fileAt sb disk ROOTINO).IsLive k ↔ k < (rootEntries files).length := by
    intro k
    constructor
    · rintro ⟨_, hinum⟩
      by_contra hge
      exact hinum (entryAt_of_le hbyte (by omega))
    · intro hk
      have hget := getElem?_eq_getElem hk
      have hinum := inum_rootEntries (getElem_mem hk)
      constructor
      · have hle : direntSize * (k + 1) ≤ direntSize * (rootEntries files).length :=
          Nat.mul_le_mul_left _ hk
        rw [h.rootSize, hcontent, length_directory, roundUp, ← Nat.mul_succ]
        refine hle.trans ?_
        show _ ≤ (_ / 1024 + 1) * 1024
        omega
      · rw [(entryAt_of_getElem? hbyte hget).1, Nat.mod_eq_of_lt (by omega)]
        omega
  have hname : ∀ k (hk : k < (rootEntries files).length),
      nameOf ((fileAt sb disk ROOTINO).entryAt k).name =
        (((rootEntries files)[k]).2.take DIRSIZ).map UInt8.toNat := by
    intro k hk
    rw [(entryAt_of_getElem? hbyte (getElem?_eq_getElem hk)).2,
      nameOf_cstr (no_nul_rootEntries (getElem_mem hk))]
  rw [rootNames_eq, nodup_iff_injective_getElem]
  constructor
  · intro hnames a b hab
    have hk : a.val < (rootEntries files).length := by simpa using a.isLt
    have hl : b.val < (rootEntries files).length := by simpa using b.isLt
    refine Fin.ext (hnames a b ((hlive a).mpr hk) ((hlive b).mpr hl) ?_)
    rw [namecmp_eq_zero, hname a hk, hname b hl]
    simp only [getElem_map] at hab
    rw [hab]
  · intro hinj k l hk hl hcmp
    rw [hlive] at hk hl
    rw [namecmp_eq_zero, hname k hk, hname l hl] at hcmp
    have hsame := map_injective_iff.mpr (fun a b hab => UInt8.toNat_inj.mp hab) hcmp
    have hlen : (List.map (fun e => List.take DIRSIZ e.2) (rootEntries files)).length =
        (rootEntries files).length := length_map _
    have heq := @hinj ⟨k, by omega⟩ ⟨l, by omega⟩ (by simpa using hsame)
    exact congrArg Fin.val heq

end Names

/-! ### The whole program -/

theorem finish_freeinode {rootino : Nat} (h : finish s rootino = .ok s') :
    s'.freeinode = s.freeinode := by
  obtain ⟨din, _, hrest⟩ := bind_eq_ok.mp h
  obtain ⟨image, _, hrest⟩ := bind_eq_ok.mp hrest
  obtain ⟨image', _, hpure⟩ := bind_eq_ok.mp hrest
  rw [← Except.ok.inj hpure]

/-- The state when the root directory has its first two entries. -/
theorem exists_rooted : ∃ s, (∀ files, mkfs files =
    addFiles ROOTINO files s >>= (finish · ROOTINO)) ∧
    s.freeinode = ROOTINO + 1 ∧ Inv s (update (fun _ => []) ROOTINO
      (directory [(ROOTINO, dot), (ROOTINO, dotdot)])) := by
  obtain ⟨s, hroot, hfree, hinv⟩ := makeRoot_ok inv_blank rfl
  refine ⟨s, fun files => ?_, hfree, hinv⟩
  rw [mkfs, hroot]
  rfl

variable {files : List InputFile}

section

variable (h : mkfs files = .ok s')
include h

theorem mkfs_freeinode : s'.freeinode = files.length + 2 := by
  obtain ⟨s₀, hmkfs, hfree, _⟩ := exists_rooted
  rw [hmkfs] at h
  obtain ⟨s, hadd, hfinish⟩ := bind_eq_ok.mp h
  have hroot : ROOTINO = 1 := rfl
  rw [finish_freeinode hfinish, addFiles_freeinode hadd, hfree]
  omega

theorem mkfs_finished (hcount : files.length + 2 ≤ NINODES) :
    ∃ s content, Finished s content s'.image.sector ∧ s'.freeinode = s.freeinode ∧
      content ROOTINO = directory (rootEntries files) := by
  obtain ⟨s₀, hmkfs, hfree, hinv⟩ := exists_rooted
  rw [hmkfs] at h
  obtain ⟨s, hadd, hfinish⟩ := bind_eq_ok.mp h
  have hroot : ROOTINO = 1 := rfl
  have hroot₀ : s₀.Used ROOTINO := ⟨le_refl _, by omega⟩
  obtain ⟨content, hinv', hcontent⟩ := addFiles_ok hinv hroot₀ (by omega) hadd
  have hroot' : s.Used ROOTINO := ⟨le_refl _, by rw [addFiles_freeinode hadd]; omega⟩
  refine ⟨s, content, finished hinv' hroot' hfinish, finish_freeinode hfinish, ?_⟩
  rw [hcontent, hfree, update_self, ← directory_append]
  rfl

/-- A root directory that fills its blocks exactly gets a size for which it has too few blocks. -/
theorem not_consistent_of_full
    (hcount : files.length + 2 ≤ NINODES) (hfull : (files.length + 2) % (BSIZE / direntSize) = 0) :
    ¬ Consistent sb s'.image.sector s'.Used := by
  obtain ⟨s, content, hfin, hfree, hcontent⟩ := mkfs_finished h hcount
  have hused : s'.Used = s.Used := by
    unfold State.Used
    rw [hfree]
  rw [hused]
  intro hcons
  refine hfin.allocated_iff.mp hcons.allocated ?_
  rw [hcontent, length_directory, length_rootEntries]
  have hmod : (files.length + 2) % 64 = 0 := hfull
  show 16 * (files.length + 2) % 1024 = 0
  omega

end

/-- If `mkfs` does not end with an error, its image is consistent exactly when there are at most 198
files, the entries of the root directory do not fill their blocks exactly, and no two names are
equal up to `DIRSIZ` bytes. -/
theorem mkfs_consistent_iff {files : List InputFile} {s : State} (h : mkfs files = .ok s) :
    Consistent sb s.image.sector s.Used ↔
      files.length + 1 < NINODES ∧ (files.length + 2) % (BSIZE / direntSize) ≠ 0 ∧
        (rootNames files).Nodup := by
  have hninodes : sb.ninodes = NINODES := rfl
  have hfree := mkfs_freeinode h
  constructor
  · intro hcons
    have hroot : ROOTINO = 1 := rfl
    have hlast : s.Used (files.length + 1) := ⟨by omega, by omega⟩
    have hlt := hcons.inode_lt _ hlast
    refine ⟨by omega, fun hfull => not_consistent_of_full h (by omega) hfull hcons, ?_⟩
    obtain ⟨s₀, content, hfin, _, hcontent⟩ := mkfs_finished h (by omega)
    exact (hfin.names_iff hcontent (by omega)).mp hcons.names
  · rintro ⟨hcount, hfull, hnames⟩
    obtain ⟨s₀, content, hfin, hfree₀, hcontent⟩ := mkfs_finished h (by omega)
    have hused : s.Used = s₀.Used := by
      unfold State.Used
      rw [hfree₀]
    rw [hused]
    refine ⟨?_, hfin.data_block, hfin.bitmap, hfin.distinct, hfin.allocated_iff.mpr ?_,
      (hfin.names_iff hcontent (by omega)).mpr hnames⟩
    · intro i hi
      exact hfin.inv.lt_ninodes hi
    · rw [hcontent, length_directory, length_rootEntries]
      have hmod : (files.length + 2) % 64 ≠ 0 := hfull
      show 16 * (files.length + 2) % 1024 ≠ 0
      omega

/-- Small files do not end the program as long as there are inodes for them. -/
theorem mkfs_small_ok (files : List InputFile) (hcount : files.length + 2 ≤ NINODES)
    (hfiles : ∀ file ∈ files, file.Small) : ∃ s, mkfs files = .ok s := by
  obtain ⟨s₀, hmkfs, hfree, hinv⟩ := exists_rooted
  have hroot : ROOTINO = 1 := rfl
  have hroot₀ : s₀.Used ROOTINO := ⟨le_refl _, by omega⟩
  obtain ⟨s, hadd⟩ := addFiles_small files hinv hroot₀ (by omega)
    (fun j hj => by rw [update_of_ne hj]; exact Nat.zero_le _)
    (by rw [update_self, length_directory, hfree]; decide) hfiles
  obtain ⟨content, hinv', _⟩ := addFiles_ok hinv hroot₀ (by omega) hadd
  have hroot' : s.Used ROOTINO := ⟨le_refl _, by rw [addFiles_freeinode hadd]; omega⟩
  exact ⟨_, (hmkfs files).trans (bind_eq_ok.mpr ⟨s, hadd, finish_eq hinv' hroot'⟩)⟩

/-- An empty file whose name is two letters. -/
def emptyFile (i : Fin 62) : InputFile where
  arg := [UInt8.ofNat (97 + i / 26), UInt8.ofNat (97 + i % 26)]
  no_nul := by
    revert i
    decide
  reads := some []

theorem emptyFile_plain (i : Fin 62) : slash ∉ shortname (emptyFile i).arg := by
  revert i
  decide

/-- With 62 files with different names the image has a root directory with a missing block. -/
theorem mkfs_inconsistent : ∃ s, mkfs ((List.finRange 62).map emptyFile) = .ok s ∧
    (rootNames ((List.finRange 62).map emptyFile)).Nodup ∧
    ¬ Consistent sb s.image.sector s.Used := by
  have hlen : ((List.finRange 62).map emptyFile).length = 62 := by simp
  obtain ⟨s, hs⟩ := mkfs_small_ok ((List.finRange 62).map emptyFile) (by rw [hlen]; decide) (by
      intro file hfile
      obtain ⟨i, _, rfl⟩ := mem_map.mp hfile
      exact ⟨emptyFile_plain i, [], rfl, Nat.zero_le _⟩)
  exact ⟨s, hs, by decide +kernel, not_consistent_of_full hs (by rw [hlen]; decide)
    (by rw [hlen]; decide)⟩

/-- The image with a file of two bytes is consistent. -/
theorem mkfs_consistent_iff_oneFile :
    ∃ s, mkfs [{ emptyFile 0 with reads := some [⟨[104, 105], by decide, by decide⟩] }] = .ok s ∧
      Consistent sb s.image.sector s.Used := by
  obtain ⟨s, hs⟩ := mkfs_small_ok [{ emptyFile 0 with
      reads := some [⟨[104, 105], by decide, by decide⟩] }] (by decide) (by
    intro file hfile
    obtain rfl := mem_singleton.mp hfile
    exact ⟨emptyFile_plain 0, _, rfl, by decide⟩)
  exact ⟨s, hs, (mkfs_consistent_iff hs).mpr ⟨by decide, by decide, by decide⟩⟩

end Xv6.Mkfs
