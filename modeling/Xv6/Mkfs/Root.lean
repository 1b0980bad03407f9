import Mathlib.Algebra.Order.BigOperators.Group.Finset
import Xv6.Mkfs.Invariant
import Xv6.Fs.Names

/-!
# The run of `mkfs`

The image before the first file, the entries that `mkfs` appends to the root directory, and what is
on the image when all files have been added.
-/

namespace Xv6.Mkfs

open Bytes Fs Ownership FileView Function List

/-! ### The blank image -/

theorem zeroed_eq {n : Nat} (h : n ≤ FSSIZE) :
    (List.range n).foldl (fun image i => wsect image i .zeros) ⟨fun _ => .zeros, 0⟩ =
      ⟨fun _ => .zeros, n⟩ := by
  induction n with
  | zero => rfl
  | succ n ih =>
    have hsize : FSSIZE = 2000 := rfl
    rw [range_succ, foldl_append, ih (by omega)]
    show wsect _ n _ = _
    rw [wsect, seek_of_lt (by omega)]
    dsimp only
    rw [update_eq_self_iff.mpr rfl, Nat.max_eq_right (by omega)]

theorem blankImage_eq : blankImage =
    ⟨update (fun _ => .zeros) 1 (Buffer.writeFields .zeros sbFields), FSSIZE⟩ := by
  have hsize : FSSIZE = 2000 := rfl
  rw [blankImage, zeroed_eq le_rfl, wsect_eq rfl (by omega)]

theorem inv_blank : Inv ⟨blankImage, 1, nmeta⟩ fun _ => [] := by
  have hnone : ∀ i, ¬ State.Used ⟨blankImage, 1, nmeta⟩ i := by
    intro i hi
    have hlow : 1 ≤ i := hi.1
    have hhigh : i < 1 := hi.2
    omega
  rw [blankImage_eq] at hnone ⊢
  constructor
  · rfl
  · rfl
  · rfl
  · show 1 ≤ 200
    omega
  · rfl
  · show 46 ≤ 2000
    omega
  · intro b hb
    have hlow : 46 ≤ b := hb
    have hne : b ≠ 1 := by omega
    dsimp only
    rw [update_of_ne hne]
  · exact fun _ _ => rfl
  · exact fun _ => Nat.zero_le _
  · exact fun i hi => absurd hi (hnone i)
  · exact fun i hi => absurd hi (hnone i)
  · exact fun i hi => absurd hi (hnone i)
  · exact fun i hi => absurd hi (hnone i)
  · exact fun i _ _ _ hi => absurd hi (hnone i)
  · exact fun i _ hi => absurd hi (hnone i)
  · intro b hlow hhigh
    exact absurd hlow (not_le.mpr hhigh)
  · rfl

/-! ### Directory entries -/

theorem length_dirent (inum : Nat) (name : List UInt8) :
    (dirent inum name).length = direntSize := by
  simp [dirent]

variable {i : Nat}

theorem getD_dirent (inum : Nat) (name : List UInt8) (h : i < direntSize) :
    ((dirent inum name).getD i 0).toNat =
      (⟨inum, strncpy (cstr name)⟩ : Dirent).toBytes i % 256 := by
  rw [dirent, getD_eq_getElem?_getD, getElem?_map, getElem?_range h]
  simp

theorem strncpy_lt (name : List UInt8) (i : Nat) : strncpy (cstr name) i < 256 := by
  unfold strncpy
  split
  · exact UInt8.toNat_lt _
  · omega

/-- The bytes of a directory with these entries. -/
def directory (entries : List (Nat × List UInt8)) : List UInt8 :=
  (entries.map fun e => dirent e.1 e.2).flatten

theorem directory_append (a b : List (Nat × List UInt8)) :
    directory (a ++ b) = directory a ++ directory b := by
  simp [directory]

theorem length_directory (entries : List (Nat × List UInt8)) :
    (directory entries).length = direntSize * entries.length := by
  induction entries with
  | nil => rfl
  | cons e rest ih =>
    have hcons : directory (e :: rest) = dirent e.1 e.2 ++ directory rest := rfl
    rw [hcons, length_append, length_dirent, ih, length_cons]
    ring

theorem getElem?_directory {entries : List (Nat × List UInt8)} {k i : Nat} (hi : i < direntSize) :
    (directory entries)[direntSize * k + i]? = entries[k]?.bind fun e => (dirent e.1 e.2)[i]? := by
  induction entries generalizing k with
  | nil => simp [directory]
  | cons e rest ih =>
    have hlen := length_dirent e.1 e.2
    have hcons : directory (e :: rest) = dirent e.1 e.2 ++ directory rest := rfl
    rw [hcons]
    cases k with
    | zero =>
      rw [mul_zero, zero_add, getElem?_append_left (by omega)]
      rfl
    | succ k =>
      rw [getElem?_append_right (by rw [hlen, Nat.mul_succ]; omega), hlen,
        show direntSize * (k + 1) + i - direntSize = direntSize * k + i by
          rw [Nat.mul_succ]; omega, ih]
      rfl

/-- The entries of the files, the first of which gets inode number `inum`. -/
def entriesFrom : (inum : Nat) → List InputFile → List (Nat × List UInt8)
  | _, [] => []
  | inum, file :: rest => (inum, file.name) :: entriesFrom (inum + 1) rest

/-- The entries of the root directory. -/
def rootEntries (files : List InputFile) : List (Nat × List UInt8) :=
  (ROOTINO, dot) :: (ROOTINO, dotdot) :: entriesFrom (ROOTINO + 1) files

theorem length_entriesFrom (inum : Nat) (files : List InputFile) :
    (entriesFrom inum files).length = files.length := by
  induction files generalizing inum with
  | nil => rfl
  | cons file rest ih => simp [entriesFrom, ih]

theorem map_snd_entriesFrom (inum : Nat) (files : List InputFile) :
    (entriesFrom inum files).map Prod.snd = files.map InputFile.name := by
  induction files generalizing inum with
  | nil => rfl
  | cons file rest ih => simp [entriesFrom, ih]

variable {files : List InputFile}

theorem fst_entriesFrom {inum : Nat} {e : Nat × List UInt8}
    (h : e ∈ entriesFrom inum files) : inum ≤ e.1 ∧ e.1 < inum + files.length := by
  induction files generalizing inum with
  | nil => simp [entriesFrom] at h
  | cons file rest ih =>
    rw [length_cons]
    rcases mem_cons.mp h with rfl | hrest
    · dsimp only
      omega
    · have := ih hrest
      omega

/-! ### Adding files -/

variable {s s' : State} {content : Nat → List UInt8} {p : List UInt8}

theorem iappend_freeinode (h : iappend s i p = .ok s') : s'.freeinode = s.freeinode := by
  simp only [iappend, bind, Except.bind] at h
  split at h
  · cases h
  · split at h
    · cases h
    · split at h
      · cases h
      · cases h
        rfl

/-- What one call of `iappend` that does not end the program has done. -/
theorem iappend_ok (h : Inv s content) (hi : s.Used i)
    (hrun : iappend s i p = .ok s') : Inv s' (update content i (content i ++ p)) := by
  rcases iappend_spec h hi p with ⟨s₁, hok, _, hinv⟩ | ⟨⟨e, herr⟩, _⟩
  · rw [hok] at hrun
    cases hrun
    exact hinv
  · rw [herr] at hrun
    cases hrun

theorem bind_eq_ok {α β : Type} {x : Except Failure α} {f : α → Except Failure β} {b : β} :
    x >>= f = .ok b ↔ ∃ a, x = .ok a ∧ f a = .ok b := by
  cases x with
  | error e => simp [bind, Except.bind]
  | ok a => simp [bind, Except.bind]

variable {chunks : List Chunk}

theorem appendChunks_freeinode
    (h : appendChunks i chunks s = .ok s') : s'.freeinode = s.freeinode := by
  induction chunks generalizing s with
  | nil =>
    cases h
    rfl
  | cons chunk rest ih =>
    obtain ⟨s₁, hone, hrest⟩ := bind_eq_ok.mp h
    rw [ih hrest, iappend_freeinode hone]

theorem appendChunks_ok (h : Inv s content) (hi : s.Used i)
    (hrun : appendChunks i chunks s = .ok s') :
    ∃ content', Inv s' content' ∧ ∀ j, j ≠ i → content' j = content j := by
  induction chunks generalizing s content with
  | nil =>
    cases hrun
    exact ⟨content, h, fun _ _ => rfl⟩
  | cons chunk rest ih =>
    obtain ⟨s₁, hone, hrest⟩ := bind_eq_ok.mp hrun
    have hi₁ : s₁.Used i := ⟨hi.1, by rw [iappend_freeinode hone]; exact hi.2⟩
    obtain ⟨content', hinv, hsame⟩ := ih (iappend_ok h hi hone) hi₁ hrest
    exact ⟨content', hinv, fun j hj => by rw [hsame j hj, update_of_ne hj]⟩

variable {file : InputFile}

theorem addFile_eq_ok {rootino : Nat} (h : addFile s rootino file = .ok s') :
    ∃ chunks s₁ s₂, file.reads = some chunks ∧ ialloc s T_FILE = .ok (s.freeinode, s₁) ∧
      iappend s₁ rootino (dirent s.freeinode file.name) = .ok s₂ ∧
      appendChunks s.freeinode chunks s₂ = .ok s' := by
  unfold addFile at h
  split at h
  · simp [throw, throwThe, MonadExceptOf.throw] at h
  · split at h
    · simp [throw, throwThe, MonadExceptOf.throw] at h
    · next chunks hreads =>
      obtain ⟨⟨inum, s₁⟩, halloc, hrest⟩ := bind_eq_ok.mp h
      obtain ⟨s₂, hentry, hchunks⟩ := bind_eq_ok.mp hrest
      have hinum : inum = s.freeinode := by
        obtain ⟨image, _, hpure⟩ := bind_eq_ok.mp halloc
        exact (congrArg Prod.fst (Except.ok.inj hpure)).symm
      subst hinum
      exact ⟨chunks, s₁, s₂, hreads, halloc, hentry, hchunks⟩

theorem ialloc_freeinode {type : BitVec 16} (h : ialloc s type = .ok (i, s')) :
    s'.freeinode = s.freeinode + 1 := by
  obtain ⟨image, _, hpure⟩ := bind_eq_ok.mp h
  have heq := congrArg Prod.snd (Except.ok.inj hpure)
  dsimp only at heq
  rw [← heq]

theorem addFiles_freeinode {rootino : Nat}
    (h : addFiles rootino files s = .ok s') : s'.freeinode = s.freeinode + files.length := by
  induction files generalizing s with
  | nil =>
    cases h
    rfl
  | cons file rest ih =>
    obtain ⟨s₁, hone, hrest⟩ := bind_eq_ok.mp h
    obtain ⟨chunks, s₂, s₃, _, halloc, hentry, hchunks⟩ := addFile_eq_ok hone
    rw [ih hrest, appendChunks_freeinode hchunks, iappend_freeinode hentry,
      ialloc_freeinode halloc, length_cons]
    omega

section

variable (h : Inv s content) (hroot : s.Used ROOTINO)
  (hsmall : ∀ j, j ≠ ROOTINO → (content j).length ≤ BSIZE)
include h hroot

theorem addFile_ok (hroom : s.freeinode < NINODES) (hrun : addFile s ROOTINO file = .ok s') :
    ∃ content', Inv s' content' ∧
      content' ROOTINO = content ROOTINO ++ dirent s.freeinode file.name := by
  obtain ⟨chunks, s₁, s₂, _, halloc, hentry, hchunks⟩ := addFile_eq_ok hrun
  have hfree := ialloc_freeinode halloc
  have hinv₁ : Inv s₁ content := by
    obtain ⟨s₁', halloc', _, hinv⟩ := ialloc_spec h hroom T_FILE (by decide)
    rw [halloc] at halloc'
    obtain rfl := congrArg Prod.snd (Except.ok.inj halloc')
    exact hinv
  have hroot₁ : s₁.Used ROOTINO := ⟨hroot.1, by have := hroot.2; omega⟩
  have hinv₂ := iappend_ok hinv₁ hroot₁ hentry
  have hnew : s₂.Used s.freeinode := ⟨h.first, by rw [iappend_freeinode hentry]; omega⟩
  obtain ⟨content', hinv', hsame⟩ := appendChunks_ok hinv₂ hnew hchunks
  have hne : ROOTINO ≠ s.freeinode := ne_of_lt hroot.2
  refine ⟨content', hinv', ?_⟩
  rw [hsame ROOTINO hne, update_self]

/-- Adding the files appends their entries to the root directory. -/
theorem addFiles_ok (hroom : s.freeinode + files.length ≤ NINODES)
    (hrun : addFiles ROOTINO files s = .ok s') :
    ∃ content', Inv s' content' ∧
      content' ROOTINO = content ROOTINO ++ directory (entriesFrom s.freeinode files) := by
  induction files generalizing s content with
  | nil =>
    cases hrun
    exact ⟨content, h, by simp [entriesFrom, directory]⟩
  | cons file rest ih =>
    obtain ⟨s₁, hone, hrest⟩ := bind_eq_ok.mp hrun
    rw [length_cons] at hroom
    obtain ⟨content₁, hinv₁, hcontent₁⟩ := addFile_ok h hroot (by omega) hone
    have hfree : s₁.freeinode = s.freeinode + 1 := by
      obtain ⟨chunks, s₂, s₃, _, halloc, hentry, hchunks⟩ := addFile_eq_ok hone
      rw [appendChunks_freeinode hchunks, iappend_freeinode hentry, ialloc_freeinode halloc]
    have hroot₁ : s₁.Used ROOTINO := ⟨hroot.1, by have := hroot.2; omega⟩
    obtain ⟨content', hinv', hcontent'⟩ := ih hinv₁ hroot₁ (by omega) hrest
    refine ⟨content', hinv', ?_⟩
    rw [hcontent', hcontent₁, hfree, append_assoc]
    rfl

/-! ### Runs that do not end early -/

include hsmall

/-- While the files have a block at most, there is room for one more file of the largest size. -/
theorem iappend_small (hi : s.Used i) (hlen : (content i).length + p.length ≤ MAXFILE * BSIZE) :
    ∃ s', iappend s i p = .ok s' ∧ s'.freeinode = s.freeinode ∧
      Inv s' (update content i (content i ++ p)) := by
  rcases iappend_spec h hi p with hok | ⟨_, hmax | hfull⟩
  · exact hok
  · omega
  · have hlarge : blocksFor (MAXFILE * BSIZE) = 269 := by decide
    have hroom : blocksFor (content ROOTINO).length ≤ 269 := hlarge ▸ blocksFor_mono (h.bounded _)
    have hothers : ∑ j ∈ (Finset.range s.freeinode).erase ROOTINO, blocksFor (content j).length ≤
        s.freeinode := by
      refine (Finset.sum_le_card_nsmul _ _ 1 fun j hj => ?_).trans ?_
      · exact blocksFor_mono (hsmall j (Finset.ne_of_mem_erase hj))
      · rw [nsmul_one, Nat.cast_id]
        exact Finset.card_erase_le.trans (Finset.card_range _).le
    have hcount := h.count
    rw [← Finset.add_sum_erase _ _ (Finset.mem_range.mpr hroot.2)] at hcount
    have hle := blocksFor_mono hlen
    have hinodes := h.inodes
    have hmax : NINODES = 200 := rfl
    have hfs : FSSIZE = 2000 := rfl
    have hmeta : nmeta = 46 := rfl
    omega

/-- What `read` returns is appended to a file that stays within a block. -/
theorem appendChunks_small {chunks : List Chunk} (hi : s.Used i)
    (hlen : (content i ++ chunks.flatMap Chunk.bytes).length ≤ BSIZE) :
    ∃ s', appendChunks i chunks s = .ok s' ∧ s'.freeinode = s.freeinode ∧
      Inv s' (update content i (content i ++ chunks.flatMap Chunk.bytes)) := by
  induction chunks generalizing s content with
  | nil => exact ⟨s, rfl, rfl, by simpa using h⟩
  | cons chunk rest ih =>
    rw [flatMap_cons, ← append_assoc] at hlen ⊢
    have hone : (content i ++ chunk.bytes).length ≤ BSIZE := by
      rw [length_append] at hlen
      omega
    obtain ⟨s₁, happend, hfree₁, hinv₁⟩ := iappend_small h hroot hsmall hi
      (by rw [← length_append]; exact hone.trans (by decide))
    have hused : ∀ {j}, s.Used j → s₁.Used j := fun hj => ⟨hj.1, by rw [hfree₁]; exact hj.2⟩
    have hsmall₁ : ∀ j, j ≠ ROOTINO →
        (update content i (content i ++ chunk.bytes) j).length ≤ BSIZE := by
      intro j hj
      rcases eq_or_ne j i with rfl | hji
      · rwa [update_self]
      · rw [update_of_ne hji]
        exact hsmall j hj
    obtain ⟨s', hrest, hfree, hinv⟩ := ih hinv₁ (hused hroot) hsmall₁ (hused hi)
      (by rwa [update_self])
    refine ⟨s', bind_eq_ok.mpr ⟨s₁, happend, hrest⟩, by omega, ?_⟩
    rwa [update_idem, update_self] at hinv

/-- A file of at most a block is added, and so is its entry. -/
theorem addFile_small {chunks : List Chunk} (hroom : s.freeinode < NINODES)
    (hlen : (content ROOTINO).length + direntSize ≤ MAXFILE * BSIZE)
    (hslash : slash ∉ shortname file.arg) (hreads : file.reads = some chunks)
    (hchunks : (chunks.flatMap Chunk.bytes).length ≤ BSIZE) :
    ∃ s' content', addFile s ROOTINO file = .ok s' ∧ s'.freeinode = s.freeinode + 1 ∧
      Inv s' content' ∧ (∀ j, j ≠ ROOTINO → (content' j).length ≤ BSIZE) ∧
      content' ROOTINO = content ROOTINO ++ dirent s.freeinode file.name := by
  have hnew : s.freeinode ≠ ROOTINO := ne_of_gt hroot.2
  have hnone : content s.freeinode = [] := h.unused _ fun hused => lt_irrefl _ hused.2
  obtain ⟨s₁, halloc, hfree₁, hinv₁⟩ := ialloc_spec h hroom T_FILE (by decide)
  have hroot₁ : s₁.Used ROOTINO := ⟨hroot.1, by have := hroot.2; omega⟩
  obtain ⟨s₂, hentry, hfree₂, hinv₂⟩ := iappend_small hinv₁ hroot₁ hsmall hroot₁
    (p := dirent s.freeinode file.name) (by rw [length_dirent]; exact hlen)
  have hroot₂ : s₂.Used ROOTINO := ⟨hroot.1, by have := hroot.2; omega⟩
  obtain ⟨s₃, happend, hfree₃, hinv₃⟩ := appendChunks_small hinv₂ hroot₂
    (fun j hj => by rw [update_of_ne hj]; exact hsmall j hj) ⟨h.first, by omega⟩
    (by rwa [update_of_ne hnew, hnone])
  refine ⟨s₃, _, ?_, by omega, hinv₃, fun j hj => ?_, ?_⟩
  · simp only [addFile, if_neg hslash, hreads, halloc, bind, Except.bind, hentry]
    exact happend
  · rcases eq_or_ne j s.freeinode with rfl | hji
    · rwa [update_self, update_of_ne hj, hnone]
    · rw [update_of_ne hji, update_of_ne hj]
      exact hsmall j hj
  · rw [update_of_ne hnew.symm, update_self]

end

theorem makeRoot_ok (h : Inv s fun _ => []) (hfirst : s.freeinode = ROOTINO) :
    ∃ s', makeRoot s = .ok (ROOTINO, s') ∧ s'.freeinode = ROOTINO + 1 ∧
      Inv s' (update (fun _ => []) ROOTINO (directory [(ROOTINO, dot), (ROOTINO, dotdot)])) := by
  have hmax : direntSize + direntSize ≤ MAXFILE * BSIZE := by
    show 16 + 16 ≤ 268 * 1024
    omega
  obtain ⟨s₁, halloc, hfree₁, hinv₁⟩ := ialloc_spec h (by rw [hfirst]; decide) T_DIR (by decide)
  rw [hfirst] at halloc hfree₁
  have hroot₁ : s₁.Used ROOTINO := ⟨le_refl _, by omega⟩
  obtain ⟨s₂, hdot, hfree₂, hinv₂⟩ :=
    iappend_small hinv₁ hroot₁ (fun _ _ => Nat.zero_le _) hroot₁ (p := dirent ROOTINO dot)
      (by rw [length_dirent, length_nil]; omega)
  have hroot₂ : s₂.Used ROOTINO := ⟨le_refl _, by omega⟩
  obtain ⟨s₃, hdotdot, hfree₃, hinv₃⟩ :=
    iappend_small hinv₂ hroot₂ (fun j hj => by rw [update_of_ne hj]; exact Nat.zero_le _) hroot₂
      (p := dirent ROOTINO dotdot)
      (by rw [update_self, nil_append, length_dirent, length_dirent]; exact hmax)
  refine ⟨s₃, ?_, by omega, ?_⟩
  · simp only [makeRoot, halloc, bind, Except.bind, if_true, hdot, hdotdot]
    rfl
  · rwa [update_idem, update_self, nil_append] at hinv₃

/-- A file of at most a block whose name has no slash. -/
def InputFile.Small (file : InputFile) : Prop :=
  slash ∉ shortname file.arg ∧
    ∃ chunks, file.reads = some chunks ∧ (chunks.flatMap Chunk.bytes).length ≤ BSIZE

/-- Small files are added as long as there are inodes. -/
theorem addFiles_small (files : List InputFile) (h : Inv s content) (hroot : s.Used ROOTINO)
    (hroom : s.freeinode + files.length ≤ NINODES)
    (hsmall : ∀ j, j ≠ ROOTINO → (content j).length ≤ BSIZE)
    (hlen : (content ROOTINO).length ≤ direntSize * s.freeinode)
    (hfiles : ∀ file ∈ files, file.Small) :
    ∃ s', addFiles ROOTINO files s = .ok s' := by
  induction files generalizing s content with
  | nil => exact ⟨s, rfl⟩
  | cons file rest ih =>
    rw [length_cons] at hroom
    obtain ⟨hslash, chunks, hreads, hchunks⟩ := hfiles file mem_cons_self
    have hbound : direntSize * s.freeinode + direntSize ≤ MAXFILE * BSIZE := by
      have hinodes : NINODES = 200 := rfl
      show 16 * s.freeinode + 16 ≤ 274432
      omega
    obtain ⟨s₁, content₁, hone, hfree, hinv, hsmall₁, hcontent⟩ :=
      addFile_small h hroot hsmall (by omega) (by omega) hslash hreads hchunks
    have hroot₁ : s₁.Used ROOTINO := ⟨hroot.1, by have := hroot.2; omega⟩
    have hlen₁ : (content₁ ROOTINO).length ≤ direntSize * s₁.freeinode := by
      rw [hcontent, length_append, length_dirent, hfree, Nat.mul_succ]
      omega
    obtain ⟨s', hrest⟩ := ih hinv hroot₁ (by omega) hsmall₁ hlen₁
      fun f hf => hfiles f (mem_cons_of_mem _ hf)
    exact ⟨s', bind_eq_ok.mpr ⟨s₁, hone, hrest⟩⟩

end Xv6.Mkfs
