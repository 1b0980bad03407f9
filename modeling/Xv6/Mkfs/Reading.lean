import Xv6.Mkfs.Root
import Xv6.Fs.Image
import Xv6.Fs.Reading
import Mathlib.Algebra.Order.BigOperators.Group.Finset

/-!
# The kernel reads what `mkfs` has written

Inodes are allocated and bytes are appended to them in any order. `kernel_reads_appended` says that
the kernel, when it locks an inode on the resulting image and reads it, gets the bytes that were
appended to it.
-/

namespace Xv6.Mkfs

open Bytes Fs FileView Interleave Function List

/-! ### Sequences of calls -/

/-- A call that changes the image. -/
inductive Action where
  | ialloc (type : BitVec 16)
  | iappend (inum : Nat) (chunk : List UInt8)

/-- Perform a call. -/
def Action.perform (s : State) : Action → Except Failure State
  | .ialloc type => do
      let (_, s) ← Mkfs.ialloc s type
      pure s
  | .iappend inum chunk => Mkfs.iappend s inum chunk

/-- Perform calls one after the other. -/
def performAll : List Action → State → Except Failure State
  | [], s => pure s
  | action :: rest, s => do
      let s ← action.perform s
      performAll rest s

/-- The calls use inodes of the image that were allocated before; `next` is the next number. -/
def Valid : (next : Nat) → List Action → Prop
  | _, [] => True
  | next, .ialloc type :: rest => type ≠ 0 ∧ next < NINODES ∧ Valid (next + 1) rest
  | next, .iappend inum _ :: rest => (ROOTINO ≤ inum ∧ inum < next) ∧ Valid next rest

/-- The concatenation of the chunks that are appended to inode `i`. -/
def appendedTo (i : Nat) : List Action → List UInt8
  | [] => []
  | .ialloc _ :: rest => appendedTo i rest
  | .iappend inum chunk :: rest => if inum = i then chunk ++ appendedTo i rest
      else appendedTo i rest

variable {s : State} {content : Nat → List UInt8}

/-- The blocks of some files are at most those of longer files. -/
theorem sum_blocksFor_le {m n : Nat} {f g : Nat → Nat} (hmn : m ≤ n) (hfg : ∀ i, f i ≤ g i) :
    ∑ i ∈ Finset.range m, blocksFor (f i) ≤ ∑ i ∈ Finset.range n, blocksFor (g i) :=
  (Finset.sum_le_sum fun i _ => blocksFor_mono (hfg i)).trans
    (Finset.sum_le_sum_of_subset (Finset.range_mono hmn))

theorem performAll_ok (actions : List Action) (h : Inv s content)
    (hvalid : Valid s.freeinode actions)
    (hmax : ∀ i, (content i ++ appendedTo i actions).length ≤ MAXFILE * BSIZE)
    (hfit : nmeta + ∑ i ∈ Finset.range NINODES,
      blocksFor (content i ++ appendedTo i actions).length ≤ FSSIZE) :
    ∃ s', performAll actions s = .ok s' ∧ Inv s' fun i => content i ++ appendedTo i actions := by
  induction actions generalizing s content with
  | nil => exact ⟨s, rfl, by simpa [appendedTo] using h⟩
  | cons action rest ih =>
    cases action with
    | ialloc type =>
      obtain ⟨htype, hroom, hrest⟩ := hvalid
      obtain ⟨s₁, halloc, hfree, hinv⟩ := ialloc_spec h hroom _ htype
      obtain ⟨s', hrun, hinv'⟩ := ih hinv (by rw [hfree]; exact hrest) hmax hfit
      refine ⟨s', bind_eq_ok.mpr ⟨s₁, ?_, hrun⟩, hinv'⟩
      exact bind_eq_ok.mpr ⟨_, halloc, rfl⟩
    | iappend inum chunk =>
      obtain ⟨hinum, hrest⟩ := hvalid
      have hsplit : ∀ i, content i ++ appendedTo i (.iappend inum chunk :: rest) =
          update content inum (content inum ++ chunk) i ++ appendedTo i rest := by
        intro i
        rcases eq_or_ne i inum with rfl | hne
        · rw [update_self, appendedTo, if_pos rfl, append_assoc]
        · rw [update_of_ne hne, appendedTo, if_neg hne.symm]
      simp only [hsplit] at hmax hfit ⊢
      have hupdate : ∀ i, (update content inum (content inum ++ chunk) i).length ≤
          (update content inum (content inum ++ chunk) i ++ appendedTo i rest).length := by
        intro i
        rw [length_append]
        omega
      have hgrow : s.freeblock + blocksFor ((content inum).length + chunk.length) ≤
          FSSIZE + blocksFor (content inum).length := by
        have hmem : inum ∈ Finset.range s.freeinode := Finset.mem_range.mpr hinum.2
        have hle := sum_blocksFor_le h.inodes hupdate
        have hcount := h.count
        rw [← Finset.add_sum_erase _ _ hmem] at hle hcount
        have hsame : ∑ i ∈ (Finset.range s.freeinode).erase inum,
              blocksFor (update content inum (content inum ++ chunk) i).length =
            ∑ i ∈ (Finset.range s.freeinode).erase inum, blocksFor (content i).length :=
          Finset.sum_congr rfl fun i hi => by
            rw [update_of_ne (Finset.ne_of_mem_erase hi)]
        rw [hsame, update_self, length_append] at hle
        omega
      have hone := (hupdate inum).trans (hmax inum)
      rw [update_self, length_append] at hone
      rcases iappend_spec h hinum chunk with ⟨s₁, hstep, hfree, hinv⟩ | ⟨_, hbad⟩
      · obtain ⟨s', hrun, hinv'⟩ := ih hinv (by rw [hfree]; exact hrest) hmax hfit
        exact ⟨s', bind_eq_ok.mpr ⟨s₁, hstep, hrun⟩, hinv'⟩
      · omega

/-! ### Reading -/

/-- Lock an inode and read all of its content into the kernel. -/
def readWhole (sb : Superblock) (ip : InodePtr) : Code (Int × List Nat) := do
  ilock ip
  let d ← Fs.dinode ip
  readi sb ip (fun _ _ => true) 0 d.size.toNat

variable {Pid : Type}

/-- An entry of the inode cache that has not been read from disk yet. -/
structure IsUnread (e : Inode Pid) (i : Nat) : Prop where
  inum : e.inum = i
  ref : 0 < e.ref
  lock : e.lock = none
  valid : e.valid = false

/-- An operation on the entry itself, or a read of a block that is only in the file `i`. -/
def TouchesOnly (sb : Superblock) (disk : Nat → Block) (used : Nat → Prop) (ip : InodePtr) (i : Nat)
    (o : Op) : Prop :=
  o ∈ [Op.checkRef ip, .acquiresleep ip, .iload ip, .dinode ip] ∨
    ∃ b, o = .bread b ∧ (fileAt sb disk i).Owns b ∧
      ∀ j, used j → j ≠ i → ¬ (fileAt sb disk j).Owns b

theorem decode_sbFields : Superblock.decode (Buffer.writeFields .zeros sbFields) = sb := by
  decide +kernel

/-- The state after `ilock` has read an entry from disk. -/
def locked (k : Fs.State Pid) (p : Pid) (ip : InodePtr) (d : Dinode) : Fs.State Pid :=
  (k.setInode ip fun e => { e with lock := some p }).setInode ip fun e =>
    { e with dinode := d, valid := true }

variable [DecidableEq Pid] {p : Pid} {k : Fs.State Pid} {ip : InodePtr}

theorem ilock_steps {sb : Superblock} {i : Nat} (h : IsUnread (k.inode ip) i)
    (htype : (fileAt sb k.disk i).dinode.type ≠ 0) :
    Steps (exec sb p) (ilock ip) k [.checkRef ip, .acquiresleep ip, .iload ip] ()
      (locked k p ip (fileAt sb k.disk i).dinode) := by
  have hcheck : exec sb p (.checkRef ip) k = .done () k := by
    have href := h.ref
    exact if_neg (by omega)
  have hacquire : exec sb p (.acquiresleep ip) k =
      .done () (k.setInode ip fun e => { e with lock := some p }) := by
    simp only [exec, h.lock]
  have hload : exec sb p (.iload ip) (k.setInode ip fun e => { e with lock := some p }) =
      .done () (locked k p ip (fileAt sb k.disk i).dinode) := by
    have hentry : (k.setInode ip fun e => { e with lock := some p }).inode ip =
        { k.inode ip with lock := some p } := update_self _ _ _
    have hdisk : (k.setInode ip fun e => { e with lock := some p }).dinode sb i =
        (fileAt sb k.disk i).dinode := rfl
    simp only [exec, hentry, h.valid, h.inum, hdisk, if_neg htype]
    simp only [locked, State.setInode, update_self, h.inum]
    rfl
  exact .op hcheck (.op hacquire (.op hload (.ret () _)))

theorem readWhole_steps (h : Inv s content) {i : Nat} (hi : s.Used i)
    (hdisk : k.disk = s.image.sector) (hentry : IsUnread (k.inode ip) i) :
    ∃ trace k', Steps (exec sb p) (readWhole sb ip) k trace
        (((content i).length : Nat), (content i).map UInt8.toNat) k' ∧
      k'.disk = k.disk ∧ ∀ o ∈ trace, TouchesOnly sb k.disk s.Used ip i o := by
  have hview : ∀ j, fileAt sb k.disk j = s.view j := fun j => by rw [hdisk]; rfl
  have htype : (fileAt sb k.disk i).dinode.type ≠ 0 := by
    rw [hview]
    exact h.type i hi
  obtain ⟨k', hk'⟩ : ∃ k', k' = locked k p ip (fileAt sb k.disk i).dinode := ⟨_, rfl⟩
  have hdinode : (k'.inode ip).dinode = (fileAt sb k.disk i).dinode := by
    rw [hk', locked, State.setInode]
    simp
  have hfile : k'.fileOf ip = s.view i := by
    have hdisk' : k'.disk = k.disk := by
      rw [hk']
      rfl
    rw [State.fileOf, hdinode, hdisk', ← hview i]
    rfl
  have hsize : (k'.inode ip).dinode.size.toNat = (content i).length := by
    rw [hdinode, hview]
    exact h.size i hi
  have hsum : 0 + (content i).length < 2 ^ 32 := by
    have hbound := h.bounded i
    have hlt : MAXFILE * BSIZE < 2 ^ 32 := by decide
    omega
  have hblocks : ∀ b, b < (k'.inode ip).dinode.size.toNat →
      (k'.fileOf ip).block (b / BSIZE) ≠ 0 := by
    intro b hb
    rw [hsize] at hb
    have hbound := h.bounded i
    obtain ⟨t, hof⟩ := Slot.exists_ofBlock (Nat.div_lt_of_lt_mul (by
      rw [mul_comm]; exact lt_of_lt_of_le hb hbound))
    rw [hfile, block_of_ofBlock hof, h.slots i hi, (Slot.ofBlock_eq_some.mp hof).2]
    exact lt_of_le_of_lt (Nat.div_mul_le_self b BSIZE) hb
  obtain ⟨trace, hread, hreads⟩ : ∃ trace, Steps (exec sb p)
      (readi sb ip (fun _ _ => true) 0 (content i).length) k' trace _ k' ∧ _ :=
    readi_steps (Nat.zero_le _) hsum hblocks
  have hbytes : (List.range (min (content i).length ((k'.inode ip).dinode.size.toNat - 0))).map
      (fun b => (k'.fileOf ip).byte (0 + b)) = (content i).map UInt8.toNat := by
    rw [hsize, Nat.sub_zero, Nat.min_self, hfile]
    refine ext_getElem (by simp) fun b hb _ => ?_
    have hlt : b < (content i).length := by simpa using hb
    simp [h.byte i hi, hlt]
  rw [hbytes, hsize, Nat.sub_zero, Nat.min_self] at hread
  refine ⟨[.checkRef ip, .acquiresleep ip, .iload ip] ++ .dinode ip :: trace, k', ?_,
    by rw [hk']; rfl, ?_⟩
  · have hlock := ilock_steps (p := p) hentry htype
    rw [← hk'] at hlock
    refine hlock.bind (dinode_steps ?_)
    rwa [hsize]
  · intro o ho
    rcases mem_append.mp ho with ho | ho
    · refine .inl ?_
      simp only [mem_cons, not_mem_nil, or_false] at ho ⊢
      tauto
    · rcases mem_cons.mp ho with rfl | ho
      · exact .inl (by simp)
      · have hro := hreads o ho
        rw [hfile] at hro
        cases o with
        | dinode ip' =>
          obtain rfl : ip' = ip := hro
          exact .inl (by simp)
        | bread b =>
          refine .inr ⟨b, rfl, by rw [hview]; exact hro, fun j hj hji => ?_⟩
          rw [hview]
          exact h.not_owns hi hj hji.symm hro
        | _ => exact hro.elim

/-- For every sequence of calls that allocate inodes and append to them, in any order, with files
that are not too large and fit on the image: the kernel, locking an inode and reading it from the
image, gets the chunks that were appended to it. It allocates nothing on the way and looks at no
block of another file. -/
theorem kernel_reads_appended (p : Pid) {actions : List Action} (hvalid : Valid ROOTINO actions)
    (hmax : ∀ i, (appendedTo i actions).length ≤ MAXFILE * BSIZE)
    (hfit : nmeta + ∑ i ∈ Finset.range NINODES, blocksFor (appendedTo i actions).length ≤ FSSIZE) :
    ∃ s, performAll actions ⟨blankImage, ROOTINO, nmeta⟩ = .ok s ∧
      ∀ i, s.Used i → ∀ (k : Fs.State Pid) ip, k.disk = s.image.sector → IsUnread (k.inode ip) i →
        ∃ trace k', Steps (exec (Superblock.decode (k.disk 1)) p)
            (readWhole (Superblock.decode (k.disk 1)) ip) k trace
            (((appendedTo i actions).length : Nat), (appendedTo i actions).map UInt8.toNat) k' ∧
          k'.disk = k.disk ∧
          ∀ o ∈ trace, TouchesOnly (Superblock.decode (k.disk 1)) k.disk s.Used ip i o := by
  obtain ⟨s, hrun, hinv⟩ := performAll_ok actions inv_blank hvalid
    (by simpa using hmax) (by simpa using hfit)
  simp only [nil_append] at hinv
  refine ⟨s, hrun, fun i hi k ip hdisk hentry => ?_⟩
  have hsb : Superblock.decode (k.disk 1) = sb := by
    rw [hdisk, hinv.super, decode_sbFields]
  rw [hsb]
  exact readWhole_steps hinv hi hdisk hentry

/-- Two files to which chunks are appended in turn. -/
def twoFiles : List Action :=
  [.ialloc T_DIR, .ialloc T_FILE, .iappend 2 [7, 8], .iappend 1 [9], .iappend 2 [10]]

theorem kernel_reads_appended_twoFiles : appendedTo 2 twoFiles = [7, 8, 10] ∧
    ∃ s, performAll twoFiles ⟨blankImage, ROOTINO, nmeta⟩ = .ok s ∧
      ∀ i, s.Used i → ∀ (k : Fs.State (Fin 1)) ip, k.disk = s.image.sector →
        IsUnread (k.inode ip) i →
        ∃ trace k', Steps (exec (Superblock.decode (k.disk 1)) 0)
            (readWhole (Superblock.decode (k.disk 1)) ip) k trace
            (((appendedTo i twoFiles).length : Nat), (appendedTo i twoFiles).map UInt8.toNat) k' ∧
          k'.disk = k.disk ∧
          ∀ o ∈ trace, TouchesOnly (Superblock.decode (k.disk 1)) k.disk s.Used ip i o := by
  refine ⟨by decide, kernel_reads_appended 0 ?_ ?_ ?_⟩
  · simp [twoFiles, Valid, T_DIR, T_FILE, ROOTINO, NINODES]
  · intro i
    have hlen : (appendedTo i twoFiles).length ≤ 4 := by
      simp only [twoFiles, appendedTo]
      split <;> split <;> simp
    exact hlen.trans (by decide)
  · decide +kernel

end Xv6.Mkfs
