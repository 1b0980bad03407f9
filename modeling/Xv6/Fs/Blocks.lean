import Xv6.Fs.Layout
import Xv6.Ownership.Table

/-!
# The blocks of a file

An inode lists its blocks in its direct slots, and in the entries of the indirect block that its
last slot names. A `FileView` is an inode together with the contents of the disk, as code that works
on one file sees them. Code that appends to a file or writes into it does two things to a view: it
puts a new block into a slot, and it stores bytes in a block of the file. `Edit` says what any
number of these steps leave alone; `byte` is the file as an array of bytes.
-/

namespace Xv6.Fs

open Bytes Ownership Function

/-! ### Slots -/

/-- A place where an inode keeps a block number. -/
inductive Slot where
  | addr (k : Fin (NDIRECT + 1))
  | entry (j : Fin NINDIRECT)
  deriving DecidableEq

namespace Slot

/-- The slot that names the indirect block. -/
def indirect : Slot := .addr (Fin.last NDIRECT)

@[simp] theorem indirect_ne_entry (j : Fin NINDIRECT) : indirect ≠ .entry j := by
  unfold indirect
  simp

/-- The first byte of the file whose address depends on the slot. -/
def start : Slot → Nat
  | .addr k => k * BSIZE
  | .entry j => (NDIRECT + j) * BSIZE

/-- The end of the bytes whose address depends on the slot. -/
def stop (s : Slot) : Nat := if s = indirect then MAXFILE * BSIZE else s.start + BSIZE

/-- The slot of block `bn` of a file. -/
def ofBlock (bn : Nat) : Option Slot :=
  if h : bn < NDIRECT then some (.addr (Fin.castSucc ⟨bn, h⟩))
  else if h' : bn - NDIRECT < NINDIRECT then some (.entry ⟨bn - NDIRECT, h'⟩)
  else none

variable {bn : Nat}

theorem ofBlock_direct (h : bn < NDIRECT) : ofBlock bn = some (.addr (Fin.castSucc ⟨bn, h⟩)) :=
  dif_pos h

theorem ofBlock_entry (h : ¬ bn < NDIRECT) (h' : bn - NDIRECT < NINDIRECT) :
    ofBlock bn = some (.entry ⟨bn - NDIRECT, h'⟩) := by
  rw [ofBlock, dif_neg h, dif_pos h']

theorem ofBlock_none (h : MAXFILE ≤ bn) : ofBlock bn = none := by
  unfold MAXFILE at h
  rw [ofBlock, dif_neg (by omega), dif_neg (by omega)]

theorem exists_ofBlock (h : bn < MAXFILE) : ∃ s, ofBlock bn = some s := by
  unfold MAXFILE at h
  by_cases hd : bn < NDIRECT
  · exact ⟨_, ofBlock_direct hd⟩
  · exact ⟨_, ofBlock_entry hd (by omega)⟩

variable {s : Slot}

/-- The slot of a block is the one where its bytes start, apart from the indirect block's. -/
theorem ofBlock_eq_some : ofBlock bn = some s ↔ s ≠ indirect ∧ s.start = bn * BSIZE := by
  have hsize : BSIZE = 1024 := rfl
  unfold ofBlock indirect
  cases s with
  | addr k =>
    simp only [start, hsize, ne_eq, Slot.addr.injEq, Fin.ext_iff, Fin.val_last]
    split
    · simp only [Option.some.injEq, Slot.addr.injEq, Fin.ext_iff, Fin.val_castSucc]
      omega
    · split
      · simp only [Option.some.injEq, reduceCtorEq, false_iff]
        omega
      · simp only [reduceCtorEq, false_iff]
        omega
  | entry j =>
    simp only [start, hsize, ne_eq, reduceCtorEq, not_false_eq_true, true_and]
    split
    · simp only [Option.some.injEq, reduceCtorEq, false_iff]
      omega
    · split
      · simp only [Option.some.injEq, Slot.entry.injEq, Fin.ext_iff]
        omega
      · simp only [reduceCtorEq, false_iff]
        omega

theorem ofBlock_inj {bn bn' : Nat} (h : ofBlock bn = some s)
    (h' : ofBlock bn' = some s) : bn = bn' := by
  have hstart := (ofBlock_eq_some.mp h).2
  rw [(ofBlock_eq_some.mp h').2] at hstart
  exact (Nat.mul_right_cancel (by decide) hstart).symm

/-- A slot other than the indirect block's is the slot of some block. -/
theorem exists_block (h : s ≠ indirect) : ∃ bn, ofBlock bn = some s := by
  cases s with
  | addr k => exact ⟨k, ofBlock_eq_some.mpr ⟨h, rfl⟩⟩
  | entry j => exact ⟨NDIRECT + j, ofBlock_eq_some.mpr ⟨h, rfl⟩⟩

/-- The slots that an access to the `n` bytes from `off` on goes through. -/
def Touches (off n : Nat) (s : Slot) : Prop := 0 < n ∧ s.start < off + n ∧ off < s.stop

/-- The slots that lead to block `bn`. -/
def LeadsTo (bn : Nat) (s : Slot) : Prop := ofBlock bn = some s ∨ NDIRECT ≤ bn ∧ s = indirect

/-- An access to bytes of one block goes through the slots that lead to it. -/
theorem touches_iff_leadsTo {off n bn : Nat} (hn : 0 < n) (hlow : bn * BSIZE ≤ off)
    (hhigh : off + n ≤ (bn + 1) * BSIZE) (hbn : bn < MAXFILE) (s : Slot) :
    Touches off n s ↔ LeadsTo bn s := by
  have hsize : BSIZE = 1024 := rfl
  have hdirect : NDIRECT = 12 := rfl
  have hmax : MAXFILE = 268 := rfl
  unfold Touches LeadsTo stop
  rw [ofBlock_eq_some]
  by_cases hs : s = indirect
  · have hstart : s.start = NDIRECT * BSIZE := by
      subst hs
      rfl
    rw [if_pos hs, hstart, hsize, hdirect, hmax]
    rw [hsize] at hlow hhigh
    simp only [hs, ne_eq, not_true_eq_false, false_and, and_true, false_or]
    omega
  · obtain ⟨bn', hbn'⟩ := exists_block hs
    obtain ⟨_, hstart⟩ := ofBlock_eq_some.mp hbn'
    rw [if_neg hs, hstart, hsize]
    rw [hsize] at hlow hhigh
    simp only [hs, ne_eq, not_false_eq_true, true_and, and_false, or_false]
    omega

theorem start_lt_stop (s : Slot) : s.start < s.stop := by
  unfold stop
  split
  · next hs =>
    subst hs
    exact Nat.mul_lt_mul_of_pos_right (by decide) (by decide)
  · exact Nat.lt_add_of_pos_right (by decide)

theorem start_lt_add {off n : Nat} (s : Slot) :
    s.start < off + n ↔ s.start < off ∨ Touches off n s := by
  have hlt := s.start_lt_stop
  unfold Touches
  omega

theorem touches_add {off n m : Nat} (s : Slot) :
    Touches off (n + m) s ↔ Touches off n s ∨ Touches (off + n) m s := by
  have hlt := s.start_lt_stop
  unfold Touches
  omega

end Slot

/-! ### The view of a file -/

/-- An inode and the contents of the disk. -/
structure FileView where
  dinode : Dinode
  disk : Nat → Block

namespace FileView

variable {F F' : FileView}

/-- The block number in a slot, or 0. -/
def slot (F : FileView) : Slot → Nat
  | .addr k => (F.dinode.addrs k).toNat
  | .entry j =>
    if (F.dinode.addrs (Fin.last NDIRECT)).toNat = 0 then 0
    else (F.disk (F.dinode.addrs (Fin.last NDIRECT)).toNat).readLE 4 (4 * j)

/-- The address of block `bn` of the file, or 0. -/
def block (F : FileView) (bn : Nat) : Nat := (Slot.ofBlock bn).elim 0 F.slot

/-- Byte `k` of the file; 0 where there is no block. -/
def byte (F : FileView) (k : Nat) : Nat :=
  if F.block (k / BSIZE) = 0 then 0 else (F.disk (F.block (k / BSIZE))).byte (k % BSIZE)

/-- The file has a block with this number. -/
def Owns (F : FileView) (b : Nat) : Prop := Lists F.slot b

variable {bn : Nat}

theorem block_of_ofBlock {s : Slot} (h : Slot.ofBlock bn = some s) : F.block bn = F.slot s := by
  rw [block, h]
  rfl

theorem owns_block (h : F.block bn ≠ 0) : F.Owns (F.block bn) := by
  unfold block at h ⊢
  cases hof : Slot.ofBlock bn with
  | none =>
    rw [hof] at h
    exact absurd rfl h
  | some s =>
    rw [hof] at h
    exact .intro h

theorem slot_entry (j : Fin NINDIRECT) : F.slot (.entry j) =
      if F.slot .indirect = 0 then 0 else (F.disk (F.slot .indirect)).readLE 4 (4 * j) := rfl

theorem indirect_ne_zero {j : Fin NINDIRECT} (h : F.slot (.entry j) ≠ 0) :
    F.slot .indirect ≠ 0 := by
  intro hzero
  rw [slot_entry, if_pos hzero] at h
  exact h rfl

variable {F G : FileView}

/-- The slots depend on the disk only through the indirect block. -/
theorem slot_congr (haddrs : G.dinode.addrs = F.dinode.addrs)
    (hdisk : F.slot .indirect ≠ 0 → G.disk (F.slot .indirect) = F.disk (F.slot .indirect)) :
    G.slot = F.slot := by
  have haddr : ∀ k, G.slot (.addr k) = F.slot (.addr k) := by
    intro k
    show (G.dinode.addrs k).toNat = (F.dinode.addrs k).toNat
    rw [haddrs]
  funext s
  cases s with
  | addr k => exact haddr k
  | entry j =>
    rw [slot_entry, slot_entry, show G.slot .indirect = F.slot .indirect from haddr _]
    split
    · rfl
    · next hne => rw [hdisk hne]

/-- A view depends only on the block numbers in the inode and on the blocks of the file. -/
theorem byte_congr (haddrs : G.dinode.addrs = F.dinode.addrs)
    (hdisk : ∀ b, F.Owns b → G.disk b = F.disk b) (k : Nat) : G.byte k = F.byte k := by
  have hblock : G.block (k / BSIZE) = F.block (k / BSIZE) := by
    unfold block
    rw [slot_congr haddrs fun hne => hdisk _ (.intro hne)]
  unfold byte
  rw [hblock]
  split
  · rfl
  · next hne => rw [hdisk _ (owns_block hne)]

/-! ### Steps -/

/-- Put block `b`, filled with zeros, into a slot. -/
def setSlot (F : FileView) (s : Slot) (b : Nat) : FileView :=
  match s with
  | .addr k =>
    ⟨{ F.dinode with addrs := update F.dinode.addrs k (BitVec.ofNat 32 b) }, update F.disk b .zeros⟩
  | .entry j =>
    ⟨F.dinode, update (update F.disk b .zeros) (F.slot .indirect)
      ((F.disk (F.slot .indirect)).writeLE 4 (4 * j) b)⟩

/-- Store `m` bytes in block `b` at offset `off`. -/
def store (F : FileView) (b off m : Nat) (bytes : Nat → Nat) : FileView :=
  { F with disk := update F.disk b ((F.disk b).splice off m bytes) }

/-- A block that may be put into a slot: it is a block number and not in the file yet. -/
structure Fits (F : FileView) (s : Slot) (b : Nat) : Prop where
  empty : F.slot s = 0
  pos : b ≠ 0
  lt : b < 2 ^ 32
  new : ¬ F.Owns b
  indirect : ∀ j, s = .entry j → F.slot .indirect ≠ 0

variable {b : Nat}

theorem slot_setSlot {s : Slot} (h : F.Fits s b) : (F.setSlot s b).slot = update F.slot s b := by
  have hword : (BitVec.ofNat 32 b).toNat = b := by
    exact Nat.mod_eq_of_lt h.lt
  have hold : ∀ t, F.slot t ≠ 0 → F.slot t ≠ b := fun t ht heq => h.new ⟨h.pos, t, heq⟩
  funext t
  cases s with
  | addr k =>
    cases t with
    | addr l =>
      rcases eq_or_ne l k with rfl | hl
      · simp [setSlot, slot, hword]
      · simp [setSlot, slot, hl]
    | entry j =>
      rw [update_of_ne (by simp), slot_entry (F := F)]
      by_cases hk : Slot.addr k = .indirect
      · have hempty := h.empty
        rw [hk] at hempty
        cases hk
        rw [if_pos hempty]
        simp [setSlot, slot, hword]
      · have hlast : Fin.last NDIRECT ≠ k := fun heq => hk (by rw [← heq]; rfl)
        have hind : (F.setSlot (.addr k) b).slot .indirect = F.slot .indirect := by
          simp [setSlot, slot, Slot.indirect, hlast]
        rw [slot_entry, hind]
        split
        · rfl
        · next hne =>
          have hdisk : (F.setSlot (.addr k) b).disk (F.slot .indirect) =
              F.disk (F.slot .indirect) := update_of_ne (hold .indirect hne) _ _
          rw [hdisk]
  | entry i =>
    have hind := h.indirect i rfl
    cases t with
    | addr k => rfl
    | entry j =>
      have hread : (F.setSlot (.entry i) b).slot (.entry j) =
          ((F.disk (F.slot .indirect)).writeLE 4 (4 * i) b).readLE 4 (4 * j) := by
        have hdisk : (F.setSlot (.entry i) b).disk (F.slot .indirect) =
            (F.disk (F.slot .indirect)).writeLE 4 (4 * i) b := update_self _ _ _
        rw [← hdisk]
        exact (slot_entry j).trans (if_neg hind)
      rw [hread]
      rcases eq_or_ne j i with rfl | hj
      · have hfits : 4 * j.val + 4 ≤ BSIZE := by
          have hj : j.val < 256 := j.isLt
          have hsize : BSIZE = 1024 := rfl
          omega
        rw [update_self, Buffer.readLE_writeLE_same _ _ hfits]
        exact Nat.mod_eq_of_lt h.lt
      · have hne : j.val ≠ i.val := fun heq => hj (Fin.ext heq)
        rw [update_of_ne (by simpa using hj), slot_entry, if_neg hind,
          Buffer.readLE_writeLE_other _ _ (by omega)]

/-! ### What edits leave alone -/

/-- The slots that `touched` names were put into use with `fresh` blocks, and only the blocks of the
file were written. -/
structure Edit (fresh : Nat → Prop) (touched : Slot → Prop) (F F' : FileView) : Prop where
  dinode : ∃ addrs, F'.dinode = { F.dinode with addrs := addrs }
  kept : ∀ s, F.slot s ≠ 0 → F'.slot s = F.slot s
  used : ∀ s, F'.slot s ≠ 0 ↔ F.slot s ≠ 0 ∨ touched s
  new : ∀ s, F.slot s = 0 → F'.slot s ≠ 0 → fresh (F'.slot s)
  distinct : Distinct F'.slot
  frame : ∀ b, ¬ F'.Owns b → F'.disk b = F.disk b

namespace Edit

variable {fresh fresh' : Nat → Prop} {touched touched' : Slot → Prop} {F'' : FileView}

theorem refl (h : Distinct F.slot) (htouched : ∀ s, touched s → F.slot s ≠ 0) :
    Edit fresh touched F F where
  dinode := ⟨F.dinode.addrs, rfl⟩
  kept _ _ := rfl
  used s := by
    tauto
  new _ hzero hne := absurd hzero hne
  distinct := h
  frame _ _ := rfl

section

variable (h : Edit fresh touched F F')
include h

theorem owns (hb : F.Owns b) : F'.Owns b := by
  obtain ⟨hpos, s, hs⟩ := hb
  exact ⟨hpos, s, by rw [h.kept s (by rwa [hs]), hs]⟩

/-- A block of the file afterwards was in it before, or is one of the new ones. -/
theorem owns_or_fresh (hb : F'.Owns b) : F.Owns b ∨ fresh b := by
  obtain ⟨hpos, s, rfl⟩ := hb
  by_cases hs : F.slot s = 0
  · exact .inr (h.new s hs hpos)
  · refine .inl ⟨hpos, s, ?_⟩
    exact (h.kept s hs).symm

theorem trans (h' : Edit fresh touched' F' F'') :
    Edit fresh (fun s => touched s ∨ touched' s) F F'' where
  dinode := by
    obtain ⟨addrs, heq⟩ := h.dinode
    obtain ⟨addrs', heq'⟩ := h'.dinode
    exact ⟨addrs', by rw [heq', heq]⟩
  kept s hs := by
    have hkept := h.kept s hs
    rw [h'.kept s (by rwa [hkept]), hkept]
  used s := by rw [h'.used, h.used, or_assoc]
  new s hzero hne := by
    by_cases hs : F'.slot s = 0
    · exact h'.new s hs hne
    · rw [h'.kept s hs]
      exact h.new s hzero hs
  distinct := h'.distinct
  frame b hb := by
    rw [h'.frame b hb]
    exact h.frame b fun hown => hb (h'.owns hown)

theorem mono (hfresh : ∀ b, fresh b → fresh' b)
    (htouched : ∀ s, touched s ↔ touched' s) : Edit fresh' touched' F F' where
  dinode := h.dinode
  kept := h.kept
  used s := by rw [h.used, htouched]
  new s hzero hne := hfresh _ (h.new s hzero hne)
  distinct := h.distinct
  frame := h.frame

end

end Edit

variable {s : Slot} {b : Nat} {fresh : Nat → Prop}

theorem edit_setSlot (hdistinct : Distinct F.slot)
    (h : F.Fits s b) (hb : fresh b) : Edit fresh (· = s) F (F.setSlot s b) where
  dinode := by
    cases s with
    | addr k => exact ⟨_, rfl⟩
    | entry j => exact ⟨F.dinode.addrs, rfl⟩
  kept t ht := by
    rw [slot_setSlot h, update_of_ne]
    rintro rfl
    exact ht h.empty
  used t := by
    rw [slot_setSlot h]
    rcases eq_or_ne t s with rfl | hts
    · simp [h.pos]
    · simp [hts]
  new t hzero hne := by
    rw [slot_setSlot h] at hne ⊢
    rcases eq_or_ne t s with rfl | hts
    · rwa [update_self]
    · rw [update_of_ne hts] at hne
      exact absurd hzero hne
  distinct := by
    rw [slot_setSlot h]
    exact hdistinct.update h.new s
  frame c hc := by
    have hcb : c ≠ b := by
      rintro rfl
      exact hc ⟨h.pos, s, by rw [slot_setSlot h, update_self]⟩
    cases s with
    | addr k => exact update_of_ne hcb _ _
    | entry j =>
      have hind := h.indirect j rfl
      have hci : c ≠ F.slot .indirect := by
        rintro rfl
        exact hc ⟨hind, .indirect, by rw [slot_setSlot h, update_of_ne (by simp)]⟩
      show update (update F.disk b _) _ _ c = F.disk c
      rw [update_of_ne hci, update_of_ne hcb]

theorem block_ne_indirect (hdistinct : Distinct F.slot) (h : F.block bn ≠ 0) :
    F.block bn ≠ F.slot .indirect := by
  cases hof : Slot.ofBlock bn with
  | none =>
    rw [block, hof] at h
    exact absurd rfl h
  | some t =>
    have hti : t ≠ .indirect := (Slot.ofBlock_eq_some.mp hof).1
    rw [block_of_ofBlock hof] at h ⊢
    exact hdistinct.ne h hti

/-- The blocks after a block was put into the slot of one of them, or of none. -/
theorem block_setSlot (h : F.Fits s b) (bn : Nat) :
    (F.setSlot s b).block bn = if Slot.ofBlock bn = some s then b else F.block bn := by
  unfold block
  rw [slot_setSlot h]
  cases hof : Slot.ofBlock bn with
  | none => simp
  | some t =>
    rcases eq_or_ne t s with rfl | hts
    · simp
    · simp [hts]

theorem disk_setSlot_self (h : F.Fits s b) : (F.setSlot s b).disk b = .zeros := by
  cases s with
  | addr k => exact update_self _ _ _
  | entry j =>
    have hne : b ≠ F.slot .indirect := fun heq => h.new ⟨h.pos, .indirect, heq.symm⟩
    show update (update F.disk b _) _ _ b = _
    rw [update_of_ne hne, update_self]

section

variable (hdistinct : Distinct F.slot)
include hdistinct

/-- Putting a block into a slot changes no block of the file's content. -/
theorem disk_setSlot_block (h : F.Fits s b) (hbn : F.block bn ≠ 0) :
    (F.setSlot s b).disk (F.block bn) = F.disk (F.block bn) := by
  have hneb : F.block bn ≠ b := fun heq => h.new (heq ▸ F.owns_block hbn)
  cases s with
  | addr k => exact update_of_ne hneb _ _
  | entry j =>
    show update (update F.disk b _) _ _ _ = _
    rw [update_of_ne (block_ne_indirect hdistinct hbn), update_of_ne hneb]

/-- A block that is put into a slot adds zeros to the file where there was nothing. -/
theorem byte_setSlot (h : F.Fits s b) (k : Nat) : (F.setSlot s b).byte k = F.byte k := by
  unfold byte
  rw [block_setSlot h]
  by_cases hof : Slot.ofBlock (k / BSIZE) = some s
  · have hempty : F.block (k / BSIZE) = 0 := by rw [block_of_ofBlock hof, h.empty]
    rw [if_pos hof, if_pos hempty, if_neg h.pos, disk_setSlot_self h, Buffer.byte_zeros]
  · rw [if_neg hof]
    by_cases hzero : F.block (k / BSIZE) = 0
    · rw [if_pos hzero, if_pos hzero]
    · rw [if_neg hzero, if_neg hzero, disk_setSlot_block hdistinct h hzero]

theorem block_inj {bn bn' : Nat} (h : F.block bn ≠ 0)
    (heq : F.block bn = F.block bn') : bn = bn' := by
  unfold block at h heq
  cases hof : Slot.ofBlock bn with
  | none =>
    rw [hof] at h
    exact absurd rfl h
  | some s =>
    cases hof' : Slot.ofBlock bn' with
    | none =>
      rw [hof, hof'] at heq
      rw [hof] at h
      exact absurd heq h
    | some t =>
      rw [hof, hof'] at heq
      rw [hof] at h
      obtain rfl := hdistinct s t h heq
      exact Slot.ofBlock_inj hof hof'

variable {bn off m : Nat}

section

variable (bytes : Nat → Nat)
include bytes

section

variable (h : F.block bn ≠ 0)
include h

theorem slot_store : (F.store (F.block bn) off m bytes).slot = F.slot :=
  slot_congr rfl fun _ => update_of_ne (F.block_ne_indirect hdistinct h).symm _ _

theorem edit_store : Edit fresh (fun _ => False) F (F.store (F.block bn) off m bytes) where
  dinode := ⟨F.dinode.addrs, rfl⟩
  kept s _ := by rw [slot_store hdistinct bytes h]
  used s := by simp [slot_store hdistinct bytes h]
  new s hzero hne := by
    rw [slot_store hdistinct bytes h] at hne
    exact absurd hzero hne
  distinct := by rwa [slot_store hdistinct bytes h]
  frame b hb := by
    refine update_of_ne ?_ _ _
    rintro rfl
    apply hb
    have hown := F.owns_block h
    unfold Owns at hown ⊢
    rwa [slot_store hdistinct bytes h]

/-- Bytes stored in block `bn` are the bytes of the file there. -/
theorem byte_store (k : Nat) : (F.store (F.block bn) off m bytes).byte k =
      if bn = k / BSIZE ∧ off ≤ k % BSIZE ∧ k % BSIZE < off + m then bytes (k % BSIZE - off) % 256
      else F.byte k := by
  have hblock : ∀ n, (F.store (F.block bn) off m bytes).block n = F.block n := by
    intro n
    show (Slot.ofBlock n).elim 0 (F.store (F.block bn) off m bytes).slot = _
    rw [slot_store hdistinct bytes h]
    rfl
  unfold byte
  rw [hblock]
  by_cases hbn : bn = k / BSIZE
  · subst hbn
    rw [if_neg h, if_neg h]
    show Buffer.byte (update F.disk _ _ (F.block (k / BSIZE))) _ = _
    rw [update_self, Buffer.byte_splice _ _ (Nat.mod_lt _ (by decide))]
    simp
  · have hout : ¬ (bn = k / BSIZE ∧ off ≤ k % BSIZE ∧ k % BSIZE < off + m) := fun hand => hbn hand.1
    rw [if_neg hout]
    by_cases hzero : F.block (k / BSIZE) = 0
    · rw [if_pos hzero, if_pos hzero]
    · have hne : F.block (k / BSIZE) ≠ F.block bn :=
        fun heq => hbn (F.block_inj hdistinct h heq.symm)
      rw [if_neg hzero, if_neg hzero]
      show Buffer.byte (update F.disk _ _ (F.block (k / BSIZE))) _ = _
      rw [update_of_ne hne]

end

/-- A piece stored in its block, in terms of the bytes of the file. -/
theorem byte_store_piece {off n : Nat}
    (h : F.block (off / BSIZE) ≠ 0) (hend : off % BSIZE + n ≤ BSIZE) (k : Nat) :
    (F.store (F.block (off / BSIZE)) (off % BSIZE) n bytes).byte k =
      if off ≤ k ∧ k < off + n then bytes (k - off) % 256 else F.byte k := by
  have hsize : BSIZE = 1024 := rfl
  rw [byte_store hdistinct bytes h]
  rw [hsize] at hend ⊢
  by_cases hin : off ≤ k ∧ k < off + n
  · rw [if_pos (by omega), if_pos hin]
    congr 2
    omega
  · rw [if_neg (by omega), if_neg hin]

end

end

/-! ### Sizes -/

/-- The number of blocks that a file of `len` bytes takes, with its indirect block. -/
def blocksFor (len : Nat) : Nat :=
  (len + (BSIZE - 1)) / BSIZE + if NDIRECT * BSIZE < len then 1 else 0

theorem blocksFor_mono {len len' : Nat} (h : len ≤ len') : blocksFor len ≤ blocksFor len' := by
  have hdiv : (len + (BSIZE - 1)) / BSIZE ≤ (len' + (BSIZE - 1)) / BSIZE :=
    Nat.div_le_div_right (by omega)
  unfold blocksFor
  split <;> split <;> omega

end FileView

end Xv6.Fs
