import Xv6.Buddy.Invariant

/-!
# `bd_malloc`, `bd_free` and `size`

Each round of the loops in `bd_malloc` and `bd_free` is one step of the abstract buddy system, with
the block in hand counted as handed out. The calls return, keep the invariant, and change nothing
else than the block they hand out or take back.
-/

namespace Xv6.Buddy

open Circular Dyadic List

variable {h : Heap} {reserved : Set Block} {s : State} {free : Nat → List Nat} {handed : List Block}
  {b : Block}

/-- The units of free and handed-out blocks. -/
def units (h : Heap) (free : Nat → List Nat) (handed : List Block) : Nat :=
  ∑ k ∈ Finset.range h.maxSize, (free k).length * 2 ^ k + (handed.map fun b => 2 ^ b.level).sum

/-- The bits that belong to no block of the heap are the same. -/
structure SameOutside (h : Heap) (s s' : State) : Prop where
  alloc : ∀ b : Block, ¬ (b.Fits h.maxSize ∧ b.level < h.maxSize) →
    marks s'.alloc b = marks s.alloc b
  split : ∀ b : Block, ¬ (b.Fits h.maxSize ∧ 0 < b.level) → marks s'.split b = marks s.split b

namespace SameOutside

variable {s' s'' : State} {value : Bool}

theorem refl (s : State) : SameOutside h s s := ⟨fun _ _ => rfl, fun _ _ => rfl⟩

theorem trans (hsame : SameOutside h s s') (hsame' : SameOutside h s' s'') : SameOutside h s s'' :=
  ⟨fun b hb => (hsame'.alloc b hb).trans (hsame.alloc b hb),
    fun b hb => (hsame'.split b hb).trans (hsame.split b hb)⟩

theorem of_alloc (hb : b.Fits h.maxSize) (hlevel : b.level < h.maxSize)
    (hmarks : marks s'.alloc = Function.update (marks s.alloc) b value)
    (hsplit : s'.split = s.split) :
    SameOutside h s s' := by
  refine ⟨fun c hc => ?_, fun c _ => by rw [hsplit]⟩
  rw [hmarks, Function.update_of_ne]
  rintro rfl
  exact hc ⟨hb, hlevel⟩

theorem of_split (hb : b.Fits h.maxSize) (hpos : 0 < b.level)
    (hmarks : marks s'.split = Function.update (marks s.split) b value)
    (halloc : s'.alloc = s.alloc) :
    SameOutside h s s' := by
  refine ⟨fun c _ => by rw [halloc], fun c hc => ?_⟩
  rw [hmarks, Function.update_of_ne]
  rintro rfl
  exact hc ⟨hb, hpos⟩

end SameOutside

namespace Rep

section

variable (hrep : Rep h reserved s free handed)
include hrep

theorem handed_range (hb : b ∈ handed) :
    b.level < h.maxSize ∧ b.index < 2 ^ (h.maxSize - b.level) :=
  ⟨(hrep.valid.taken b (.inl hb)).1.level_lt, (hrep.valid.taken b (.inl hb)).1.index_lt⟩

theorem free_range (hb : b.index ∈ free b.level) :
    b.level < h.maxSize ∧ b.index < 2 ^ (h.maxSize - b.level) :=
  ⟨(hrep.valid.free b hb).1.level_lt, (hrep.valid.free b hb).1.index_lt⟩

theorem buddy_range (hb : b ∈ handed) : b.buddy.index < 2 ^ (h.maxSize - b.buddy.level) := by
  have hplaced := (hrep.valid.taken b (.inl hb)).1
  exact (hplaced.fits.buddy hplaced.level_lt).2

section

variable (hfits : h.Fits reserved)
include hfits

/-- `lst_pop` of a list with blocks, and the mark that `bd_malloc` makes next. -/
theorem pop {k : Nat} (hk : k < h.nsizes) (hne : s.list.isEmpty (h.list k) = false) :
    ∃ b free', b.level = k ∧ h.lstPop k s = some (h.blockAddr b, Heap.lstRemove (h.blockAddr b) s) ∧
      Rep h reserved ((Heap.lstRemove (h.blockAddr b) s).setAlloc b.level b.index) free'
        (b :: handed) ∧ units h free' (b :: handed) = units h free handed ∧
      SameOutside h s ((Heap.lstRemove (h.blockAddr b) s).setAlloc b.level b.index) := by
  have hring := hrep.rings k hk
  cases hfree : free k with
  | nil =>
    have hempty := hring.isEmpty_iff.mpr (by rw [hfree]; rfl)
    rw [hempty] at hne
    cases hne
  | cons i rest =>
    have hb : (⟨k, i⟩ : Block).index ∈ free (⟨k, i⟩ : Block).level := by simp [hfree]
    have hnext : s.list.next (h.list k) = h.blockAddr ⟨k, i⟩ := by
      have hhead := hring.next_head
      rw [hfree] at hhead
      exact (Option.some.inj hhead).symm
    have hvalid := hrep.valid.take (fun _ => rfl) hb
    have hlayout : layout ((Heap.lstRemove (h.blockAddr ⟨k, i⟩) s).setAlloc k i)
        ((layout s free handed).take ⟨k, i⟩).free (⟨k, i⟩ :: handed) =
        (layout s free handed).take ⟨k, i⟩ := by
      have hmarks := marks_setAlloc (Heap.lstRemove (h.blockAddr ⟨k, i⟩) s) ⟨k, i⟩
      simp only [layout, Layout.take, hmarks]
      rfl
    have hrange := hrep.free_range hb
    refine ⟨⟨k, i⟩, _, rfl, ?_, ⟨?_, ?_⟩, hrep.valid.units_take hb,
      .of_alloc ⟨hrange.1.le, hrange.2⟩ hrange.1 (marks_setAlloc _ ⟨k, i⟩) rfl⟩
    · rw [Heap.lstPop, Lists.lstPop, hne, hnext]
      rfl
    · exact Rings.remove hfits hrep.valid hrep.rings hk hb
    · rwa [hlayout]

/-- One round of the splitting loop of `bd_malloc`. -/
theorem halve (hb : b ∈ handed) (hpos : 0 < b.level) :
    ∃ free', Rep h reserved (h.lstPush b.right.level (h.blockAddr b.right)
          ((s.setSplit b.level b.index).setAlloc b.left.level b.left.index)) free'
        (b.left :: handed.erase b) ∧
      units h free' (b.left :: handed.erase b) = units h free handed ∧
      SameOutside h s (h.lstPush b.right.level (h.blockAddr b.right)
        ((s.setSplit b.level b.index).setAlloc b.left.level b.left.index)) := by
  have hvalid := hrep.valid.halve (fun _ => rfl) hb hpos
  have hlayout : layout (h.lstPush b.right.level (h.blockAddr b.right)
          ((s.setSplit b.level b.index).setAlloc b.left.level b.left.index))
        ((layout s free handed).halve b).free (b.left :: handed.erase b) =
      (layout s free handed).halve b := by
    have halloc := marks_setAlloc (s.setSplit b.level b.index) b.left
    have hsplit := splitMarks_setSplit s hpos
    simp only [layout, Layout.halve, Heap.lstPush, halloc]
    exact congrArg (fun split => Layout.mk _ split _ _) hsplit
  refine ⟨((layout s free handed).halve b).free, ⟨?_, by rwa [hlayout]⟩,
    hrep.valid.units_halve hb hpos, ?_⟩
  have hlevel : b.right.level < h.nsizes := by
    have hlt := (hrep.handed_range hb).1
    simp only [Heap.maxSize, Block.right] at hlt ⊢
    omega
  · exact Rings.push hfits hvalid hrep.rings hlevel rfl
  · have hplaced := (hrep.valid.taken b (.inl hb)).1
    have hleft := (Block.left_inside hpos).1
    have hsplit : SameOutside h s (s.setSplit b.level b.index) :=
      .of_split hplaced.fits hpos (marks_update (bitIsset_bitSet _ _)) rfl
    exact hsplit.trans <| .of_alloc (hplaced.fits.of_below hleft)
      (hleft.1.trans_lt hplaced.level_lt)
      (marks_setAlloc _ b.left) rfl

/-- The last round of the loop of `bd_free`: the buddy is allocated. -/
theorem release (hb : b ∈ handed) (hbuddy : marks s.alloc b.buddy = true) :
    ∃ free', Rep h reserved (h.lstPush b.level (h.blockAddr b) (s.clearAlloc b.level b.index)) free'
        (handed.erase b) ∧ units h free' (handed.erase b) = units h free handed ∧
      SameOutside h s (h.lstPush b.level (h.blockAddr b) (s.clearAlloc b.level b.index)) := by
  have hvalid := hrep.valid.release (fun _ => rfl) hb hbuddy
  have hlayout : layout (h.lstPush b.level (h.blockAddr b) (s.clearAlloc b.level b.index))
        ((layout s free handed).release b).free (handed.erase b) =
      (layout s free handed).release b := by
    have halloc := marks_clearAlloc s b
    simp only [layout, Layout.release, Heap.lstPush, halloc]
    rfl
  refine ⟨((layout s free handed).release b).free, ⟨?_, by rwa [hlayout]⟩,
    hrep.valid.units_release hb, ?_⟩
  have hlevel : b.level < h.nsizes := by
    have hlt := (hrep.handed_range hb).1
    simp only [Heap.maxSize] at hlt
    omega
  · exact Rings.push hfits hvalid hrep.rings hlevel rfl
  · have hplaced := (hrep.valid.taken b (.inl hb)).1
    exact .of_alloc hplaced.fits hplaced.level_lt (marks_clearAlloc s b) rfl

/-- Any other round of the loop of `bd_free`: the buddy is free and merged with the block. -/
theorem join (hb : b ∈ handed)
    (hbuddy : marks s.alloc b.buddy = false) (hlevel : b.parent.level < h.maxSize) :
    ∃ free', Rep h reserved
        ((Heap.lstRemove (h.blockAddr b.buddy) (s.clearAlloc b.level b.index)).clearSplit
          b.parent.level b.parent.index) free' (b.parent :: handed.erase b) ∧
      units h free' (b.parent :: handed.erase b) = units h free handed ∧
      SameOutside h s ((Heap.lstRemove (h.blockAddr b.buddy)
        (s.clearAlloc b.level b.index)).clearSplit b.parent.level b.parent.index) := by
  have hplaced := (hrep.valid.taken b (.inl hb)).1
  have hfree : b.buddy.index ∈ free b.buddy.level := by
    have hcovered := hrep.valid.covered b.buddy
      ⟨hplaced.level_lt, hrep.buddy_range hb, by rw [Block.buddy_parent]; exact hplaced.parent⟩
    refine hcovered.resolve_left fun halloc => ?_
    simpa using hbuddy.symm.trans halloc
  have hvalid := hrep.valid.join (fun _ => rfl) hb hlevel hbuddy
  have hlayout : layout
        ((Heap.lstRemove (h.blockAddr b.buddy) (s.clearAlloc b.level b.index)).clearSplit
          b.parent.level b.parent.index)
        ((layout s free handed).join b).free (b.parent :: handed.erase b) =
      (layout s free handed).join b := by
    have halloc := marks_clearAlloc s b
    have hsplit := splitMarks_clearSplit
      (Heap.lstRemove (h.blockAddr b.buddy) (s.clearAlloc b.level b.index))
      (b := b.parent) (Nat.succ_pos _)
    simp only [layout, Layout.join, hsplit]
    exact congrArg (fun alloc => Layout.mk alloc _ _ _) halloc
  refine ⟨((layout s free handed).join b).free, ⟨?_, by rwa [hlayout]⟩,
    hrep.valid.units_join hb hfree, ?_⟩
  have hlt : b.buddy.level < h.nsizes := by
    have := (hrep.handed_range hb).1
    simp only [Heap.maxSize, Block.buddy_level] at this ⊢
    omega
  · exact Rings.remove hfits hrep.valid hrep.rings hlt hfree
  · refine (SameOutside.of_alloc hplaced.fits hplaced.level_lt (marks_clearAlloc s b) rfl).trans ?_
    exact .of_split (hplaced.fits.parent hplaced.level_lt) (Nat.succ_pos _)
      (marks_update (bitIsset_bitClear _ _)) rfl

end

end

end Rep

/-! ### `bd_malloc` -/

/-- The splitting loop of `bd_malloc` leaves a block of the wanted size at the same address. -/
theorem splitFrom_spec (hfits : h.Fits reserved) (rounds : Nat)
    (hrep : Rep h reserved s free (b :: handed)) (hrounds : rounds ≤ b.level) :
    ∃ c free', c.level = b.level - rounds ∧ h.blockAddr c = h.blockAddr b ∧
      Rep h reserved (h.splitFrom (h.blockAddr b) rounds b.level s) free' (c :: handed) ∧
      units h free' (c :: handed) = units h free (b :: handed) ∧
      SameOutside h s (h.splitFrom (h.blockAddr b) rounds b.level s) := by
  induction rounds generalizing s free b with
  | zero => exact ⟨b, free, rfl, rfl, hrep, rfl, .refl s⟩
  | succ rounds ih =>
    have hpos : 0 < b.level := by omega
    obtain ⟨hleft, hright⟩ := blockAddr_halves hpos
    obtain ⟨hlevel, hindex⟩ := hrep.handed_range mem_cons_self
    have hleftFits := Block.Fits.of_below ⟨hlevel.le, hindex⟩ (Block.left_inside hpos).1
    have hleftIndex : h.blkIndex (b.level - 1) (h.blockAddr b) = b.left.index := by
      rw [← hleft]
      exact blkIndex_blockAddr hfits hleftFits.1 hleftFits.2
    obtain ⟨free', hrep', hunits, hsame⟩ := hrep.halve hfits mem_cons_self hpos
    rw [erase_cons_head] at hrep' hunits
    obtain ⟨c, free'', hclevel, hcaddr, hcrep, hcunits, hcsame⟩ :=
      ih hrep' (by simp only [Block.left]; omega)
    refine ⟨c, free'', ?_, hcaddr.trans hleft, ?_⟩
    · rw [hclevel]
      simp only [Block.left]
      omega
    · simp only [Heap.splitFrom]
      rw [blkIndex_blockAddr hfits hlevel.le hindex, hleftIndex, ← hright]
      rw [hleft] at hcrep hcsame
      exact ⟨hcrep, hcunits.trans hunits, hsame.trans hcsame⟩

/-- The first loop of `bd_malloc` stops at the first size with a free block, or behind the last one.
-/
theorem findSize_spec (s : State) (rounds : Nat) {k : Nat} (hrounds : h.nsizes ≤ k + rounds) :
    k ≤ h.findSize s rounds k ∧ (h.findSize s rounds k < h.nsizes →
        s.list.isEmpty (h.list (h.findSize s rounds k)) = false) ∧
      ∀ j, k ≤ j → j < h.findSize s rounds k → s.list.isEmpty (h.list j) = true := by
  induction rounds generalizing k with
  | zero =>
    refine ⟨le_refl k, fun hlt => absurd hlt (not_lt.mpr hrounds), ?_⟩
    exact fun _ hj hlt => absurd hj (not_le.mpr hlt)
  | succ rounds ih =>
    unfold Heap.findSize
    by_cases hempty : Lists.lstEmpty (h.list k) s.list = true
    · rw [if_pos hempty]
      obtain ⟨hle, hfound, hpassed⟩ := ih (k := k + 1) (by omega)
      refine ⟨Nat.le_of_succ_le hle, hfound, fun j hj hlt => ?_⟩
      rcases hj.eq_or_lt with rfl | hj
      · exact hempty
      · exact hpassed j hj hlt
    · rw [if_neg hempty]
      refine ⟨le_refl k, fun _ => Bool.eq_false_iff.mpr hempty, ?_⟩
      exact fun _ hj hlt => absurd hj (not_le.mpr hlt)

section

variable {fuel fk : Nat} {nbytes : BitVec 64} (hfits : h.Fits reserved)
  (hrep : Rep h reserved s free handed) (hfirst : firstk fuel nbytes = some fk)
include hfits hrep hfirst

/-- `bd_malloc` returns a block of the size that `firstk` chooses, or `0`. -/
theorem bdMalloc_spec : ∃ p s', h.bdMalloc fuel nbytes s = some (p, s') ∧ (p = 0 ∧ s' = s ∨
        ∃ b free', b.level = fk ∧ p = h.blockAddr b ∧ Rep h reserved s' free' (b :: handed) ∧
          units h free' (b :: handed) = units h free handed ∧ SameOutside h s s') := by
  obtain ⟨hle, hfound, -⟩ := findSize_spec (h := h) s (h.nsizes - fk) (k := fk) (by omega)
  simp only [Heap.bdMalloc, hfirst]
  by_cases hnone : h.findSize s (h.nsizes - fk) fk ≥ h.nsizes
  · rw [if_pos hnone]
    exact ⟨0, s, rfl, .inl ⟨rfl, rfl⟩⟩
  · rw [if_neg hnone]
    have hlt := not_le.mp hnone
    obtain ⟨b, free', hlevel, hpop, hrep', hunits, hsame⟩ := hrep.pop hfits hlt (hfound hlt)
    obtain ⟨hblevel, hbindex⟩ := hrep'.handed_range mem_cons_self
    rw [← hlevel] at hpop hle ⊢
    rw [hpop]
    obtain ⟨c, free'', hclevel, hcaddr, hcrep, hcunits, hcsame⟩ :=
      splitFrom_spec hfits (b.level - fk) hrep' (Nat.sub_le _ _)
    refine ⟨_, _, rfl, .inr ⟨c, free'', by omega, hcaddr.symm, ?_⟩⟩
    rw [blkIndex_blockAddr hfits hblevel.le hbindex]
    exact ⟨hcrep, hcunits.trans hunits, hsame.trans hcsame⟩

/-- `bd_malloc` fails only if all free blocks are too small. -/
theorem Rep.lt_of_bdMalloc_zero {s' : State} (hfail : h.bdMalloc fuel nbytes s = some (0, s'))
    (hfree : b.index ∈ free b.level) : b.level < fk := by
  obtain ⟨-, hfound, hpassed⟩ := findSize_spec (h := h) s (h.nsizes - fk) (k := fk) (by omega)
  have hlevel := (hrep.free_range hfree).1
  simp only [Heap.maxSize] at hlevel
  by_cases hk : h.findSize s (h.nsizes - fk) fk < h.nsizes
  · obtain ⟨c, _, _, hpop, -⟩ := hrep.pop hfits hk (hfound hk)
    simp only [Heap.bdMalloc, hfirst, if_neg (not_le.mpr hk), hpop] at hfail
    exact absurd (Prod.mk.inj (Option.some.inj hfail)).1 (blockAddr_ne_zero hfits c)
  · by_contra hle
    have hempty := hpassed b.level (by omega) (by omega)
    rw [(hrep.rings _ (by omega)).isEmpty_iff] at hempty
    simp [Heap.addrs, ne_nil_of_mem hfree] at hempty

end

/-! ### `size` -/

section

variable (hfits : h.Fits reserved) (hrep : Rep h reserved s free handed) (hb : b ∈ handed)
include hfits hrep hb

/-- The index, at some size, of the block that holds a block's first byte. -/
theorem blkIndex_at (k : Nat) :
    h.blkIndex k (h.blockAddr b) = b.index * BLK_SIZE b.level / BLK_SIZE k := by
  obtain ⟨hlevel, hindex⟩ := hrep.handed_range hb
  have hend := offset_lt hlevel.le hindex
  have hpos := BLK_SIZE_pos b.level
  refine blkIndex_eq hfits k ?_
  rw [Nat.add_mul] at hend
  omega

/-- The loop of `size` passes the sizes below the block's own and stops there. -/
theorem sizeFrom_spec (rounds : Nat) {k : Nat} (hk : k ≤ b.level) (hrounds : b.level < k + rounds) :
    h.sizeFrom s (h.blockAddr b) rounds k = some b.level := by
  induction rounds generalizing k with
  | zero => omega
  | succ rounds ih =>
    have hlevel := (hrep.handed_range hb).1
    have hbound : k + 1 < h.nsizes := by
      simp only [Heap.maxSize] at hlevel
      omega
    unfold Heap.sizeFrom
    rw [if_pos hbound, blkIndex_at hfits hrep hb]
    rcases Nat.eq_or_lt_of_le hk with rfl | hlt
    · have hsize : BLK_SIZE (b.level + 1) = BLK_SIZE b.level * 2 := by
        rw [BLK_SIZE_add, Nat.pow_one, Nat.mul_comm]
      have hparent : bitIsset (s.split (b.level + 1)) (b.index / 2) = true := by
        have hsplit := (hrep.valid.taken b (.inl hb)).1.parent
        simp only [layout, Bool.and_eq_true] at hsplit
        exact hsplit.2
      rw [hsize, ← Nat.div_div_eq_div_mul, Nat.mul_div_cancel _ (BLK_SIZE_pos _), if_pos hparent]
    · -- a smaller block with the same first byte
      have hsum : b.level = (k + 1) + (b.level - (k + 1)) := by omega
      have hindex : b.index * BLK_SIZE b.level / BLK_SIZE (k + 1) =
          b.index * 2 ^ (b.level - (k + 1)) := by
        conv_lhs => rw [hsum, BLK_SIZE_add, ← Nat.mul_assoc]
        rw [Nat.mul_div_cancel _ (BLK_SIZE_pos _)]
      have hbelow : (⟨k + 1, b.index * 2 ^ (b.level - (k + 1))⟩ : Block).Below b :=
        ⟨hlt, Nat.mul_div_cancel _ (Nat.two_pow_pos _)⟩
      have hclear := (hrep.valid.clear b (.inr (.inl hb)) _ hbelow).1
      have hbit : bitIsset (s.split (k + 1)) (b.index * 2 ^ (b.level - (k + 1))) = false := by
        simpa [layout, marks] using hclear
      rw [hindex, hbit, if_neg Bool.false_ne_true]
      exact ih hlt (by omega)

theorem size_spec : h.size s (h.blockAddr b) = some b.level := by
  have hlevel := (hrep.handed_range hb).1
  refine sizeFrom_spec hfits hrep hb h.nsizes (Nat.zero_le _) ?_
  simp only [Heap.maxSize] at hlevel
  omega

end

/-! ### `bd_free` -/

/-- The loop of `bd_free` merges the block with free buddies until one is allocated. -/
theorem freeFrom_spec (hfits : h.Fits reserved) (rounds : Nat)
    (hrep : Rep h reserved s free handed) (hb : b ∈ handed)
    (hrounds : b.level + rounds = h.maxSize) :
    ∃ free', Rep h reserved (h.freeFrom rounds b.level (h.blockAddr b) s) free' (handed.erase b) ∧
      units h free' (handed.erase b) = units h free handed ∧
      SameOutside h s (h.freeFrom rounds b.level (h.blockAddr b) s) := by
  induction rounds generalizing s free handed b with
  | zero =>
    have hlevel := (hrep.handed_range hb).1
    omega
  | succ rounds ih =>
    obtain ⟨hlevel, hindex⟩ := hrep.handed_range hb
    have hbuddy : (if b.index % 2 = 0 then b.index + 1 else b.index - 1) = b.buddy.index := rfl
    have hbit : bitIsset ((s.clearAlloc b.level b.index).alloc b.level) b.buddy.index =
        marks s.alloc b.buddy := by
      have hmarks := congrFun (marks_clearAlloc s b) b.buddy
      rwa [Function.update_of_ne b.buddy_ne] at hmarks
    simp only [Heap.freeFrom, blkIndex_blockAddr hfits hlevel.le hindex, hbuddy, hbit]
    cases hmark : marks s.alloc b.buddy with
    | true => exact hrep.release hfits hb hmark
    | false =>
      -- at the largest size the buddy is allocated, since it holds the metadata
      have htop : b.parent.level < h.maxSize := by
        by_contra hnot
        have heq : b.level + 1 = h.maxSize := by
          simp only [Block.parent] at hnot
          omega
        have halloc := hrep.valid.buddy_alloc_of_top (fun _ => rfl)
          (hfits.sizes 0 hfits.nsizes_pos) hb heq
        simpa using hmark.symm.trans halloc
      obtain ⟨free', hrep', hunits, hsame⟩ := hrep.join hfits hb hmark htop
      obtain ⟨hplevel, hpindex⟩ := hrep'.handed_range mem_cons_self
      obtain ⟨free'', hrep'', hunits', hsame'⟩ := ih hrep' mem_cons_self
        (by simp only [Block.parent]; omega)
      rw [erase_cons_head] at hrep'' hunits'
      have haddr : h.addr b.level b.buddy.index = h.blockAddr b.buddy :=
        addr_eq_blockAddr hfits hlevel.le (hrep.buddy_range hb)
      have hparent : h.blkIndex (b.level + 1) (h.blockAddr b.parent) = b.parent.index :=
        blkIndex_blockAddr hfits hplevel.le hpindex
      rw [haddr, ← blockAddr_parent, hparent]
      exact ⟨free'', hrep'', hunits'.trans hunits, hsame.trans hsame'⟩

theorem bdFree_spec (hfits : h.Fits reserved) (hrep : Rep h reserved s free handed)
    (hb : b ∈ handed) :
    ∃ s' free', h.bdFree (h.blockAddr b) s = some s' ∧ Rep h reserved s' free' (handed.erase b) ∧
      units h free' (handed.erase b) = units h free handed ∧ SameOutside h s s' := by
  have hlevel := (hrep.handed_range hb).1
  obtain ⟨free', hrep', hunits⟩ := freeFrom_spec hfits (h.maxSize - b.level) hrep hb (by omega)
  refine ⟨_, free', ?_, hrep', hunits⟩
  rw [Heap.bdFree, size_spec hfits hrep hb]
  rfl

end Xv6.Buddy
