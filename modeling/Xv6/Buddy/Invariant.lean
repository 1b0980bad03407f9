import Mathlib.Tactic.Linarith
import Xv6.Buddy.Code
import Xv6.Dyadic.Steps

/-!
# The buddy allocator against the abstract buddy system

The bit vectors and lists in memory stand for a `Dyadic.Layout`: the marks are the bits, and the
list of each size holds the addresses of the free blocks of this size. The small functions of the
source are related to blocks here; `Rep` is the invariant.
-/

namespace Xv6.Buddy

open Circular Dyadic Function List BitVec

/-! ### Bits -/

section

variable (array : Nat → BitVec 8)
include array

theorem bitIsset_eq (index : Nat) :
    bitIsset array index = (array (index / 8)).getLsbD (index % 8) := by
  have hlt : index % 8 < 8 := Nat.mod_lt _ (by decide)
  have hne : (0 : BitVec 8) ≠ BitVec.twoPow 8 (index % 8) := by
    intro heq
    have hbit := congrArg (fun x => x.getLsbD (index % 8)) heq
    simp [hlt] at hbit
  have hand := and_twoPow (array (index / 8)) (index % 8)
  have htwo : 1#8 <<< (index % 8) = BitVec.twoPow 8 (index % 8) := rfl
  simp only [bitIsset, htwo, hand]
  cases hbit : (array (index / 8)).getLsbD (index % 8) with
  | true => simp
  | false => simpa using hne

/-- A byte of which one bit changes. -/
theorem bitIsset_update (i : Nat) {byte : BitVec 8} {value : Bool} (hsame : ∀ k < 8,
      byte.getLsbD k = if i % 8 = k then value else (array (i / 8)).getLsbD k) :
    bitIsset (update array (i / 8) byte) = update (bitIsset array) i value := by
  funext j
  rw [update_apply, bitIsset_eq, bitIsset_eq, update_apply]
  by_cases hbyte : j / 8 = i / 8
  · rw [if_pos hbyte, hbyte, hsame _ (Nat.mod_lt _ (by decide))]
    by_cases hbit : j = i
    · rw [if_pos hbit, hbit, if_pos rfl]
    · rw [if_neg hbit, if_neg (by omega)]
  · have hne : j ≠ i := fun heq => hbyte (heq ▸ rfl)
    rw [if_neg hbyte, if_neg hne]

theorem bitIsset_bitSet (i : Nat) : bitIsset (bitSet array i) = update (bitIsset array) i true := by
  refine bitIsset_update array i fun k hk => ?_
  rw [getLsbD_or, show 1#8 <<< (i % 8) = BitVec.twoPow 8 (i % 8) from rfl, getLsbD_twoPow]
  split <;> simp_all

theorem bitIsset_bitClear (i : Nat) :
    bitIsset (bitClear array i) = update (bitIsset array) i false := by
  refine bitIsset_update array i fun k hk => ?_
  rw [getLsbD_and, getLsbD_not, show 1#8 <<< (i % 8) = BitVec.twoPow 8 (i % 8) from rfl,
    getLsbD_twoPow]
  split <;> simp_all

end

/-! ### Sizes -/

variable {k : Nat}

theorem double_blkSize (k : Nat) :
    BitVec.ofNat 64 (BLK_SIZE k) * 2 = BitVec.ofNat 64 (BLK_SIZE (k + 1)) := by
  have hsize : BLK_SIZE (k + 1) = BLK_SIZE k * 2 := by
    simp only [BLK_SIZE, pow_succ]
    ring
  rw [hsize, ofNat_mul]
  rfl

/-- The loop of `firstk` after some rounds. -/
theorem firstkLoop_spec {n : BitVec 64} (hn : n.toNat ≤ 2 ^ 63) (fuel : Nat) (hk : k + fuel = 64)
    (hsmall : ∀ j < k, BLK_SIZE j < n.toNat) :
    ∃ first, firstkLoop n fuel k (.ofNat 64 (BLK_SIZE k)) = some first ∧
      n.toNat ≤ BLK_SIZE first ∧ ∀ j < first, BLK_SIZE j < n.toNat := by
  induction fuel generalizing k with
  | zero =>
    -- sixty-four doublings would exceed `n`
    have hlast := hsmall 60 (by omega)
    simp only [BLK_SIZE, LEAF_SIZE] at hlast
    omega
  | succ fuel ih =>
    have hle : BLK_SIZE k ≤ 2 ^ 63 := by
      by_contra hbig
      simp only [BLK_SIZE, LEAF_SIZE] at hbig hsmall
      have hpow : 59 < k := (Nat.pow_lt_pow_iff_right Nat.one_lt_two).mp (by omega)
      have hlast := hsmall 59 hpow
      omega
    have hsize : (BitVec.ofNat 64 (BLK_SIZE k)).toNat = BLK_SIZE k := Nat.mod_eq_of_lt (by omega)
    simp only [firstkLoop, lt_def, hsize, double_blkSize]
    by_cases hlt : BLK_SIZE k < n.toNat
    · rw [if_pos hlt]
      refine ih (by omega) fun j hj => ?_
      rcases Nat.lt_succ_iff_lt_or_eq.mp hj with hj | rfl
      · exact hsmall j hj
      · exact hlt
    · rw [if_neg hlt]
      exact ⟨k, rfl, not_lt.mp hlt, hsmall⟩

/-- `firstk` ends for `n ≤ 2 ^ 63` and returns the least size that is large enough. -/
theorem firstk_spec {n : BitVec 64} (hn : n.toNat ≤ 2 ^ 63) :
    firstk 64 n = some (sizeFor n) ∧ n.toNat ≤ BLK_SIZE (sizeFor n) ∧
      ∀ j < sizeFor n, BLK_SIZE j < n.toNat := by
  obtain ⟨first, hloop, hfirst⟩ := firstkLoop_spec hn 64 rfl nofun
  have hfirstk : firstk 64 n = some first := hloop
  have hsize : sizeFor n = first := by rw [sizeFor, hfirstk, Option.getD_some]
  rw [hsize]
  exact ⟨hfirstk, hfirst⟩

/-! ### Addresses -/

/-- The address of a block. -/
def Heap.blockAddr (h : Heap) (b : Block) : Nat := h.base + b.index * BLK_SIZE b.level

/-- A heap whose offsets fit an `int`, with the array `bd_sizes` in reserved blocks at its start. -/
structure Heap.Fits (h : Heap) (reserved : Set Block) : Prop where
  base_pos : 0 < h.base
  nsizes_pos : 0 < h.nsizes
  size_le : BLK_SIZE h.maxSize ≤ 2 ^ 31
  sizes : ∀ k < h.nsizes, (⟨0, 2 * k⟩ : Block) ∈ reserved

variable {h : Heap} {reserved : Set Block}

theorem BLK_SIZE_pos (k : Nat) : 0 < BLK_SIZE k := mul_pos (Nat.two_pow_pos k) (by decide)

theorem BLK_SIZE_add (j k : Nat) : BLK_SIZE (j + k) = 2 ^ k * BLK_SIZE j := by
  simp only [BLK_SIZE, pow_add]
  ring

theorem int_of_lt {x : Nat} (hx : x < 2 ^ 31) : int x = x := by
  unfold int
  rw [Int.bmod_eq_of_le] <;> omega

variable {b : Block}

section

variable (hfits : h.Fits reserved) (hlevel : b.level ≤ h.maxSize)
  (hindex : b.index < 2 ^ (h.maxSize - b.level))

include hlevel hindex in
theorem offset_lt : (b.index + 1) * BLK_SIZE b.level ≤ BLK_SIZE h.maxSize := by
  have hsum : h.maxSize = b.level + (h.maxSize - b.level) := by omega
  calc (b.index + 1) * BLK_SIZE b.level
      ≤ 2 ^ (h.maxSize - b.level) * BLK_SIZE b.level := Nat.mul_le_mul_right _ hindex
    _ = BLK_SIZE h.maxSize := by rw [← BLK_SIZE_add, ← hsum]

include hfits

theorem blockAddr_ne_zero (b : Block) : h.blockAddr b ≠ 0 := by
  have hbase := hfits.base_pos
  simp only [Heap.blockAddr]
  omega

theorem blkIndex_eq {offset : Nat} (k : Nat) (hlt : offset < BLK_SIZE h.maxSize) :
    h.blkIndex k (h.base + offset) = offset / BLK_SIZE k := by
  have hsmall : offset < 2 ^ 31 := hlt.trans_le hfits.size_le
  have hdiff : ((h.base + offset : Nat) : Int) - h.base = (offset : Nat) := by
    push_cast
    ring
  have hquot : offset / BLK_SIZE k < 2 ^ 31 := (Nat.div_le_self _ _).trans_lt hsmall
  unfold Heap.blkIndex
  rw [hdiff, int_of_lt hsmall, ← Int.ofNat_tdiv, int_of_lt hquot, Int.toNat_natCast]

include hlevel hindex

theorem blkIndex_blockAddr : h.blkIndex b.level (h.blockAddr b) = b.index := by
  have hend := offset_lt hlevel hindex
  have hpos := BLK_SIZE_pos b.level
  rw [Heap.blockAddr, blkIndex_eq hfits b.level (by rw [Nat.add_mul] at hend; omega),
    Nat.mul_div_cancel _ hpos]

theorem addr_eq_blockAddr : h.addr b.level b.index = h.blockAddr b := by
  have hend := offset_lt hlevel hindex
  have hpos := BLK_SIZE_pos b.level
  have hsize := hfits.size_le
  have hsmall : b.index * BLK_SIZE b.level < 2 ^ 31 := by
    rw [Nat.add_mul] at hend
    omega
  have hint : int (b.index * BLK_SIZE b.level) = (b.index * BLK_SIZE b.level : Nat) := by
    exact int_of_lt hsmall
  unfold Heap.addr Heap.blockAddr
  rw [hint, ← Nat.cast_add, Int.toNat_natCast]

end

/-- The lower half of a block starts where the block starts, the upper one behind it. -/
theorem blockAddr_halves (hpos : 0 < b.level) : h.blockAddr b.left = h.blockAddr b ∧
      h.blockAddr b.right = h.blockAddr b + BLK_SIZE (b.level - 1) := by
  have hsize : BLK_SIZE b.level = 2 * BLK_SIZE (b.level - 1) := by
    have hadd := BLK_SIZE_add (b.level - 1) 1
    rwa [Nat.sub_add_cancel hpos, Nat.pow_one] at hadd
  simp only [Heap.blockAddr, Block.left, Block.right, hsize]
  constructor
  · ring
  · ring

/-- A block starts where its parent starts if its index is even, and else its buddy does. -/
theorem blockAddr_parent (b : Block) :
    h.blockAddr b.parent = if b.buddy.index % 2 = 0 then h.blockAddr b.buddy
      else h.blockAddr b := by
  have hsize : BLK_SIZE (b.level + 1) = 2 * BLK_SIZE b.level := by
    rw [BLK_SIZE_add, Nat.pow_one]
  by_cases heven : b.index % 2 = 0
  · have hbuddy : b.buddy.index = b.index + 1 := if_pos heven
    have hindex : b.index = 2 * (b.index / 2) := by omega
    rw [if_neg (by omega)]
    simp only [Heap.blockAddr, Block.parent, hsize]
    conv_rhs => rw [hindex]
    ring
  · have hbuddy : b.buddy.index = 2 * (b.index / 2) := by
      have hsub : b.buddy.index = b.index - 1 := if_neg heven
      omega
    rw [if_pos (by omega)]
    simp only [Heap.blockAddr, Block.parent, hsize, hbuddy]
    simp only [Block.buddy]
    ring

/-! ### The layout in memory -/

/-- The marks that bit vectors stand for. -/
def marks (arrays : Nat → Nat → BitVec 8) (b : Block) : Bool := bitIsset (arrays b.level) b.index

/-- The layout that a state stands for. Blocks of size zero are never split. -/
def layout (s : State) (free : Nat → List Nat) (handed : List Block) : Layout where
  alloc := marks s.alloc
  split := fun b => 0 < b.level && marks s.split b
  free := free
  handed := handed

theorem marks_update {arrays : Nat → Nat → BitVec 8} {array : Nat → BitVec 8} {value : Bool}
    (harray : bitIsset array = update (bitIsset (arrays b.level)) b.index value) :
    marks (update arrays b.level array) = update (marks arrays) b value := by
  funext c
  rw [update_apply]
  simp only [marks]
  by_cases hlevel : c.level = b.level
  · rw [hlevel, update_self, harray, update_apply]
    by_cases hindex : c.index = b.index
    · rw [if_pos hindex, if_pos (Layout.eq_mk hlevel hindex)]
    · rw [if_neg hindex, if_neg fun heq : c = b => hindex (congrArg Block.index heq)]
  · rw [update_of_ne hlevel, if_neg fun heq : c = b => hlevel (congrArg Block.level heq)]

theorem marks_setAlloc (s : State) (b : Block) :
    marks (s.setAlloc b.level b.index).alloc = update (marks s.alloc) b true :=
  marks_update (bitIsset_bitSet _ _)

theorem marks_clearAlloc (s : State) (b : Block) :
    marks (s.clearAlloc b.level b.index).alloc = update (marks s.alloc) b false :=
  marks_update (bitIsset_bitClear _ _)

theorem splitMarks_update {split split' : Block → Bool} {value : Bool}
    (hpos : 0 < b.level) (hsplit : split' = update split b value) :
    (fun c : Block => decide (0 < c.level) && split' c) =
      update (fun c : Block => decide (0 < c.level) && split c) b value := by
  funext c
  rw [hsplit, update_apply, update_apply]
  by_cases hc : c = b
  · rw [if_pos hc, if_pos hc, hc]
    simp [hpos]
  · rw [if_neg hc, if_neg hc]

theorem splitMarks_setSplit (s : State) (hpos : 0 < b.level) :
    (fun c : Block => decide (0 < c.level) && marks (s.setSplit b.level b.index).split c) =
      update (fun c : Block => decide (0 < c.level) && marks s.split c) b true :=
  splitMarks_update hpos (marks_update (bitIsset_bitSet _ _))

theorem splitMarks_clearSplit (s : State) (hpos : 0 < b.level) :
    (fun c : Block => decide (0 < c.level) && marks (s.clearSplit b.level b.index).split c) =
      update (fun c : Block => decide (0 < c.level) && marks s.split c) b false :=
  splitMarks_update hpos (marks_update (bitIsset_bitClear _ _))

/-! ### The lists in memory -/

/-- The addresses of the free blocks of size `k`. -/
def Heap.addrs (h : Heap) (k : Nat) (free : List Nat) : List Nat :=
  free.map fun i => h.blockAddr ⟨k, i⟩

/-- The list of each size holds the addresses of its free blocks. -/
def Rings (h : Heap) (m : Pointers Nat) (free : Nat → List Nat) : Prop :=
  ∀ k < h.nsizes, Ring m (h.list k) (h.addrs k (free k))

theorem list_inj {j k : Nat} (heq : h.list j = h.list k) : j = k := by
  simp only [Heap.list, szInfoSize] at heq
  omega

variable {m : Pointers Nat} {free : Nat → List Nat}

theorem Rings.of_family {xs : List Nat}
    (hk : k < h.nsizes) (hfamily : Family m (fun k : Fin h.nsizes => h.list k)
      (update (fun j : Fin h.nsizes => h.addrs j (free j)) ⟨k, hk⟩ (h.addrs k xs))) :
    Rings h m (update free k xs) := by
  intro j hj
  have hring := hfamily.ring ⟨j, hj⟩
  by_cases hjk : j = k
  · subst hjk
    simpa only [update_self] using hring
  · rw [update_of_ne fun heq => hjk (Fin.val_eq_of_eq heq)] at hring
    rwa [update_of_ne hjk]

section Nodes

variable {l : Layout} {b c : Block} (hfits : h.Fits reserved) (hvalid : Valid h.maxSize reserved l)
include hvalid

theorem blockAddr_inj (hb : l.Leaf reserved b) (hc : l.Leaf reserved c)
    (haddr : h.blockAddr b = h.blockAddr c) : b = c := by
  have hbelow : ∀ {b c : Block}, b.level ≤ c.level → h.blockAddr b = h.blockAddr c → b.Below c := by
    intro b c hle haddr
    have hsum : c.level = b.level + (c.level - b.level) := by omega
    refine ⟨hle, ?_⟩
    have hmul : b.index * BLK_SIZE b.level =
        c.index * 2 ^ (c.level - b.level) * BLK_SIZE b.level := by
      have hoffset : b.index * BLK_SIZE b.level = c.index * BLK_SIZE c.level := by
        simp only [Heap.blockAddr] at haddr
        omega
      rw [hoffset, Nat.mul_assoc, ← BLK_SIZE_add, ← hsum]
    rw [Nat.eq_of_mul_eq_mul_right (BLK_SIZE_pos _) hmul]
    exact Nat.mul_div_cancel _ (Nat.two_pow_pos _)
  rcases Nat.le_total b.level c.level with hle | hle
  · exact hvalid.eq_of_below hb hc (hbelow hle haddr)
  · exact (hvalid.eq_of_below hc hb (hbelow hle haddr.symm)).symm

include hfits

theorem list_ne_blockAddr (hk : k < h.nsizes) (hb : b.index ∈ l.free b.level) :
    h.list k ≠ h.blockAddr b := by
  intro haddr
  have hmem := hfits.sizes k hk
  have hhead : h.blockAddr ⟨0, 2 * k⟩ = h.list k := by
    simp only [Heap.blockAddr, Heap.list, BLK_SIZE, LEAF_SIZE, szInfoSize]
    ring
  have heq := blockAddr_inj hvalid (.inr (.inr hmem)) (.inl hb) (hhead.trans haddr)
  exact hvalid.not_taken_of_free hb (.inr (heq ▸ hmem))

theorem nodes_disjoint {j x : Nat} (hj : j < h.nsizes) (hk : k < h.nsizes) (hjk : j ≠ k)
    (hx : x ∈ h.list j :: h.addrs j (l.free j)) : x ∉ h.list k :: h.addrs k (l.free k) := by
  intro hx'
  rcases mem_cons.mp hx with rfl | hx
  · rcases mem_cons.mp hx' with heq | hx'
    · exact hjk (list_inj heq)
    · obtain ⟨i, hi, heq⟩ := mem_map.mp hx'
      exact list_ne_blockAddr hfits hvalid hj hi heq.symm
  · obtain ⟨i, hi, rfl⟩ := mem_map.mp hx
    rcases mem_cons.mp hx' with heq | hx'
    · exact list_ne_blockAddr hfits hvalid hk hi heq.symm
    · obtain ⟨i', hi', heq⟩ := mem_map.mp hx'
      have hsame := blockAddr_inj hvalid (.inl hi') (.inl hi) heq
      exact hjk (congrArg Block.level hsame).symm

/-- The lists of the sizes as one family. -/
theorem Rings.family (hrings : Rings h m free) (hold : ∀ k, free k ⊆ l.free k) :
    Family m (fun k : Fin h.nsizes => h.list k) fun k => h.addrs k (free k) where
  ring := fun k => hrings k k.isLt
  apart := by
    intro j k hjk x hx hx'
    have hgrow : ∀ k : Fin h.nsizes, h.list k :: h.addrs k (free k) ⊆
        h.list k :: h.addrs k (l.free k) :=
      fun k => cons_subset_cons _ (map_subset _ (hold k))
    exact nodes_disjoint hfits hvalid j.isLt k.isLt (fun heq => hjk (Fin.ext heq)) (hgrow j hx)
      (hgrow k hx')

theorem Rings.push (hrings : Rings h m free) (hlevel : b.level < h.nsizes)
    (hfree : l.free = update free b.level (b.index :: free b.level)) :
    Rings h (m.push (h.list b.level) (h.blockAddr b)) l.free := by
  have hb : b.index ∈ l.free b.level := by
    rw [hfree, update_self]
    exact mem_cons_self
  have hnodup := hvalid.nodup b.level
  rw [hfree, update_self, nodup_cons] at hnodup
  have hold : ∀ j, free j ⊆ l.free j := by
    rw [hfree]
    exact (forall_update_iff free fun j new => free j ⊆ new).mpr
      ⟨subset_cons_self _ _, fun j _ => List.Subset.refl _⟩
  -- the new node is in no list
  have hnew : ∀ j : Fin h.nsizes, h.blockAddr b ∉ h.list j :: h.addrs j (free j) := by
    intro j hmem
    rcases mem_cons.mp hmem with heq | hmem
    · exact list_ne_blockAddr hfits hvalid j.isLt hb heq.symm
    · obtain ⟨i, hi, heq⟩ := mem_map.mp hmem
      have hsame := blockAddr_inj hvalid (.inl (hold j hi)) (.inl hb) heq
      obtain rfl := hsame.symm
      exact hnodup.1 hi
  rw [hfree]
  exact .of_family hlevel ((hrings.family hfits hvalid hold).push ⟨b.level, hlevel⟩ hnew)

theorem Rings.remove (hrings : Rings h m l.free) (hlevel : b.level < h.nsizes)
    (hb : b.index ∈ l.free b.level) :
    Rings h (m.remove (h.blockAddr b))
      (update l.free b.level ((l.free b.level).erase b.index)) := by
  obtain ⟨before, after, hsplit⟩ := append_of_mem hb
  have hnodup := hvalid.nodup b.level
  rw [hsplit, nodup_append] at hnodup
  have hnot : b.index ∉ before := fun hin => hnodup.2.2 _ hin _ mem_cons_self rfl
  have haddrs : (fun k : Fin h.nsizes => h.addrs k (l.free k)) ⟨b.level, hlevel⟩ =
      h.addrs b.level before ++ h.blockAddr b :: h.addrs b.level after := by
    simp only [hsplit, Heap.addrs, map_append, map_cons]
  have hfamily := hrings.family hfits hvalid fun k => List.Subset.refl (l.free k)
  have hremoved := hfamily.remove haddrs
  rw [Heap.addrs, Heap.addrs, ← map_append] at hremoved
  rw [hsplit, erase_append_right _ hnot, erase_cons_head]
  exact .of_family hlevel hremoved

end Nodes

/-- The state of the allocator: its lists and marks are those of a valid layout. -/
structure Rep (h : Heap) (reserved : Set Block) (s : State) (free : Nat → List Nat)
    (handed : List Block) : Prop where
  rings : Rings h s.list free
  valid : Valid h.maxSize reserved (layout s free handed)

end Xv6.Buddy
