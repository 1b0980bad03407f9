import Mathlib.Data.List.Chain
import Mathlib.Order.CompletePartialOrder
import Mathlib.Tactic.Linarith

/-!
# Free lists as sorted lists of blocks

A block is an interval of addresses. A free list is a list of blocks in the order of their addresses
with a gap between each two. `absorb` puts a block in front of such a list and merges it with the
first one if they touch. It keeps the order and the gaps, the addresses that are covered and the
number of units.
-/

namespace Blocks

open List

/-- A block of `units` units of `unit` bytes at `addr`. -/
structure Block where
  addr : Nat
  units : Nat
  deriving DecidableEq

variable {unit : Nat}

/-- The address behind a block. -/
def Block.stop (unit : Nat) (b : Block) : Nat := b.addr + unit * b.units

/-- The addresses of a block. -/
def Block.extent (unit : Nat) (b : Block) : Set Nat := Set.Ico b.addr (b.stop unit)

/-- The addresses of all blocks of a list. -/
def extent (unit : Nat) (blocks : List Block) : Set Nat := {a | ∃ b ∈ blocks, a ∈ b.extent unit}

/-- The units of all blocks of a list. -/
def total (blocks : List Block) : Nat := (blocks.map Block.units).sum

/-- The blocks are in the order of their addresses, and no two of them touch. -/
def Separate (unit : Nat) (blocks : List Block) : Prop :=
  blocks.IsChain fun b c => b.stop unit < c.addr

/-- Put a block in front of a list, as one block with the first one if they touch. -/
def absorb (unit : Nat) (b : Block) : List Block → List Block
  | [] => [b]
  | c :: blocks =>
    if b.stop unit = c.addr then ⟨b.addr, b.units + c.units⟩ :: blocks else b :: c :: blocks

variable {b : Block} {blocks : List Block}

theorem mem_extent_cons {a : Nat} :
    a ∈ extent unit (b :: blocks) ↔ a ∈ b.extent unit ∨ a ∈ extent unit blocks := by
  simp [extent]

theorem extent_nil : extent unit [] = ∅ := by
  simp [extent]

theorem extent_cons (b : Block) (blocks : List Block) :
    extent unit (b :: blocks) = b.extent unit ∪ extent unit blocks := by
  ext a
  exact mem_extent_cons

theorem extent_append (xs ys : List Block) :
    extent unit (xs ++ ys) = extent unit xs ∪ extent unit ys := by
  induction xs with
  | nil => rw [nil_append, extent_nil, Set.empty_union]
  | cons b xs ih => rw [cons_append, extent_cons, ih, extent_cons, Set.union_assoc]

theorem total_cons (b : Block) (blocks : List Block) :
    total (b :: blocks) = b.units + total blocks := by
  simp [total]

theorem total_append (xs ys : List Block) : total (xs ++ ys) = total xs + total ys := by
  simp [total]

variable {b c : Block}

/-- Two blocks that touch cover what the one block covers that is made of them. -/
theorem extent_merge (h : b.stop unit = c.addr) :
    Block.extent unit ⟨b.addr, b.units + c.units⟩ = b.extent unit ∪ c.extent unit := by
  have hstop : Block.stop unit ⟨b.addr, b.units + c.units⟩ = c.stop unit := by
    simp only [Block.stop] at h ⊢
    rw [← h, mul_add]
    omega
  have hb : b.addr ≤ b.stop unit := Nat.le_add_right _ _
  have hc : c.addr ≤ c.stop unit := Nat.le_add_right _ _
  ext a
  simp only [Block.extent, hstop, Set.mem_union, Set.mem_Ico]
  omega

theorem extent_absorb (b : Block) (blocks : List Block) :
    extent unit (absorb unit b blocks) = b.extent unit ∪ extent unit blocks := by
  cases blocks with
  | nil =>
    show extent unit [b] = _
    rw [extent_cons]
  | cons c blocks =>
    simp only [absorb]
    split
    next htouch => rw [extent_cons, extent_merge htouch, extent_cons, Set.union_assoc]
    next => rw [extent_cons]

theorem total_absorb (b : Block) (blocks : List Block) :
    total (absorb unit b blocks) = b.units + total blocks := by
  cases blocks with
  | nil => rfl
  | cons c blocks =>
    simp only [absorb]
    split
    · rw [total_cons, total_cons, add_assoc]
    · rw [total_cons]

theorem length_absorb_le (unit : Nat) (b : Block) (blocks : List Block) :
    (absorb unit b blocks).length ≤ blocks.length + 1 := by
  cases blocks with
  | nil => rfl
  | cons c blocks =>
    simp only [absorb]
    split
    · simp
    · simp

/-- The first block of what `absorb` yields starts where the new block starts. -/
theorem absorb_eq_cons (unit : Nat) (b : Block) (blocks : List Block) :
    ∃ c rest, absorb unit b blocks = c :: rest ∧ c.addr = b.addr := by
  cases blocks with
  | nil => exact ⟨b, [], rfl, rfl⟩
  | cons c blocks =>
    simp only [absorb]
    split
    · exact ⟨_, blocks, rfl, rfl⟩
    · exact ⟨b, c :: blocks, rfl, rfl⟩

theorem Separate.absorb (h : Separate unit blocks)
    (hle : ∀ c ∈ blocks.head?, b.stop unit ≤ c.addr) : Separate unit (absorb unit b blocks) := by
  cases blocks with
  | nil => exact .singleton _
  | cons c blocks =>
    have hfirst := hle c (by simp)
    simp only [Blocks.absorb]
    split
    next htouch =>
      rw [Separate, isChain_cons] at h ⊢
      refine ⟨fun d hd => ?_, h.2⟩
      have hgap := h.1 d hd
      simp only [Block.stop] at htouch hgap ⊢
      rw [mul_add]
      omega
    next htouch => exact List.IsChain.cons_cons (Nat.lt_of_le_of_ne hfirst htouch) h

theorem Separate.pairwise (h : Separate unit blocks) :
    blocks.Pairwise fun b c => b.stop unit < c.addr := by
  have htrans : IsTrans Block fun b c => b.stop unit < c.addr := by
    refine ⟨fun b c d hbc hcd => ?_⟩
    have hc : c.addr ≤ c.stop unit := Nat.le_add_right _ _
    omega
  exact isChain_iff_pairwise.mp h

theorem Separate.sublist {blocks blocks' : List Block} (h : Separate unit blocks)
    (hsub : blocks'.Sublist blocks) : Separate unit blocks' :=
  (h.pairwise.sublist hsub).isChain

/-- A block that lies behind another one covers none of its addresses. -/
theorem disjoint_of_stop_le (h : b.stop unit ≤ c.addr) :
    Disjoint (b.extent unit) (c.extent unit) := by
  rw [Set.disjoint_left]
  intro a hb hc
  exact absurd (hb.2.trans_le h) (not_lt.mpr hc.1)

variable {before after : List Block}

/-- A block of a separate list covers no address of the others. -/
theorem Separate.disjoint {c : Block} (h : Separate unit (before ++ c :: after)) :
    Disjoint (c.extent unit) (extent unit (before ++ after)) := by
  have hpairwise := h.pairwise
  rw [pairwise_append, pairwise_cons] at hpairwise
  obtain ⟨-, ⟨hafter, -⟩, hbefore⟩ := hpairwise
  rw [Set.disjoint_right]
  rintro a ⟨d, hd, had⟩ hac
  rcases mem_append.mp hd with hd | hd
  · have hlt := hbefore d hd c mem_cons_self
    exact Set.disjoint_left.mp (disjoint_of_stop_le (le_of_lt hlt)) had hac
  · have hlt := hafter d hd
    exact Set.disjoint_left.mp (disjoint_of_stop_le (le_of_lt hlt)) hac had

/-- Replacing the end of a separate list by one that starts at the same address. -/
theorem Separate.replace {before after blocks : List Block} {x c : Block}
    (h : Separate unit (before ++ x :: after)) (hblocks : Separate unit (c :: blocks))
    (haddr : c.addr = x.addr) : Separate unit (before ++ c :: blocks) := by
  rw [Separate, isChain_append] at h ⊢
  refine ⟨h.1, hblocks, ?_⟩
  intro b hb d hd
  obtain rfl : c = d := by simpa using hd
  rw [haddr]
  exact h.2.2 b hb x (by simp)

/-- A block that does not cover the start of another one behind it ends in front of it. -/
theorem stop_le_of_disjoint (hunit : 0 < unit) (hle : b.addr ≤ c.addr)
    (hpos : 0 < c.units) (h : Disjoint (b.extent unit) (c.extent unit)) :
    b.stop unit ≤ c.addr := by
  have hlt : 0 < unit * c.units := mul_pos hunit hpos
  by_contra hgt
  have hb : c.addr ∈ b.extent unit := ⟨hle, not_le.mp hgt⟩
  have hc : c.addr ∈ c.extent unit := ⟨le_refl _, by unfold Block.stop; omega⟩
  exact Set.disjoint_left.mp h hb hc

theorem Separate.insert {x b : Block}
    (h : Separate unit (before ++ x :: after)) (hx : x.stop unit ≤ b.addr)
    (hb : ∀ y ∈ after.head?, b.stop unit ≤ y.addr) :
    Separate unit (before ++ Blocks.absorb unit x (Blocks.absorb unit b after)) := by
  have hafter : Separate unit after := (List.IsChain.right_of_append h).tail
  obtain ⟨c, rest, hc, haddr⟩ := absorb_eq_cons unit b after
  have hlast : Separate unit (Blocks.absorb unit x (Blocks.absorb unit b after)) := by
    refine (hafter.absorb hb).absorb fun d hd => ?_
    obtain rfl : c = d := by simpa [hc] using hd
    rwa [haddr]
  obtain ⟨d, rest', hd, haddr'⟩ := absorb_eq_cons unit x (Blocks.absorb unit b after)
  rw [hd] at hlast ⊢
  exact h.replace hlast haddr'

/-- What holds of all blocks that are put together holds of the blocks of `absorb`, if it holds of a
block made of two. -/
theorem forall_absorb {P : Block → Prop}
    (hmerge : ∀ c, P b → P c → P ⟨b.addr, b.units + c.units⟩) (hb : P b) (h : ∀ c ∈ blocks, P c) :
    ∀ c ∈ absorb unit b blocks, P c := by
  cases blocks with
  | nil => simpa [absorb] using hb
  | cons c blocks =>
    have hc := h c mem_cons_self
    have hrest : ∀ d ∈ blocks, P d := fun d hd => h d (mem_cons_of_mem c hd)
    simp only [absorb]
    split
    · exact forall_mem_cons.mpr ⟨hmerge c hb hc, hrest⟩
    · exact forall_mem_cons.mpr ⟨hb, h⟩

/-- Each block is part of one of the blocks that `absorb` yields. -/
theorem exists_le_absorb (unit : Nat) (hc : c = b ∨ c ∈ blocks) :
    ∃ d ∈ absorb unit b blocks, c.units ≤ d.units := by
  cases blocks with
  | nil =>
    obtain rfl : c = b := by simpa using hc
    exact ⟨c, mem_cons_self, le_refl _⟩
  | cons first blocks =>
    simp only [absorb]
    split
    · rcases hc with rfl | hc
      · exact ⟨_, mem_cons_self, Nat.le_add_right _ _⟩
      · rcases mem_cons.mp hc with rfl | hc
        · exact ⟨_, mem_cons_self, Nat.le_add_left _ _⟩
        · exact ⟨c, mem_cons_of_mem _ hc, le_refl _⟩
    · rcases hc with rfl | hc
      · exact ⟨c, mem_cons_self, le_refl _⟩
      · exact ⟨c, mem_cons_of_mem _ hc, le_refl _⟩

theorem addr_mem_extent (hunit : 0 < unit) (h : 0 < b.units) : b.addr ∈ b.extent unit := by
  have hpos : 0 < unit * b.units := mul_pos hunit h
  exact ⟨le_refl _, by unfold Block.stop; omega⟩

theorem extent_subset (h : b ∈ blocks) :
    b.extent unit ⊆ extent unit blocks := fun _ ha => ⟨b, h, ha⟩

section Insert

variable (unit) (before after : List Block) (x b : Block)

/-- A block that is put in its place covers its addresses in addition. -/
theorem extent_insert : extent unit (before ++ absorb unit x (absorb unit b after)) =
      extent unit (before ++ x :: after) ∪ b.extent unit := by
  rw [extent_append, extent_absorb, extent_absorb, extent_append, extent_cons]
  ext a
  simp only [Set.mem_union]
  tauto

theorem total_insert : total (before ++ absorb unit x (absorb unit b after)) =
      total (before ++ x :: after) + b.units := by
  rw [total_append, total_absorb, total_absorb, total_append, total_cons]
  omega

/-- A block that is put in its place becomes part of a block that is not smaller. -/
theorem exists_le_insert :
    ∃ c ∈ before ++ absorb unit x (absorb unit b after), b.units ≤ c.units := by
  obtain ⟨c, hc, hbc⟩ := exists_le_absorb unit (show b = b ∨ b ∈ after from .inl rfl)
  obtain ⟨d, hd, hcd⟩ := exists_le_absorb unit (show c = x ∨ _ from .inr hc)
  exact ⟨d, mem_append_right _ hd, hbc.trans hcd⟩

theorem length_insert_le : (before ++ absorb unit x (absorb unit b after)).length ≤
      (before ++ x :: after).length + 1 := by
  have hfirst := length_absorb_le unit b after
  have hsecond := length_absorb_le unit x (absorb unit b after)
  simp only [length_append, length_cons]
  omega

end Insert

/-- A block that starts in a list of separate blocks has its place behind one of them. -/
theorem exists_split (blocks : List Block) {first : Block} {a : Nat} (hfirst : first.addr < a) :
    ∃ before x after, first :: blocks = before ++ x :: after ∧ x.addr < a ∧
      ∀ y ∈ after.head?, a ≤ y.addr := by
  induction blocks generalizing first with
  | nil => exact ⟨[], first, [], rfl, hfirst, fun y hy => by simp at hy⟩
  | cons second blocks ih =>
    by_cases hsecond : second.addr < a
    · obtain ⟨before, x, after, hsplit, hx, hafter⟩ := ih hsecond
      exact ⟨first :: before, x, after, by rw [hsplit]; rfl, hx, hafter⟩
    · refine ⟨[], first, second :: blocks, rfl, hfirst, ?_⟩
      intro y hy
      obtain rfl : second = y := by simpa using hy
      omega

end Blocks
