import Mathlib.Algebra.BigOperators.Intervals
import Mathlib.Tactic.Ring

/-!
# Buddy systems

Blocks of a memory of `2 ^ height` units: the block with level `k` and index `i` has the `2 ^ k`
units from `2 ^ k * i` on, and is the parent of two blocks of level `k - 1`. A buddy system keeps
one mark for blocks that are allocated, one for blocks that are split, and a list of free blocks for
each level. `Valid` says how these fit together; `take`, `halve`, `join` and `release` are the
elementary steps of allocating and freeing, and each of them keeps `Valid` and the number of units
that are free or handed out.
-/

namespace Dyadic

/-- A block: its level and its number among the blocks of this level. -/
structure Block where
  level : Nat
  index : Nat
  deriving DecidableEq

namespace Block

/-- The block of which this one is a half. -/
def parent (b : Block) : Block := ⟨b.level + 1, b.index / 2⟩

/-- The other half of the parent. -/
def buddy (b : Block) : Block := ⟨b.level, if b.index % 2 = 0 then b.index + 1 else b.index - 1⟩

/-- `b` is `c` or a part of it. -/
def Below (b c : Block) : Prop := b.level ≤ c.level ∧ b.index / 2 ^ (c.level - b.level) = c.index

instance (b c : Block) : Decidable (b.Below c) := inferInstanceAs (Decidable (_ ∧ _))

theorem Below.refl (b : Block) : b.Below b := ⟨le_refl _, by simp⟩

theorem Below.trans {a b c : Block} (hab : a.Below b) (hbc : b.Below c) : a.Below c := by
  refine ⟨hab.1.trans hbc.1, ?_⟩
  have hsum : c.level - a.level = (b.level - a.level) + (c.level - b.level) := by
    have := hab.1
    have := hbc.1
    omega
  rw [hsum, pow_add, ← Nat.div_div_eq_div_mul, hab.2, hbc.2]

theorem below_parent (b : Block) : b.Below b.parent := ⟨Nat.le_succ _, by simp [parent]⟩

theorem Below.parent {b c : Block} (h : b.Below c) (hne : b ≠ c) : b.parent.Below c := by
  have hlevel : b.level ≠ c.level := by
    intro heq
    apply hne
    have hindex := h.2
    rw [heq, Nat.sub_self, Nat.pow_zero, Nat.div_one] at hindex
    cases b
    cases c
    simp_all
  have hle := h.1
  refine ⟨by simp only [Block.parent]; omega, ?_⟩
  have hsum : c.level - b.level = 1 + (c.level - (b.level + 1)) := by omega
  have hindex := h.2
  rwa [hsum, pow_add, Nat.pow_one, ← Nat.div_div_eq_div_mul] at hindex

theorem buddy_level (b : Block) : b.buddy.level = b.level := rfl

theorem buddy_parent (b : Block) : b.buddy.parent = b.parent := by
  simp only [buddy, parent, Block.mk.injEq, true_and]
  split <;> omega

theorem buddy_ne (b : Block) : b.buddy ≠ b := by
  intro heq
  have hindex := congrArg Block.index heq
  simp only [buddy] at hindex
  split at hindex <;> omega

/-- A parent has two halves. -/
theorem eq_or_eq_buddy {b c : Block} (h : c.parent = b.parent) : c = b ∨ c = b.buddy := by
  obtain ⟨k, i⟩ := b
  obtain ⟨k', j⟩ := c
  simp only [parent, Block.mk.injEq, Nat.add_right_cancel_iff] at h
  simp only [buddy, Block.mk.injEq]
  split <;> omega

variable {height : Nat} {b c d : Block}

/-- The block lies in a memory of `2 ^ height` units. -/
def Fits (height : Nat) (b : Block) : Prop := b.level ≤ height ∧ b.index < 2 ^ (height - b.level)

/-- A proper part. -/
def Inside (b c : Block) : Prop := b.Below c ∧ b ≠ c

theorem Below.eq_of_level (h : b.Below c) (h' : c.level ≤ b.level) : b = c := by
  by_contra hne
  have hlevel := (h.parent hne).1
  simp only [Block.parent] at hlevel
  omega

theorem Below.antisymm (h : b.Below c) (h' : c.Below b) : b = c := h.eq_of_level h'.1

theorem Inside.trans (h : b.Inside c) (h' : c.Below d) : b.Inside d :=
  ⟨h.1.trans h', fun heq => h.2 (h.1.antisymm (heq ▸ h'))⟩

theorem Below.inside (h : b.Below c) (h' : c.Inside d) : b.Inside d :=
  ⟨h.trans h'.1, fun heq => h'.2 (h'.1.antisymm (heq ▸ h))⟩

theorem inside_parent (b : Block) : b.Inside b.parent := by
  refine ⟨b.below_parent, fun heq => ?_⟩
  have hlevel := congrArg level heq
  simp only [parent] at hlevel
  omega

theorem Fits.of_below (h : c.Fits height) (hbelow : b.Below c) : b.Fits height := by
  obtain ⟨hlevel, hindex⟩ := h
  obtain ⟨hle, heq⟩ := hbelow
  have hsum : height - b.level = (height - c.level) + (c.level - b.level) := by omega
  refine ⟨hle.trans hlevel, ?_⟩
  rw [hsum, pow_add]
  exact Nat.lt_mul_of_div_lt (heq ▸ hindex) (Nat.two_pow_pos _)

theorem Fits.parent (h : b.Fits height) (hlevel : b.level < height) : b.parent.Fits height := by
  obtain ⟨_, hindex⟩ := h
  have hsum : height - b.level = (height - (b.level + 1)) + 1 := by omega
  rw [hsum, pow_succ] at hindex
  exact ⟨hlevel, by simp only [Block.parent]; omega⟩

theorem Fits.buddy (h : b.Fits height) (hlevel : b.level < height) : b.buddy.Fits height := by
  have hbelow := b.buddy.below_parent
  rw [buddy_parent] at hbelow
  exact (h.parent hlevel).of_below hbelow

/-- What lies in the parent lies in one of its halves. -/
theorem below_half (h : d.Below b.parent) (hne : d ≠ b.parent) : d.Below b ∨ d.Below b.buddy := by
  have hle : d.level ≤ b.level := by
    have hlevel := (h.parent hne).1
    simp only [parent] at hlevel
    omega
  have hbelow : d.Below ⟨b.level, d.index / 2 ^ (b.level - d.level)⟩ := ⟨hle, rfl⟩
  have hparent : parent ⟨b.level, d.index / 2 ^ (b.level - d.level)⟩ = b.parent := by
    have hindex := h.2
    have hsum : b.level + 1 - d.level = (b.level - d.level) + 1 := by omega
    simp only [parent, Block.mk.injEq, true_and] at hindex ⊢
    rw [← hindex, hsum, pow_succ, Nat.div_div_eq_div_mul]
  rcases eq_or_eq_buddy hparent with heq | heq
  · exact .inl (heq ▸ hbelow)
  · exact .inr (heq ▸ hbelow)

end Block

/-- The marks, the free lists and the blocks that are handed out. -/
structure Layout where
  alloc : Block → Bool
  split : Block → Bool
  free : Nat → List Nat
  handed : List Block

variable {height : Nat} {reserved : Set Block} {l : Layout} {b c : Block}

/-- The block is a half of a split block. -/
structure Layout.Placed (height : Nat) (l : Layout) (b : Block) : Prop where
  level_lt : b.level < height
  index_lt : b.index < 2 ^ (height - b.level)
  parent : l.split b.parent = true

/-- The block is free, handed out, or never given away. -/
def Layout.Leaf (reserved : Set Block) (l : Layout) (b : Block) : Prop :=
  b.index ∈ l.free b.level ∨ b ∈ l.handed ∨ b ∈ reserved

/-- How the marks, the lists and the handed-out blocks fit together. -/
structure Valid (height : Nat) (reserved : Set Block) (l : Layout) : Prop where
  /-- The block of all units is split. -/
  root : l.split ⟨height, 0⟩ = true
  /-- A block on a free list is a half of a split block and not allocated. -/
  free : ∀ b, b.index ∈ l.free b.level → l.Placed height b ∧ l.alloc b = false
  nodup : ∀ k, (l.free k).Nodup
  /-- A block that is handed out or reserved is a half of a split block and allocated. -/
  taken : ∀ b, b ∈ l.handed ∨ b ∈ reserved → l.Placed height b ∧ l.alloc b = true
  handed_nodup : l.handed.Nodup
  apart : ∀ b ∈ l.handed, b ∉ reserved
  /-- The halves of a split block are allocated or on their free list. -/
  covered : ∀ b, l.Placed height b → l.alloc b = true ∨ b.index ∈ l.free b.level
  /-- They are not both free. -/
  merged : ∀ b, l.Placed height b → l.alloc b = true ∨ l.alloc b.buddy = true
  /-- Nothing is marked below a free, handed-out or reserved block. -/
  clear : ∀ c, l.Leaf reserved c → ∀ b, b.Below c → l.split b = false ∧ (b ≠ c → l.alloc b = false)
  /-- The other allocated blocks are split. -/
  complete : ∀ b, l.Placed height b → l.alloc b = true → l.split b = false →
    b ∈ l.handed ∨ b ∈ reserved

namespace Valid

section

variable (h : Valid height reserved l)
include h

theorem leaf_placed (hb : l.Leaf reserved b) : l.Placed height b := by
  rcases hb with hfree | htaken
  · exact (h.free b hfree).1
  · exact (h.taken b htaken).1

/-- No free, handed-out or reserved block is part of another one. -/
theorem eq_of_below (hb : l.Leaf reserved b)
    (hc : l.Leaf reserved c) (hbelow : b.Below c) : b = c := by
  by_contra hne
  have hclear := (h.clear c hc b.parent (hbelow.parent hne)).1
  rw [(h.leaf_placed hb).parent] at hclear
  cases hclear

theorem not_taken_of_free (hb : b.index ∈ l.free b.level) : ¬ (b ∈ l.handed ∨ b ∈ reserved) := by
  intro htaken
  have hfree := (h.free b hb).2
  rw [(h.taken b htaken).2] at hfree
  cases hfree

/-- A block that is not split lies in a free, handed-out or reserved block. -/
theorem exists_leaf (hfits : b.Fits height)
    (hsplit : l.split b = false) : ∃ c, l.Leaf reserved c ∧ b.Below c := by
  have hlevel := hfits.1
  -- upwards, until the parent is split
  induction hrest : height - b.level generalizing b with
  | zero =>
    obtain ⟨k, i⟩ := b
    obtain rfl : k = height := by
      simp only at hlevel hrest
      omega
    obtain rfl : i = 0 := by simpa [Block.Fits] using hfits
    rw [h.root] at hsplit
    cases hsplit
  | succ rest ih =>
    have hlt : b.level < height := by omega
    by_cases hparent : l.split b.parent = true
    · have hplaced : l.Placed height b := ⟨hlt, hfits.2, hparent⟩
      refine ⟨b, ?_, .refl b⟩
      rcases h.covered b hplaced with halloc | hfree
      · exact .inr (h.complete b hplaced halloc hsplit)
      · exact .inl hfree
    · obtain ⟨c, hc, hbelow⟩ := ih (hfits.parent hlt) (by simpa using hparent) hlt
        (by simp only [Block.parent]; omega)
      exact ⟨c, hc, b.below_parent.trans hbelow⟩

theorem placed_of_split (hlevel : b.level < height)
    (hfits : b.Fits height) (hsplit : l.split b = true) : l.Placed height b ∧ l.alloc b = true := by
  have hparent : l.split b.parent = true := by
    by_contra hnot
    obtain ⟨c, hc, hbelow⟩ := h.exists_leaf (hfits.parent hlevel) (by simpa using hnot)
    have hclear := (h.clear c hc b (b.below_parent.trans hbelow)).1
    rw [hsplit] at hclear
    cases hclear
  have hplaced : l.Placed height b := ⟨hlevel, hfits.2, hparent⟩
  refine ⟨hplaced, (h.covered b hplaced).resolve_right fun hfree => ?_⟩
  have hclear := (h.clear b (.inl hfree) b (.refl b)).1
  rw [hsplit] at hclear
  cases hclear

end

end Valid

end Dyadic
