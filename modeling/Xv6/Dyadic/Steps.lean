import Xv6.Dyadic.Marks

/-!
# The elementary steps of a buddy system

Allocating takes a block from a free list and halves it until it has the right size; freeing joins a
block with its buddy as long as that is free, and then puts it on a free list. Between the steps the
block in question counts as handed out.
-/

namespace Dyadic

open Function List Block

variable {height : Nat} {reserved : Set Block} {l : Layout} {b c : Block}

namespace Block

/-- The lower half of a block. -/
def left (b : Block) : Block := ⟨b.level - 1, 2 * b.index⟩

/-- The upper half of a block. -/
def right (b : Block) : Block := ⟨b.level - 1, 2 * b.index + 1⟩

theorem left_parent (h : 0 < b.level) : b.left.parent = b := by
  obtain ⟨k, i⟩ := b
  simp only [left, parent, Block.mk.injEq] at h ⊢
  omega

theorem right_parent (h : 0 < b.level) : b.right.parent = b := by
  obtain ⟨k, i⟩ := b
  simp only [right, parent, Block.mk.injEq] at h ⊢
  omega

theorem left_ne_right (b : Block) : b.left ≠ b.right := by
  intro heq
  have hindex := congrArg Block.index heq
  simp only [left, right] at hindex
  omega

theorem buddy_left (b : Block) : b.left.buddy = b.right := by
  simp [left, right, buddy]

theorem left_inside (h : 0 < b.level) : b.left.Inside b := by
  have hparent := b.left.inside_parent
  rwa [left_parent h] at hparent

theorem right_inside (h : 0 < b.level) : b.right.Inside b := by
  have hparent := b.right.inside_parent
  rwa [right_parent h] at hparent

theorem ne_of_level_lt (h : b.level < c.level) : b ≠ c := by
  rintro rfl
  exact absurd h (lt_irrefl _)

end Block

namespace Layout

/-- Take a block off its free list. -/
def take (l : Layout) (b : Block) : Layout where
  alloc := update l.alloc b true
  split := l.split
  free := update l.free b.level ((l.free b.level).erase b.index)
  handed := b :: l.handed

/-- Split a block in hand, keep the lower half and put the upper one on its free list. -/
def halve (l : Layout) (b : Block) : Layout where
  alloc := update l.alloc b.left true
  split := update l.split b true
  free := update l.free b.right.level (b.right.index :: l.free b.right.level)
  handed := b.left :: l.handed.erase b

/-- Take the buddy of a block in hand off its free list and make one block of the two. -/
def join (l : Layout) (b : Block) : Layout where
  alloc := update l.alloc b false
  split := update l.split b.parent false
  free := update l.free b.level ((l.free b.level).erase b.buddy.index)
  handed := b.parent :: l.handed.erase b

/-- Put a block in hand on its free list. -/
def release (l : Layout) (b : Block) : Layout where
  alloc := update l.alloc b false
  split := l.split
  free := update l.free b.level (b.index :: l.free b.level)
  handed := l.handed.erase b

variable {free : Nat → List Nat}

/-- The block is on its free list after one of the lists has changed. -/
theorem mem_update_free {k : Nat} {xs : List Nat} : c.index ∈ update free k xs c.level ↔
      (c.level = k ∧ c.index ∈ xs) ∨ (c.level ≠ k ∧ c.index ∈ free c.level) := by
  by_cases hk : c.level = k
  · subst hk
    simp
  · simp [hk]

theorem eq_mk (hlevel : b.level = c.level) (hindex : b.index = c.index) : b = c := by
  cases b
  cases c
  simp_all

theorem mem_free_cons : c.index ∈ update free b.level (b.index :: free b.level) c.level ↔
      c = b ∨ c.index ∈ free c.level := by
  rw [mem_update_free, mem_cons]
  constructor
  · rintro (⟨hlevel, hindex | hold⟩ | ⟨-, hold⟩)
    · exact .inl (eq_mk hlevel hindex)
    · exact .inr (hlevel ▸ hold)
    · exact .inr hold
  · rintro (rfl | hold)
    · exact .inl ⟨rfl, .inl rfl⟩
    · by_cases hlevel : c.level = b.level
      · exact .inl ⟨hlevel, .inr (hlevel ▸ hold)⟩
      · exact .inr ⟨hlevel, hold⟩

theorem mem_free_erase (hnodup : (free b.level).Nodup) :
    c.index ∈ update free b.level ((free b.level).erase b.index) c.level ↔
      c ≠ b ∧ c.index ∈ free c.level := by
  rw [mem_update_free, hnodup.mem_erase_iff]
  constructor
  · rintro (⟨hlevel, hindex, hold⟩ | ⟨hlevel, hold⟩)
    · exact ⟨fun heq => hindex (heq ▸ rfl), hlevel ▸ hold⟩
    · exact ⟨fun heq => hlevel (heq ▸ rfl), hold⟩
  · rintro ⟨hne, hold⟩
    by_cases hlevel : c.level = b.level
    · exact .inl ⟨hlevel, fun hindex => hne (eq_mk hlevel hindex), hlevel ▸ hold⟩
    · exact .inr ⟨hlevel, hold⟩

theorem nodup_update_free (h : ∀ k, (free k).Nodup) {k : Nat}
    {xs : List Nat} (hxs : xs.Nodup) (j : Nat) : (update free k xs j).Nodup := by
  by_cases hj : j = k
  · rwa [hj, update_self]
  · rw [update_of_ne hj]
    exact h j

variable {marks : Block → Bool}

theorem update_true : update marks b true c = true ↔ c = b ∨ marks c = true := by
  rw [update_apply]
  split <;> simp_all

theorem update_false : update marks b false c = true ↔ c ≠ b ∧ marks c = true := by
  rw [update_apply]
  split <;> simp_all

end Layout

open Layout

namespace Valid

section Steps

variable (h : Valid height reserved l) (hunits : ∀ i, l.split ⟨0, i⟩ = false)
include h hunits

/-- A free block may be taken. -/
theorem take (hb : b.index ∈ l.free b.level) : Valid height reserved (l.take b) := by
  have hm := h.marked hunits
  obtain ⟨hplaced, hnot⟩ := (hm.free b).mp hb
  have htaken : ∀ c, (l.take b).Taken reserved c ↔ c = b ∨ l.Taken reserved c := fun c => by
    rw [Taken, Taken, ← or_assoc, ← mem_cons]
    rfl
  have hmem : ∀ c : Block, c.index ∈ (l.take b).free c.level ↔ c ≠ b ∧ c.index ∈ l.free c.level :=
    fun c => mem_free_erase (h.nodup b.level)
  have halloc : ∀ c, (l.take b).alloc c = true ↔ c = b ∨ l.alloc c = true := fun c => update_true
  have hsplit : (l.take b).split = l.split := rfl
  -- Another taken block lies below the parent, and none below the block.
  obtain ⟨t, ht, hside⟩ := (hm.split _ (hplaced.fits.parent hplaced.level_lt)).mp hplaced.parent
  have hinside : ∀ c, b.Inside c → t.Inside c := fun c hc => hside.trans (hc.1.parent hc.2)
  have hbelow : ∀ c, l.Taken reserved c → ¬ c.Below b := fun c hc hcb =>
    hnot (hm.alloc_of_taken hplaced.fits hplaced.level_lt hc hcb)
  have habove : ∀ c, l.Taken reserved c → b.Below c → b = c := fun c hc hbc => by
    by_contra hne
    exact hm.not_inside (.inr hc) ht (hinside c ⟨hbc, hne⟩)
  refine Marked.valid ⟨h.root, ?_, ?_, ?_, ?_, ?_, ?_, ?_, ?_⟩
  · grind [hm.fits, hplaced.fits, hplaced.level_lt]
  · grind [hm.apart_of_below]
  · intro c hc
    simp only [hsplit, htaken, hm.split c hc]
    grind
  · grind [hm.alloc]
  · grind [hm.free, placed_iff]
  · exact nodup_update_free h.nodup ((h.nodup b.level).erase _)
  · exact nodup_cons.mpr ⟨fun hmem => h.not_taken_of_free hb (.inl hmem), h.handed_nodup⟩
  · exact forall_mem_cons.mpr ⟨fun hmem => h.not_taken_of_free hb (.inr hmem), h.apart⟩

omit hunits in
theorem taken_erase (hb : b ∈ l.handed) : (c ∈ l.handed.erase b ∨ c ∈ reserved) ↔
      c ≠ b ∧ l.Taken reserved c := by
  rw [h.handed_nodup.mem_erase_iff, Taken]
  grind [h.apart]

omit hunits in
theorem replace (hc : ¬ l.Taken reserved c) :
    (c :: l.handed.erase b).Nodup ∧ ∀ d ∈ c :: l.handed.erase b, d ∉ reserved := by
  constructor
  · refine nodup_cons.mpr ⟨fun hmem => hc (.inl (mem_of_mem_erase hmem)), ?_⟩
    exact h.handed_nodup.erase b
  · refine forall_mem_cons.mpr ⟨fun hmem => hc (.inr hmem), ?_⟩
    exact fun d hd => h.apart d (mem_of_mem_erase hd)

section

variable (hb : b ∈ l.handed)
include hb

/-- A block in hand may be halved. -/
theorem halve (hpos : 0 < b.level) : Valid height reserved (l.halve b) := by
  have hm := h.marked hunits
  obtain ⟨hfits, hlevel⟩ := hm.fits b (.inl hb)
  have htaken : ∀ c, (l.halve b).Taken reserved c ↔ c = b.left ∨ c ≠ b ∧ l.Taken reserved c :=
    fun c => by
      rw [← h.taken_erase hb, ← or_assoc, ← mem_cons]
      rfl
  have hmem : ∀ c : Block,
      c.index ∈ (l.halve b).free c.level ↔ c = b.right ∨ c.index ∈ l.free c.level :=
    fun c => mem_free_cons
  have halloc : ∀ c, (l.halve b).alloc c = true ↔ c = b.left ∨ l.alloc c = true :=
    fun c => update_true
  have hsplit : ∀ c, (l.halve b).split c = true ↔ c = b ∨ l.split c = true := fun c => update_true
  have hhalf : ∀ c : Block, c.parent = b ↔ c = b.left ∨ c = b.right := by
    intro c
    rw [← buddy_left]
    refine ⟨fun hc => eq_or_eq_buddy (hc.trans (left_parent hpos).symm), ?_⟩
    rintro (rfl | rfl)
    · exact left_parent hpos
    · rw [buddy_parent, left_parent hpos]
  have hleft : ∀ c, b.left.Inside c ↔ b.Below c := by
    refine fun c => ⟨fun hc => ?_, (left_inside hpos).trans⟩
    have hparent := hc.1.parent hc.2
    rwa [left_parent hpos] at hparent
  -- Nothing below the block is taken or marked.
  have hbtaken : l.Taken reserved b := .inl hb
  have hclear := h.clear b (.inr (.inl hb))
  have hnot : ∀ c, l.Taken reserved c → c.Below b → c = b := fun c hc =>
    hm.apart_of_below c b hc (.inl hb)
  have hin : b.left.Inside b := left_inside hpos
  have hin' : b.right.Inside b := right_inside hpos
  have hreplace := h.replace (b := b) fun hc => hin.2 (hnot b.left hc hin.1)
  refine Marked.valid ⟨(hsplit _).mpr (.inr h.root), ?_, ?_, ?_, ?_, ?_, ?_, hreplace.1, hreplace.2⟩
  · grind [hm.fits, hfits.of_below hin.1, hin.1.1]
  · grind [hm.apart_of_below, Block.Inside, Block.Below.refl, Block.Below.trans]
  · intro c hc
    simp only [hsplit, htaken, hm.split c hc]
    grind [Block.Inside, Block.Below.refl]
  · grind [hm.alloc]
  · grind [hm.free, placed_iff, Block.Inside, left_ne_right, hfits.of_below hin'.1,
      hin'.1.1, hm.split]
  · refine nodup_update_free h.nodup (nodup_cons.mpr ⟨fun hold => ?_, h.nodup _⟩)
    have hparent := (h.free b.right hold).1.parent
    rw [right_parent hpos, (hclear b (.refl b)).1] at hparent
    cases hparent

/-- A block in hand may be joined with its free buddy. -/
theorem join (hlevel : b.parent.level < height)
    (hbuddy : l.alloc b.buddy = false) : Valid height reserved (l.join b) := by
  have hm := h.marked hunits
  have hbtaken : l.Taken reserved b := .inl hb
  obtain ⟨hfits, hlt⟩ := hm.fits b hbtaken
  have hparent := hfits.parent hlt
  have hin := b.inside_parent
  have htaken : ∀ c, (l.join b).Taken reserved c ↔ c = b.parent ∨ c ≠ b ∧ l.Taken reserved c :=
    fun c => by
      rw [← h.taken_erase hb, ← or_assoc, ← mem_cons]
      rfl
  have hmem : ∀ c : Block,
      c.index ∈ (l.join b).free c.level ↔ c ≠ b.buddy ∧ c.index ∈ l.free c.level :=
    fun c => mem_free_erase (h.nodup b.buddy.level)
  have halloc : ∀ c, (l.join b).alloc c = true ↔ c ≠ b ∧ l.alloc c = true := fun c => update_false
  have hsplit : ∀ c, (l.join b).split c = true ↔ c ≠ b.parent ∧ l.split c = true :=
    fun c => update_false
  -- The block is all that is taken of its parent.
  have honly : ∀ c, l.Taken reserved c → c.Below b.parent → c = b := by
    intro c hc hcb
    by_cases hne : c = b.parent
    · exact (hm.apart_of_below b c hbtaken hc (hne ▸ hin.1)).symm
    · rcases below_half hcb hne with hhalf | hhalf
      · exact hm.apart_of_below c b hc hbtaken hhalf
      · have hfree := hm.alloc_of_taken (hfits.buddy hlt) hlt hc hhalf
        simpa using hbuddy.symm.trans hfree
  have habove : ∀ c, l.Taken reserved c → b.parent.Below c → c = b := fun c hc hbc =>
    (hm.apart_of_below b c hbtaken hc (hin.1.trans hbc)).symm
  have hbsplit : l.split b = false := (h.clear b (.inr hbtaken) b (.refl b)).1
  have hpsplit : l.split b.parent = true := (h.taken b hbtaken).1.parent
  have hhalf : ∀ c : Block, c.parent = b.parent ↔ c = b ∨ c = b.buddy := by
    refine fun c => ⟨eq_or_eq_buddy, ?_⟩
    rintro (rfl | rfl)
    · rfl
    · exact b.buddy_parent
  have hreplace := h.replace (b := b) fun hc => hin.2 (honly b.parent hc (.refl _)).symm
  refine Marked.valid ⟨(hsplit _).mpr ⟨(ne_of_level_lt hlevel).symm, h.root⟩, ?_, ?_, ?_, ?_, ?_,
    ?_, hreplace.1, hreplace.2⟩
  · grind [hm.fits]
  · grind [hm.apart_of_below]
  · intro c hc
    simp only [hsplit, htaken, hm.split c hc]
    have hup : b.Inside c → c ≠ b.parent → b.parent.Inside c := fun hbc hne =>
      ⟨hbc.1.parent hbc.2, hne.symm⟩
    have hdown : b.parent.Inside c → b.Inside c := hin.1.inside
    grind [Block.Inside]
  · grind [hm.alloc, Block.Inside]
  · grind [hm.free, placed_iff, hm.taken_spec]
  · exact nodup_update_free h.nodup ((h.nodup b.level).erase _)

/-- A block in hand may be freed if its buddy is not free. -/
theorem release (hbuddy : l.alloc b.buddy = true) : Valid height reserved (l.release b) := by
  have hm := h.marked hunits
  have hbtaken : l.Taken reserved b := .inl hb
  obtain ⟨hfits, hlevel⟩ := hm.fits b hbtaken
  have htaken : ∀ c, (l.release b).Taken reserved c ↔ c ≠ b ∧ l.Taken reserved c := fun c =>
    h.taken_erase hb
  have hmem : ∀ c : Block, c.index ∈ (l.release b).free c.level ↔ c = b ∨
    c.index ∈ l.free c.level :=
    fun c => mem_free_cons
  have halloc : ∀ c, (l.release b).alloc c = true ↔ c ≠ b ∧
    l.alloc c = true := fun c => update_false
  have hsplit : (l.release b).split = l.split := rfl
  -- Another taken block lies in the buddy.
  obtain ⟨t, ht, hside⟩ := hm.exists_taken (hfits.buddy hlevel) hlevel hbuddy
  have hne : t ≠ b := by
    rintro rfl
    exact t.buddy_ne (hside.eq_of_level le_rfl).symm
  have hinside : ∀ c, b.Inside c → t.Inside c := by
    intro c hc
    have hin := b.buddy.inside_parent
    rw [b.buddy_parent] at hin
    exact hside.inside (hin.trans (hc.1.parent hc.2))
  have hbsplit : l.split b = false := (h.clear b (.inr hbtaken) b (.refl b)).1
  have hplaced := (h.taken b hbtaken).1
  refine Marked.valid ⟨h.root, ?_, ?_, ?_, ?_, ?_, ?_, h.handed_nodup.erase b, ?_⟩
  · grind [hm.fits]
  · grind [hm.apart_of_below]
  · intro c hc
    simp only [hsplit, htaken, hm.split c hc]
    grind
  · grind [hm.alloc]
  · grind [hm.free, placed_iff]
  · refine nodup_update_free h.nodup (nodup_cons.mpr ⟨fun hold => ?_, h.nodup _⟩)
    exact h.not_taken_of_free hold hbtaken
  · exact fun c hc => h.apart c (mem_of_mem_erase hc)

end

end Steps

/-- If anything is reserved, the two halves of the whole memory are never both free. -/
theorem buddy_alloc_of_top (h : Valid height reserved l) (hunits : ∀ i, l.split ⟨0, i⟩ = false)
    (hreserved : c ∈ reserved) (hb : b ∈ l.handed) (hlevel : b.level + 1 = height) :
    l.alloc b.buddy = true := by
  have hm := h.marked hunits
  obtain ⟨hbfits, hblt⟩ := hm.fits b (.inl hb)
  obtain ⟨hcfits, hclt⟩ := hm.fits c (.inr hreserved)
  have hroot : b.parent.index = 0 := by
    have hindex := (hbfits.parent hblt).2
    rw [show height - b.parent.level = 0 by simp only [Block.parent]; omega] at hindex
    exact Nat.lt_one_iff.mp hindex
  have hbelow : c.Below b.parent := by
    refine ⟨hclt.le.trans hlevel.ge, ?_⟩
    rw [hroot, show b.parent.level = height from hlevel]
    exact Nat.div_eq_of_lt hcfits.2
  rcases below_half hbelow (ne_of_level_lt (hclt.trans_eq hlevel.symm)) with hhalf | hhalf
  · have heq := hm.apart_of_below c b (.inr hreserved) (.inl hb) hhalf
    exact absurd (heq ▸ hreserved) (h.apart b hb)
  · exact hm.alloc_of_taken (hbfits.buddy hblt) hblt (.inr hreserved) hhalf

end Valid

/-! ### Units -/

/-- The units of free and handed-out blocks. -/
def Layout.units (height : Nat) (l : Layout) : Nat :=
  ∑ k ∈ Finset.range height, (l.free k).length * 2 ^ k + (l.handed.map fun b => 2 ^ b.level).sum

theorem sum_update_free (free : Nat → List Nat) {k : Nat} (hk : k < height) (xs : List Nat) :
    ∑ j ∈ Finset.range height, (update free k xs j).length * 2 ^ j + (free k).length * 2 ^ k =
      ∑ j ∈ Finset.range height, (free j).length * 2 ^ j + xs.length * 2 ^ k := by
  have hmem : k ∈ Finset.range height := Finset.mem_range.mpr hk
  rw [← Finset.add_sum_erase _ _ hmem, ← Finset.add_sum_erase (Finset.range height)
    (fun j => (free j).length * 2 ^ j) hmem, update_self]
  have hrest : ∑ j ∈ (Finset.range height).erase k, (update free k xs j).length * 2 ^ j =
      ∑ j ∈ (Finset.range height).erase k, (free j).length * 2 ^ j := by
    refine Finset.sum_congr rfl fun j hj => ?_
    rw [update_of_ne (Finset.ne_of_mem_erase hj)]
  omega

theorem sum_erase_handed {handed : List Block} (hb : b ∈ handed) :
    ((handed.erase b).map fun b => 2 ^ b.level).sum + 2 ^ b.level =
      (handed.map fun b => 2 ^ b.level).sum := by
  have hperm := ((perm_cons_erase hb).map fun b : Block => 2 ^ b.level).sum_nat
  rw [map_cons, sum_cons] at hperm
  omega

theorem length_erase_mul {xs : List Nat} {i : Nat} (hi : i ∈ xs) (m : Nat) :
    (xs.erase i).length * m + m = xs.length * m := by
  rw [← Nat.succ_mul, Nat.succ_eq_add_one, length_erase_add_one hi]

namespace Valid

section

variable (h : Valid height reserved l)
include h

theorem units_take (hb : b.index ∈ l.free b.level) : (l.take b).units height = l.units height := by
  have hsum := sum_update_free l.free (h.free b hb).1.level_lt ((l.free b.level).erase b.index)
  have hcount := length_erase_mul hb (2 ^ b.level)
  simp only [Layout.units, Layout.take, map_cons, sum_cons]
  omega

section

variable (hb : b ∈ l.handed)
include hb

theorem units_halve (hpos : 0 < b.level) : (l.halve b).units height = l.units height := by
  have hlevel : b.right.level < height := by
    have := (h.taken b (.inl hb)).1.level_lt
    simp only [Block.right]
    omega
  have hsum := sum_update_free l.free hlevel (b.right.index :: l.free b.right.level)
  have hhanded := sum_erase_handed hb
  have hdouble : 2 ^ b.level = 2 ^ b.left.level + 2 ^ b.right.level := by
    obtain ⟨k, hk⟩ := Nat.exists_eq_add_of_lt hpos
    simp only [Block.left, Block.right, hk]
    rw [zero_add, Nat.add_sub_cancel, pow_succ]
    omega
  simp only [Layout.units, Layout.halve, map_cons, sum_cons]
  rw [length_cons, Nat.succ_mul] at hsum
  omega

theorem units_join
    (hbuddy : b.buddy.index ∈ l.free b.level) : (l.join b).units height = l.units height := by
  have hsum := sum_update_free l.free (h.taken b (.inl hb)).1.level_lt
    ((l.free b.level).erase b.buddy.index)
  have hhanded := sum_erase_handed hb
  have hcount := length_erase_mul hbuddy (2 ^ b.level)
  have hdouble : 2 ^ b.parent.level = 2 ^ b.level + 2 ^ b.level := by
    simp only [Block.parent]
    omega
  simp only [Layout.units, Layout.join, map_cons, sum_cons]
  omega

theorem units_release : (l.release b).units height = l.units height := by
  have hsum := sum_update_free l.free (h.taken b (.inl hb)).1.level_lt (b.index :: l.free b.level)
  have hhanded := sum_erase_handed hb
  rw [length_cons, Nat.succ_mul] at hsum
  simp only [Layout.units, Layout.release]
  omega

end

/-- Two different free, handed-out or reserved blocks do not overlap. -/
theorem separate (hb : l.Leaf reserved b) (hc : l.Leaf reserved c) (hne : b ≠ c) :
    2 ^ b.level * (b.index + 1) ≤ 2 ^ c.level * c.index ∨
      2 ^ c.level * (c.index + 1) ≤ 2 ^ b.level * b.index := by
  -- a common unit puts one of the blocks below the other
  have hcommon : ∀ {b c : Block} {x : Nat}, l.Leaf reserved b → l.Leaf reserved c → b ≠ c →
      x / 2 ^ b.level = b.index → x / 2 ^ c.level = c.index → ¬ b.level ≤ c.level := by
    intro b c x hb hc hne hxb hxc hle
    refine hne (h.eq_of_below hb hc ⟨hle, ?_⟩)
    rw [← hxb, ← hxc, Nat.div_div_eq_div_mul, ← pow_add, Nat.add_sub_cancel' hle]
  have hpos : ∀ k, 0 < 2 ^ k := Nat.two_pow_pos
  by_contra hnot
  have hmax : ∃ x, x / 2 ^ b.level = b.index ∧ x / 2 ^ c.level = c.index := by
    refine ⟨max (2 ^ b.level * b.index) (2 ^ c.level * c.index), ?_, ?_⟩
    · rw [Nat.div_eq_iff (hpos _)]
      rw [Nat.mul_add, Nat.mul_add, Nat.mul_one, Nat.mul_one] at hnot
      have := hpos b.level
      rw [Nat.mul_comm b.index]
      omega
    · rw [Nat.div_eq_iff (hpos _)]
      rw [Nat.mul_add, Nat.mul_add, Nat.mul_one, Nat.mul_one] at hnot
      have := hpos c.level
      rw [Nat.mul_comm c.index]
      omega
  obtain ⟨x, hxb, hxc⟩ := hmax
  rcases Nat.le_total b.level c.level with hle | hle
  · exact hcommon hb hc hne hxb hxc hle
  · exact hcommon hc hb hne.symm hxc hxb hle

end

end Valid

end Dyadic
