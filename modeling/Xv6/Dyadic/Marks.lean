import Xv6.Dyadic.Layout

/-!
# The marks of a buddy system

In a valid layout the marks and the free lists are a function of the blocks that are handed out or
reserved: the split blocks are those that have one of them as a proper part, the allocated ones are
these and the blocks themselves, and free are the other halves of split blocks.
-/

namespace Dyadic

variable {height : Nat} {reserved : Set Block} {l l' : Layout} {b c d : Block}

/-- The block is handed out or reserved. -/
def Layout.Taken (reserved : Set Block) (l : Layout) (b : Block) : Prop :=
  b ∈ l.handed ∨ b ∈ reserved

/-- The marks and lists that the taken blocks determine. -/
structure Marked (height : Nat) (reserved : Set Block) (l : Layout) : Prop where
  root : l.split ⟨height, 0⟩ = true
  fits : ∀ b, l.Taken reserved b → b.Fits height ∧ b.level < height
  apart_of_below : ∀ b c, l.Taken reserved b → l.Taken reserved c → b.Below c → b = c
  split : ∀ c, c.Fits height → (l.split c = true ↔ ∃ b, l.Taken reserved b ∧ b.Inside c)
  alloc : ∀ c, c.Fits height → c.level < height →
    (l.alloc c = true ↔ l.Taken reserved c ∨ l.split c = true)
  free : ∀ c, c.index ∈ l.free c.level ↔ l.Placed height c ∧ ¬ l.alloc c = true
  nodup : ∀ k, (l.free k).Nodup
  handed_nodup : l.handed.Nodup
  apart : ∀ b ∈ l.handed, b ∉ reserved

theorem Layout.Placed.fits (h : l.Placed height b) : b.Fits height := ⟨h.level_lt.le, h.index_lt⟩

theorem Layout.placed_iff :
    l.Placed height b ↔ (b.Fits height ∧ b.level < height) ∧ l.split b.parent = true :=
  ⟨fun h => ⟨⟨h.fits, h.level_lt⟩, h.parent⟩, fun h => ⟨h.1.2, h.1.1.2, h.2⟩⟩

namespace Marked

section

variable (h : Marked height reserved l)
include h

/-- A block with an allocated part has a taken part. -/
theorem exists_taken (hfits : b.Fits height)
    (hlevel : b.level < height) (halloc : l.alloc b = true) : ∃ t, l.Taken reserved t ∧
      t.Below b := by
  rcases (h.alloc b hfits hlevel).mp halloc with htaken | hsplit
  · exact ⟨b, htaken, .refl b⟩
  · obtain ⟨t, ht, hinside⟩ := (h.split b hfits).mp hsplit
    exact ⟨t, ht, hinside.1⟩

theorem alloc_of_taken (hfits : b.Fits height)
    (hlevel : b.level < height) {t : Block} (ht : l.Taken reserved t) (hbelow : t.Below b) :
    l.alloc b = true := by
  by_cases heq : t = b
  · exact (h.alloc b hfits hlevel).mpr (.inl (heq ▸ ht))
  · exact (h.alloc b hfits hlevel).mpr (.inr ((h.split b hfits).mpr ⟨t, ht, hbelow, heq⟩))

/-- No taken block is a part of a free, handed-out or reserved block. -/
theorem not_inside (hc : l.Leaf reserved c) {t : Block}
    (ht : l.Taken reserved t) : ¬ t.Inside c := by
  rintro ⟨hbelow, hne⟩
  rcases hc with hfree | htaken
  · obtain ⟨hplaced, hnot⟩ := (h.free c).mp hfree
    exact hnot (h.alloc_of_taken hplaced.fits hplaced.level_lt ht hbelow)
  · exact hne (h.apart_of_below t c ht htaken hbelow)

theorem leaf_fits (hc : l.Leaf reserved c) : c.Fits height ∧ c.level < height := by
  rcases hc with hfree | htaken
  · have hplaced := ((h.free c).mp hfree).1
    exact ⟨hplaced.fits, hplaced.level_lt⟩
  · exact h.fits c htaken

theorem taken_spec (hb : l.Taken reserved b) : l.Placed height b ∧ l.alloc b = true := by
  obtain ⟨hfits, hlevel⟩ := h.fits b hb
  refine ⟨⟨hlevel, hfits.2, ?_⟩, (h.alloc b hfits hlevel).mpr (.inl hb)⟩
  exact (h.split _ (hfits.parent hlevel)).mpr ⟨b, hb, b.inside_parent⟩

theorem valid : Valid height reserved l where
  root := h.root
  free b hb := ((h.free b).mp hb).imp_right Bool.eq_false_iff.mpr
  nodup := h.nodup
  taken _ := h.taken_spec
  handed_nodup := h.handed_nodup
  apart := h.apart
  covered b hb := or_iff_not_imp_left.mpr fun hnot => (h.free b).mpr ⟨hb, hnot⟩
  merged b hb := by
    obtain ⟨t, ht, hinside⟩ := (h.split _ (hb.fits.parent hb.level_lt)).mp hb.parent
    refine (Block.below_half hinside.1 hinside.2).imp (h.alloc_of_taken hb.fits hb.level_lt ht) ?_
    exact h.alloc_of_taken (hb.fits.buddy hb.level_lt) hb.level_lt ht
  clear c hc b hb := by
    obtain ⟨hfits, hlevel⟩ := h.leaf_fits hc
    have hbfits := hfits.of_below hb
    constructor
    · rw [← Bool.not_eq_true, h.split b hbfits]
      rintro ⟨t, ht, hinside⟩
      exact h.not_inside hc ht (hinside.trans hb)
    · intro hne
      rw [← Bool.not_eq_true]
      intro halloc
      obtain ⟨t, ht, hbelow⟩ := h.exists_taken hbfits (lt_of_le_of_lt hb.1 hlevel) halloc
      exact h.not_inside hc ht (hbelow.inside ⟨hb, hne⟩)
  complete b hb halloc hsplit :=
    ((h.alloc b hb.fits hb.level_lt).mp halloc).resolve_right (by simp [hsplit])

/-- Two layouts with the same blocks handed out have the same marks and free blocks. -/
theorem unique (h' : Marked height reserved l') (hhanded : ∀ b, b ∈ l'.handed ↔ b ∈ l.handed) :
    (∀ c, c.Fits height → l'.split c = l.split c) ∧
    (∀ c, c.Fits height → c.level < height → l'.alloc c = l.alloc c) ∧
    ∀ c : Block, c.index ∈ l'.free c.level ↔ c.index ∈ l.free c.level := by
  have htaken : ∀ b, l'.Taken reserved b ↔ l.Taken reserved b := fun b => or_congr_left (hhanded b)
  have hsplit : ∀ c, c.Fits height → l'.split c = l.split c := fun c hc =>
    Bool.eq_iff_iff.mpr (by simp only [h'.split c hc, h.split c hc, htaken])
  have halloc : ∀ c, c.Fits height → c.level < height → l'.alloc c = l.alloc c := fun c hc hlevel =>
    Bool.eq_iff_iff.mpr (by rw [h'.alloc c hc hlevel, h.alloc c hc hlevel, htaken, hsplit c hc])
  refine ⟨hsplit, halloc, fun c => ?_⟩
  rw [h'.free, h.free, Layout.placed_iff, Layout.placed_iff]
  by_cases hc : c.Fits height ∧ c.level < height
  · rw [hsplit _ (hc.1.parent hc.2), halloc c hc.1 hc.2]
  · simp only [hc, false_and]

end

end Marked

namespace Valid

/-- Below a split block there is a taken one. -/
theorem exists_inside (h : Valid height reserved l) (hunits : ∀ i, l.split ⟨0, i⟩ = false)
    (hfits : c.Fits height) (hsplit : l.split c = true) :
    ∃ b, l.Taken reserved b ∧ b.Inside c := by
  obtain ⟨k, i⟩ := c
  induction k generalizing i with
  | zero =>
    rw [hunits] at hsplit
    cases hsplit
  | succ k ih =>
    -- One of the halves is allocated.
    have hparent : ∀ j, j / 2 = i → (⟨k, j⟩ : Block).parent = ⟨k + 1, i⟩ := fun j hj => by
      rw [Block.parent, hj]
    have hhalf : ∀ j, j / 2 = i → l.Placed height ⟨k, j⟩ := by
      intro j hj
      have hbelow := (⟨k, j⟩ : Block).below_parent
      rw [hparent j hj] at hbelow
      exact ⟨hfits.1, (hfits.of_below hbelow).2, by rwa [hparent j hj]⟩
    have hsome : ∃ j, j / 2 = i ∧ l.alloc ⟨k, j⟩ = true := by
      have hmerged := h.merged ⟨k, 2 * i⟩ (hhalf _ (by omega))
      rcases hmerged with halloc | halloc
      · exact ⟨2 * i, by omega, halloc⟩
      · refine ⟨2 * i + 1, by omega, ?_⟩
        simpa [Block.buddy] using halloc
    obtain ⟨j, hj, halloc⟩ := hsome
    have hplaced := hhalf j hj
    have hinside := (⟨k, j⟩ : Block).inside_parent
    rw [hparent j hj] at hinside
    by_cases hsplit' : l.split ⟨k, j⟩ = true
    · obtain ⟨b, hb, hbelow⟩ := ih j hplaced.fits hsplit'
      exact ⟨b, hb, hbelow.1.inside hinside⟩
    · exact ⟨_, h.complete _ hplaced halloc (Bool.eq_false_iff.mpr hsplit'), hinside⟩

theorem marked (h : Valid height reserved l) (hunits : ∀ i, l.split ⟨0, i⟩ = false) :
    Marked height reserved l where
  root := h.root
  fits b hb := ⟨(h.taken b hb).1.fits, (h.taken b hb).1.level_lt⟩
  apart_of_below b c hb hc := h.eq_of_below (.inr hb) (.inr hc)
  split c hfits := by
    refine ⟨h.exists_inside hunits hfits, ?_⟩
    rintro ⟨b, hb, hbelow, hne⟩
    by_contra hnot
    obtain ⟨d, hd, hcd⟩ := h.exists_leaf hfits (Bool.eq_false_iff.mpr hnot)
    have heq := h.eq_of_below (.inr hb) hd (hbelow.trans hcd)
    exact hne (hbelow.antisymm (heq ▸ hcd))
  alloc c hfits hlevel := by
    constructor
    · intro halloc
      by_contra hnot
      rw [not_or] at hnot
      obtain ⟨d, hd, hcd⟩ := h.exists_leaf hfits (Bool.eq_false_iff.mpr hnot.2)
      by_cases hne : c = d
      · subst hne
        refine hd.elim (fun hfree => ?_) hnot.1
        simpa using halloc.symm.trans (h.free c hfree).2
      · simpa using halloc.symm.trans ((h.clear d hd c hcd).2 hne)
    · rintro (htaken | hsplit)
      · exact (h.taken c htaken).2
      · exact (h.placed_of_split hlevel hfits hsplit).2
  free c := by
    refine ⟨fun hfree => (h.free c hfree).imp_right Bool.eq_false_iff.mp, ?_⟩
    exact fun hplaced => (h.covered c hplaced.1).resolve_left hplaced.2
  nodup := h.nodup
  handed_nodup := h.handed_nodup
  apart := h.apart

end Valid

end Dyadic
