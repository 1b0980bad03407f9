import Mathlib.Algebra.BigOperators.Ring.Finset
import Xv6.Buddy.Calls

/-!
# Runs of the buddy allocator

Any sequence of calls and of writes to blocks that are handed out keeps the invariant. Blocks do not
overlap, have the size that was asked for, and no memory is lost.
-/

namespace Xv6.Buddy

open Circular Dyadic List

variable {h : Heap} {reserved : Set Block} {sys sys' : System} {free : Nat → List Nat}

/-- The block of a pointer that is handed out. -/
def Heap.block (h : Heap) (x : Live) : Block :=
  ⟨sizeFor x.nbytes, (x.pointer - h.base) / BLK_SIZE (sizeFor x.nbytes)⟩

/-- The allocator and its users agree on the blocks that are handed out. -/
structure Good (h : Heap) (reserved : Set Block) (free : Nat → List Nat) (sys : System) : Prop where
  rep : Rep h reserved sys.state free (sys.live.map h.block)
  pointer : ∀ x ∈ sys.live, x.pointer = h.blockAddr (h.block x)
  nbytes : ∀ x ∈ sys.live, x.nbytes.toNat ≤ 2 ^ 63

/-- The bytes on the free lists and those handed out. -/
def bytes (h : Heap) (free : Nat → List Nat) (live : List Live) : Nat :=
  ∑ k ∈ Finset.range h.nsizes, (free k).length * BLK_SIZE k +
    (live.map fun x => BLK_SIZE (sizeFor x.nbytes)).sum

variable {b : Block}

theorem block_of_blockAddr {nbytes : BitVec 64} (hlevel : b.level = sizeFor nbytes) :
    h.block ⟨h.blockAddr b, nbytes⟩ = b := by
  refine Layout.eq_mk hlevel.symm ?_
  simp only [Heap.block, Heap.blockAddr, ← hlevel, Nat.add_sub_cancel_left]
  exact Nat.mul_div_cancel _ (BLK_SIZE_pos _)

theorem Rep.disjoint {s : State} {handed : List Block} {b c : Block}
    (hrep : Rep h reserved s free handed) (hb : (layout s free handed).Leaf reserved b)
    (hc : (layout s free handed).Leaf reserved c) (hne : b ≠ c) :
    h.blockAddr b + BLK_SIZE b.level ≤ h.blockAddr c ∨
      h.blockAddr c + BLK_SIZE c.level ≤ h.blockAddr b := by
  have haddr : ∀ b : Block, h.blockAddr b = h.base + 2 ^ b.level * b.index * LEAF_SIZE ∧
      h.blockAddr b + BLK_SIZE b.level = h.base + 2 ^ b.level * (b.index + 1) * LEAF_SIZE := by
    intro b
    simp only [Heap.blockAddr, BLK_SIZE]
    constructor
    · ring
    · ring
  rw [(haddr b).2, (haddr c).2, (haddr b).1, (haddr c).1]
  rcases hrep.valid.separate hb hc hne with hle | hle
  · exact .inl (Nat.add_le_add_left (Nat.mul_le_mul_right _ hle) _)
  · exact .inr (Nat.add_le_add_left (Nat.mul_le_mul_right _ hle) _)

namespace Good

theorem bytes_eq (hgood : Good h reserved free sys) :
    bytes h free sys.live = units h free (sys.live.map h.block) * LEAF_SIZE := by
  have hlast : free h.maxSize = [] := by
    refine eq_nil_iff_forall_not_mem.mpr fun i hi => ?_
    have hlevel := (hgood.rep.free_range (b := ⟨h.maxSize, i⟩) hi).1
    exact absurd hlevel (lt_irrefl _)
  have hroot : 0 < h.nsizes ∨ h.nsizes = 0 := by omega
  have hsum : ∑ k ∈ Finset.range h.nsizes, (free k).length * BLK_SIZE k =
      ∑ k ∈ Finset.range h.maxSize, (free k).length * BLK_SIZE k := by
    rcases hroot with hpos | hzero
    · rw [← Nat.sub_add_cancel hpos, Finset.sum_range_succ]
      have hlast' : free (h.nsizes - 1) = [] := hlast
      rw [hlast', length_nil, zero_mul, add_zero]
      rfl
    · simp only [Heap.maxSize, hzero]
  rw [bytes, hsum, units, Nat.add_mul, Finset.sum_mul, ← sum_map_mul_right, map_map]
  simp only [BLK_SIZE, Nat.mul_assoc, Function.comp_def, Heap.block]

variable {x : Live}

section

variable (hgood : Good h reserved free sys)
include hgood

theorem live_spec (hfits : h.Fits reserved) (hx : x ∈ sys.live) :
    x.nbytes.toNat ≤ BLK_SIZE (sizeFor x.nbytes) ∧
      (x.pointer - h.base) % BLK_SIZE (sizeFor x.nbytes) = 0 ∧
      h.size sys.state x.pointer = some (sizeFor x.nbytes) := by
  have hpointer := hgood.pointer x hx
  refine ⟨(firstk_spec (hgood.nbytes x hx)).2.1, ?_, ?_⟩
  · rw [hpointer, Heap.blockAddr, Nat.add_sub_cancel_left]
    exact Nat.mul_mod_left _ _
  · rw [hpointer]
    exact size_spec hfits hgood.rep (mem_map_of_mem hx)

/-- A pointer that is handed out does not overlap any other block. -/
theorem live_disjoint (hx : x ∈ sys.live)
    (hb : (layout sys.state free (sys.live.map h.block)).Leaf reserved b) (hne : h.block x ≠ b) :
    x.pointer + BLK_SIZE (sizeFor x.nbytes) ≤ h.blockAddr b ∨
      h.blockAddr b + BLK_SIZE b.level ≤ x.pointer := by
  rw [hgood.pointer x hx]
  exact hgood.rep.disjoint (.inr (.inl (mem_map_of_mem hx))) hb hne

theorem malloc (hfits : h.Fits reserved) {nbytes : BitVec 64} (hnbytes : nbytes.toNat ≤ 2 ^ 63) :
    ∃ sys' free', h.perform (.malloc nbytes) sys = some sys' ∧ Good h reserved free' sys' ∧
      bytes h free' sys'.live = bytes h free sys.live ∧ SameOutside h sys.state sys'.state := by
  obtain ⟨p, s', hcall, hresult⟩ := bdMalloc_spec hfits hgood.rep (firstk_spec hnbytes).1
  have hperform : h.perform (.malloc nbytes) sys =
      some ⟨s', if p = 0 then sys.live else ⟨p, nbytes⟩ :: sys.live⟩ := by
    simp only [Heap.perform, if_pos hnbytes, hcall]
    rfl
  rcases hresult with ⟨rfl, rfl⟩ | ⟨b, free', hlevel, rfl, hrep, hunits, hsame⟩
  · exact ⟨_, free, hperform, hgood, rfl, .refl _⟩
  · have hblock := block_of_blockAddr (h := h) hlevel
    rw [if_neg (blockAddr_ne_zero hfits b)] at hperform
    have hgood' : Good h reserved free' ⟨s', ⟨h.blockAddr b, nbytes⟩ :: sys.live⟩ := by
      refine ⟨?_, ?_, ?_⟩
      · simpa only [map_cons, hblock] using hrep
      · exact forall_mem_cons.mpr ⟨by rw [hblock], hgood.pointer⟩
      · exact forall_mem_cons.mpr ⟨hnbytes, hgood.nbytes⟩
    refine ⟨_, free', hperform, hgood', ?_, hsame⟩
    rw [hgood'.bytes_eq, hgood.bytes_eq, map_cons, hblock, hunits]

end

theorem map_erase {f : Live → Block} {live : List Live} (hx : x ∈ live)
    (hnodup : (live.map f).Nodup) : (live.erase x).map f = (live.map f).erase (f x) := by
  induction live with
  | nil => cases hx
  | cons y live ih =>
    rw [map_cons, nodup_cons] at hnodup
    by_cases hy : y = x
    · subst hy
      rw [erase_cons_head, map_cons, erase_cons_head]
    · have hmem : x ∈ live := (mem_cons.mp hx).resolve_left (Ne.symm hy)
      have hne : f y ≠ f x := fun heq => hnodup.1 (heq ▸ mem_map_of_mem hmem)
      rw [erase_cons_tail (by simpa using hy), map_cons, map_cons,
        erase_cons_tail (by simpa using hne), ih hmem hnodup.2]

section

variable (hgood : Good h reserved free sys)
include hgood

section

variable (hfits : h.Fits reserved)
include hfits

theorem free_call (hx : x ∈ sys.live) :
    ∃ sys' free', h.perform (.free x) sys = some sys' ∧ Good h reserved free' sys' ∧
      bytes h free' sys'.live = bytes h free sys.live ∧ SameOutside h sys.state sys'.state := by
  obtain ⟨s', free', hcall, hrep, hunits, hsame⟩ := bdFree_spec hfits hgood.rep (mem_map_of_mem hx)
  rw [← hgood.pointer x hx] at hcall
  have hperform : h.perform (.free x) sys = some ⟨s', sys.live.erase x⟩ := by
    simp only [Heap.perform, if_pos hx, hcall]
    rfl
  have herase := map_erase hx hgood.rep.valid.handed_nodup
  have hgood' : Good h reserved free' ⟨s', sys.live.erase x⟩ := by
    refine ⟨?_, fun y hy => hgood.pointer y (mem_of_mem_erase hy),
      fun y hy => hgood.nbytes y (mem_of_mem_erase hy)⟩
    rwa [herase]
  refine ⟨_, free', hperform, hgood', ?_, hsame⟩
  rw [hgood'.bytes_eq, hgood.bytes_eq, herase, hunits]

theorem node_outside (hx : x ∈ sys.live) {k : Nat} (hk : k < h.nsizes) {a : Nat}
    (ha : a ∈ h.list k :: h.addrs k (free k)) : ¬ x.contains a := by
  rintro ⟨hle, hlt⟩
  have hmem : h.block x ∈ sys.live.map h.block := mem_map_of_mem hx
  obtain ⟨b, hb, hne, haddr⟩ : ∃ b,
      (layout sys.state free (sys.live.map h.block)).Leaf reserved b ∧ h.block x ≠ b ∧
        h.blockAddr b = a := by
    rcases mem_cons.mp ha with rfl | ha
    · have hreserved := hfits.sizes k hk
      refine ⟨⟨0, 2 * k⟩, .inr (.inr hreserved), fun heq => ?_, ?_⟩
      · exact hgood.rep.valid.apart _ hmem (heq ▸ hreserved)
      · simp only [Heap.blockAddr, Heap.list, BLK_SIZE, LEAF_SIZE, szInfoSize]
        ring
    · obtain ⟨i, hi, haddr⟩ := mem_map.mp ha
      refine ⟨⟨k, i⟩, .inl hi, fun heq => ?_, haddr⟩
      exact hgood.rep.valid.not_taken_of_free hi (.inl (heq ▸ hmem))
  have hpos := BLK_SIZE_pos b.level
  rcases hgood.live_disjoint hx hb hne with hdisjoint | hdisjoint
  · omega
  · omega

theorem write {p next prev : Nat} (hperform : h.perform (.write x p next prev) sys = some sys') :
    Good h reserved free sys' ∧ sys'.live = sys.live ∧ SameOutside h sys.state sys'.state := by
  simp only [Heap.perform] at hperform
  split at hperform
  case isFalse => cases hperform
  case isTrue hwrite =>
    cases hperform
    refine ⟨⟨⟨fun k hk => ?_, hgood.rep.valid⟩, hgood.pointer, hgood.nbytes⟩, rfl,
      ⟨fun _ _ => rfl, fun _ _ => rfl⟩⟩
    have hne : ∀ a ∈ h.list k :: h.addrs k (free k), a ≠ p := fun a ha heq =>
      hgood.node_outside hfits hwrite.1 hk ha (heq ▸ hwrite.2)
    exact (hgood.rep.rings k hk).congr (fun a ha => Function.update_of_ne (hne a ha) _ _)
      fun a ha => Function.update_of_ne (hne a ha) _ _

theorem perform {action : Action} (hperform : h.perform action sys = some sys') :
    ∃ free', Good h reserved free' sys' ∧ bytes h free' sys'.live = bytes h free sys.live ∧
      SameOutside h sys.state sys'.state := by
  cases action with
  | malloc nbytes =>
    by_cases hnbytes : nbytes.toNat ≤ 2 ^ 63
    · obtain ⟨next, free', hnext, hgood'⟩ := hgood.malloc hfits hnbytes
      obtain rfl := Option.some.inj (hnext.symm.trans hperform)
      exact ⟨free', hgood'⟩
    · rw [Heap.perform, if_neg hnbytes] at hperform
      cases hperform
  | free x =>
    by_cases hx : x ∈ sys.live
    · obtain ⟨next, free', hnext, hgood'⟩ := hgood.free_call hfits hx
      obtain rfl := Option.some.inj (hnext.symm.trans hperform)
      exact ⟨free', hgood'⟩
    · rw [Heap.perform, if_neg hx] at hperform
      cases hperform
  | write x p next prev =>
    obtain ⟨hgood', hlive, hsame⟩ := hgood.write hfits hperform
    exact ⟨free, hgood', by rw [hlive], hsame⟩

end

theorem pairwise : sys.live.Pairwise fun x y => x.pointer + BLK_SIZE (sizeFor x.nbytes) ≤
    y.pointer ∨ y.pointer + BLK_SIZE (sizeFor y.nbytes) ≤ x.pointer := by
  have hnodup : sys.live.Pairwise fun x y => h.block x ≠ h.block y :=
    pairwise_map.mp hgood.rep.valid.handed_nodup
  refine hnodup.imp_of_mem fun {x y} hx hy hne => ?_
  have hdisjoint := hgood.live_disjoint hx (.inr (.inl (mem_map_of_mem hy))) hne
  rwa [← hgood.pointer y hy] at hdisjoint

end

end Good

variable {start : System}

theorem good_of_run {free₀ : Nat → List Nat} (hfits : h.Fits reserved)
    (hstart : Good h reserved free₀ start) (hrun : Run h start sys) :
    ∃ free, Good h reserved free sys ∧ bytes h free sys.live = bytes h free₀ start.live ∧
      SameOutside h start.state sys.state := by
  induction hrun with
  | refl => exact ⟨free₀, hstart, rfl, .refl _⟩
  | step _ hperform ih =>
    obtain ⟨free, hgood, hbytes, hsame⟩ := ih
    obtain ⟨free', hgood', hbytes', hsame'⟩ := hgood.perform hfits hperform
    exact ⟨free', hgood', hbytes'.trans hbytes, hsame.trans hsame'⟩

/-- The buddy allocator from any state that is in order. Every call returns without a panic and
without an access behind `bd_sizes`, and the invariant is kept. Blocks that are handed out overlap
neither each other nor a free block nor the metadata. They are large enough, aligned to their size,
and `size` finds the size they were allocated with. The number of bytes that are free or handed out
does not change. -/
theorem buddy_sound {start : System} {free₀ : Nat → List Nat} (hfits : h.Fits reserved)
    (hstart : Good h reserved free₀ start) (hrun : Run h start sys) :
    ∃ free, Good h reserved free sys ∧ bytes h free sys.live = bytes h free₀ start.live ∧
      (sys.live.Pairwise fun x y =>
        x.pointer + BLK_SIZE (sizeFor x.nbytes) ≤ y.pointer ∨
          y.pointer + BLK_SIZE (sizeFor y.nbytes) ≤ x.pointer) ∧
      (∀ x ∈ sys.live, ∀ b : Block, b.index ∈ free b.level ∨ b ∈ reserved →
        x.pointer + BLK_SIZE (sizeFor x.nbytes) ≤ h.blockAddr b ∨
          h.blockAddr b + BLK_SIZE b.level ≤ x.pointer) ∧
      (∀ x ∈ sys.live, x.nbytes.toNat ≤ BLK_SIZE (sizeFor x.nbytes) ∧
        (x.pointer - h.base) % BLK_SIZE (sizeFor x.nbytes) = 0 ∧
        h.size sys.state x.pointer = some (sizeFor x.nbytes)) ∧
      (∀ nbytes : BitVec 64, nbytes.toNat ≤ 2 ^ 63 →
        ∃ sys', h.perform (.malloc nbytes) sys = some sys') ∧
      ∀ x ∈ sys.live, ∃ sys', h.perform (.free x) sys = some sys' := by
  obtain ⟨free, hgood, hbytes, _⟩ := good_of_run hfits hstart hrun
  refine ⟨free, hgood, hbytes, hgood.pairwise, ?_, fun x hx => hgood.live_spec hfits hx, ?_, ?_⟩
  · intro x hx b hb
    have hmem : h.block x ∈ sys.live.map h.block := mem_map_of_mem hx
    rcases hb with hfree | hreserved
    · refine hgood.live_disjoint hx (.inl hfree) fun heq => ?_
      exact hgood.rep.valid.not_taken_of_free hfree (.inl (heq ▸ hmem))
    · refine hgood.live_disjoint hx (.inr (.inr hreserved)) fun heq => ?_
      exact hgood.rep.valid.apart _ hmem (heq ▸ hreserved)
  · intro nbytes hnbytes
    obtain ⟨sys', _, hperform, -⟩ := hgood.malloc hfits hnbytes
    exact ⟨sys', hperform⟩
  · intro x hx
    obtain ⟨sys', _, hperform, -⟩ := hgood.free_call hfits hx
    exact ⟨sys', hperform⟩

/-- `bd_malloc` fails only if there is no room: every block of the size that it needs overlaps one
that is handed out or belongs to the metadata. -/
theorem malloc_fails_only_full {free₀ : Nat → List Nat} (hfits : h.Fits reserved)
    (hstart : Good h reserved free₀ start) (hrun : Run h start sys) (fuel : Nat)
    (nbytes : BitVec 64) {s : State} (hfail : h.bdMalloc fuel nbytes sys.state = some (0, s))
    {c : Block} (hc : c.Fits h.maxSize) (hfirst : firstk fuel nbytes = some c.level) :
    ∃ b, (b ∈ sys.live.map h.block ∨ b ∈ reserved) ∧ (b.Below c ∨ c.Below b) := by
  obtain ⟨free, hgood, -⟩ := good_of_run hfits hstart hrun
  have hvalid := hgood.rep.valid
  cases hsplit : (layout sys.state free (sys.live.map h.block)).split c with
  | true =>
    obtain ⟨b, hb, hinside⟩ := hvalid.exists_inside (fun _ => rfl) hc hsplit
    exact ⟨b, hb, .inl hinside.1⟩
  | false =>
    obtain ⟨b, hfree | hb, hbelow⟩ := hvalid.exists_leaf hc hsplit
    · have hlt := hgood.rep.lt_of_bdMalloc_zero hfits hfirst hfail hfree
      exact absurd hbelow.1 (by omega)
    · exact ⟨b, hb, .inr hbelow⟩

/-! ### Freeing everything again -/

/-- The states have the same bits, and the free lists of the second are those of the blocks `free`.
-/
structure Restored (h : Heap) (free : Nat → List Nat) (s s' : State) : Prop where
  alloc : ∀ k i, bitIsset (s'.alloc k) i = bitIsset (s.alloc k) i
  split : ∀ k i, bitIsset (s'.split k) i = bitIsset (s.split k) i
  lists : ∃ free', Rings h s'.list free' ∧ ∀ k i, i ∈ free' k ↔ i ∈ free k

theorem Rep.restored {s s' : State} {handed handed' : List Block} {free' : Nat → List Nat}
    (hrep : Rep h reserved s free handed) (hrep' : Rep h reserved s' free' handed')
    (hsame : SameOutside h s s') (hhanded : ∀ b, b ∈ handed' ↔ b ∈ handed) :
    Restored h free s s' := by
  obtain ⟨hsplit, halloc, hfree⟩ := (hrep.valid.marked fun _ => rfl).unique
    (hrep'.valid.marked fun _ => rfl) hhanded
  refine ⟨fun k i => ?_, fun k i => ?_, free', hrep'.rings, fun k i => hfree ⟨k, i⟩⟩
  · by_cases hk : (⟨k, i⟩ : Block).Fits h.maxSize ∧ k < h.maxSize
    · exact halloc ⟨k, i⟩ hk.1 hk.2
    · exact hsame.alloc ⟨k, i⟩ hk
  · by_cases hk : (⟨k, i⟩ : Block).Fits h.maxSize ∧ 0 < k
    · simpa [layout, marks, hk.2] using hsplit ⟨k, i⟩ hk.1
    · exact hsame.split ⟨k, i⟩ hk

/-- `bd_free` undoes `bd_malloc`, and after any calls that leave the same blocks handed out as
before, the bits and the free blocks are the same as before. -/
theorem free_undoes_malloc {start : System} (hfits : h.Fits reserved)
    (hstart : Good h reserved free start) :
    (∀ fuel nbytes p s, h.bdMalloc fuel nbytes start.state = some (p, s) → p ≠ 0 →
      ∃ s', h.bdFree p s = some s' ∧ Restored h free start.state s') ∧
    ∀ sys, Run h start sys → (∀ x, x ∈ sys.live ↔ x ∈ start.live) →
      Restored h free start.state sys.state := by
  refine ⟨fun fuel nbytes p s hmalloc hp => ?_, fun sys hrun hlive => ?_⟩
  · cases hfirst : firstk fuel nbytes with
    | none => simp [Heap.bdMalloc, hfirst] at hmalloc
    | some fk =>
    obtain ⟨p', s', hcall, hresult⟩ := bdMalloc_spec hfits hstart.rep hfirst
    obtain ⟨rfl, rfl⟩ := Prod.mk.inj (Option.some.inj (hcall.symm.trans hmalloc))
    rcases hresult with ⟨hzero, -⟩ | ⟨b, free', _, rfl, hrep, _, hsame⟩
    · exact absurd hzero hp
    · obtain ⟨s'', free'', hfree, hrep', _, hsame'⟩ := bdFree_spec hfits hrep mem_cons_self
      rw [erase_cons_head] at hrep'
      exact ⟨s'', hfree, hstart.rep.restored hrep' (hsame.trans hsame') fun _ => Iff.rfl⟩
  · obtain ⟨free', hgood, _, hsame⟩ := good_of_run hfits hstart hrun
    exact hstart.rep.restored hgood.rep hsame fun b => by simp only [mem_map, hlive]

/-! ### A small heap -/

/-- Sixteen units of memory, of which `bd_sizes` takes the first ten. -/
def smallHeap : Heap := ⟨4096, 5⟩

/-- The units of `bd_sizes`. -/
def smallReserved : Set Block := { b | b.level = 0 ∧ b.index < 10 }

/-- One free block of two units and one of four. -/
def smallFree : Nat → List Nat
  | 1 => [5]
  | 2 => [3]
  | _ => []

/-- A state of `smallHeap` in which nothing is handed out. -/
def smallState : State where
  alloc
    | 0, 0 => 0xff
    | 0, 1 => 0x03
    | 1, 0 => 0x1f
    | 2, 0 => 0x07
    | 3, 0 => 0x03
    | _, _ => 0
  split
    | 1, 0 => 0x1f
    | 2, 0 => 0x07
    | 3, 0 => 0x03
    | 4, 0 => 0x01
    | _, _ => 0
  list :=
    let other := fun p =>
      if p = 4128 then 4256 else if p = 4256 then 4128
      else if p = 4160 then 4288 else if p = 4288 then 4160 else p
    ⟨other, other⟩

theorem smallHeap_fits : smallHeap.Fits smallReserved where
  base_pos := by decide
  nsizes_pos := by decide
  size_le := by decide
  sizes := fun k hk => ⟨rfl, show 2 * k < 10 by simp only [smallHeap] at hk; omega⟩

theorem smallHeap_rings : Rings smallHeap smallState.list smallFree := by
  intro k hk
  have hcases : ∀ k < 5, (smallHeap.list k :: smallHeap.addrs k (smallFree k)).Nodup ∧
      (smallHeap.list k :: smallHeap.addrs k (smallFree k) ++ [smallHeap.list k]).IsChain
        fun a b => smallState.list.next a = b ∧ smallState.list.prev b = a := by
    decide
  exact ⟨(hcases k hk).1, (hcases k hk).2⟩

theorem smallFree_mem (hb : b.index ∈ smallFree b.level) : b = ⟨1, 5⟩ ∨ b = ⟨2, 3⟩ := by
  obtain ⟨k, i⟩ := b
  simp only [smallFree] at hb
  split at hb <;> simp_all

/-- The layout of `smallHeap`. -/
def smallLayout : Layout := layout smallState smallFree []

theorem smallHeap_valid : Valid smallHeap.maxSize smallReserved smallLayout := by
  -- the blocks in range are checked one by one
  have hcovered : ∀ k < 4, ∀ i < 2 ^ (4 - k), smallLayout.split ⟨k + 1, i / 2⟩ = true →
      smallLayout.alloc ⟨k, i⟩ = true ∨ i ∈ smallLayout.free k := by
    decide +kernel
  have hmerged : ∀ k < 4, ∀ i < 2 ^ (4 - k), smallLayout.split ⟨k + 1, i / 2⟩ = true →
      smallLayout.alloc ⟨k, i⟩ = true ∨ smallLayout.alloc (Block.buddy ⟨k, i⟩) = true := by
    decide +kernel
  have hcomplete : ∀ k < 4, ∀ i < 2 ^ (4 - k), smallLayout.split ⟨k + 1, i / 2⟩ = true ∧
      smallLayout.alloc ⟨k, i⟩ = true ∧ smallLayout.split ⟨k, i⟩ = false → k = 0 ∧ i < 10 := by
    decide +kernel
  have hreserved : ∀ i < 10, i < 2 ^ 4 ∧ smallLayout.split ⟨1, i / 2⟩ = true ∧
      smallLayout.alloc ⟨0, i⟩ = true := by
    decide +kernel
  have hbelow : ∀ c ∈ [⟨1, 5⟩, ⟨2, 3⟩] ++ (List.range 10).map (Block.mk 0),
      ∀ k < 3, ∀ i < 16, (⟨k, i⟩ : Block).Below c → smallLayout.split ⟨k, i⟩ = false ∧
        ((⟨k, i⟩ : Block) ≠ c → smallLayout.alloc ⟨k, i⟩ = false) := by
    decide +kernel
  have hleaf : ∀ c, smallLayout.Leaf smallReserved c →
      c ∈ [⟨1, 5⟩, ⟨2, 3⟩] ++ (List.range 10).map (Block.mk 0) := by
    rintro c (hfree | hhanded | ⟨hlevel, hindex⟩)
    · rcases smallFree_mem hfree with rfl | rfl <;> simp
    · cases hhanded
    · refine mem_append_right _ (mem_map.mpr ⟨c.index, mem_range.mpr hindex, ?_⟩)
      rw [← hlevel]
  refine ⟨rfl, ?_, ?_, ?_, nodup_nil, by simp [smallLayout, layout], ?_, ?_, ?_, ?_⟩
  · intro b hb
    rcases smallFree_mem hb with rfl | rfl
    · exact ⟨⟨by decide, by decide, by decide⟩, by decide⟩
    · exact ⟨⟨by decide, by decide, by decide⟩, by decide⟩
  · intro k
    simp only [smallLayout, layout, smallFree]
    split <;> simp
  · rintro ⟨k, i⟩ (hhanded | ⟨hlevel, hindex⟩)
    · cases hhanded
    · obtain rfl : k = 0 := hlevel
      obtain ⟨hlt, hsplit, halloc⟩ := hreserved i hindex
      exact ⟨⟨Nat.zero_lt_succ 3, hlt, hsplit⟩, halloc⟩
  · rintro ⟨k, i⟩ hb
    exact hcovered k hb.level_lt i hb.index_lt hb.parent
  · rintro ⟨k, i⟩ hb
    exact hmerged k hb.level_lt i hb.index_lt hb.parent
  · rintro c hc ⟨k, i⟩ hb
    have hmem := hleaf c hc
    have hbounds : ∀ c ∈ [⟨1, 5⟩, ⟨2, 3⟩] ++ (List.range 10).map (Block.mk 0),
        c.level < 3 ∧ (c.index + 1) * 2 ^ c.level ≤ 16 := by
      decide
    obtain ⟨hlevel, hindex⟩ := hbounds c hmem
    refine hbelow c hmem k (lt_of_le_of_lt hb.1 hlevel) i ?_ hb
    have hlt : i < (c.index + 1) * 2 ^ (c.level - k) := by
      rw [← hb.2]
      exact Nat.lt_mul_of_div_lt (Nat.lt_succ_self _) (Nat.two_pow_pos _)
    have hle : (c.index + 1) * 2 ^ (c.level - k) ≤ (c.index + 1) * 2 ^ c.level :=
      Nat.mul_le_mul_left _ (Nat.pow_le_pow_right (by decide) (Nat.sub_le _ _))
    omega
  · rintro ⟨k, i⟩ hb halloc hsplit
    exact .inr (hcomplete k hb.level_lt i hb.index_lt ⟨hb.parent, halloc, hsplit⟩)

theorem smallHeap_good : Good smallHeap smallReserved smallFree ⟨smallState, []⟩ where
  rep := ⟨smallHeap_rings, smallHeap_valid⟩
  pointer := by simp
  nbytes := by simp

/-- Perform a list of actions. -/
def Heap.performAll (h : Heap) : List Action → System → Option System
  | [], sys => some sys
  | action :: actions, sys =>
    match h.perform action sys with
    | none => none
    | some sys' => performAll h actions sys'

theorem run_of_performAll {actions : List Action} (hrun : Run h start sys)
    (hperform : h.performAll actions sys = some sys') : Run h start sys' := by
  induction actions generalizing sys with
  | nil =>
    cases hperform
    exact hrun
  | cons action actions ih =>
    simp only [Heap.performAll] at hperform
    split at hperform
    · cases hperform
    next next hnext => exact ih (.step hrun hnext) hperform

/-- A block of one unit is split off twice, used, and one of the blocks goes back. -/
def smallActions : List Action :=
  [.malloc 20, .malloc 10, .write ⟨4288, 10⟩ 4288 1 2, .malloc 16, .free ⟨4288, 10⟩]

theorem buddy_sound_smallHeap :
    ∃ sys, Run smallHeap ⟨smallState, []⟩ sys ∧ sys.live = [⟨4304, 16⟩, ⟨4256, 20⟩] ∧
      ∃ free, Good smallHeap smallReserved free sys ∧ bytes smallHeap free sys.live = 96 := by
  have hplay : (smallHeap.performAll smallActions ⟨smallState, []⟩).map System.live =
      some [⟨4304, 16⟩, ⟨4256, 20⟩] := by
    decide +kernel
  obtain ⟨sys, hsys, hlive⟩ := Option.map_eq_some_iff.mp hplay
  have hrun := run_of_performAll .refl hsys
  obtain ⟨free, hgood, hbytes, -⟩ := buddy_sound smallHeap_fits smallHeap_good hrun
  exact ⟨sys, hrun, hlive, free, hgood, hbytes.trans (by decide)⟩

theorem malloc_fails_only_full_smallHeap : ∃ b, (b ∈ [] ∨ b ∈ smallReserved) ∧
    (b.Below ⟨3, 1⟩ ∨ (⟨3, 1⟩ : Block).Below b) :=
  malloc_fails_only_full smallHeap_fits smallHeap_good .refl 64 100 rfl ⟨by decide, by decide⟩ rfl

theorem free_undoes_malloc_smallHeap : ∃ sys, Run smallHeap ⟨smallState, []⟩ sys ∧
    sys.state.list.next 4128 = 4256 ∧ Restored smallHeap smallFree smallState sys.state := by
  have hplay : (smallHeap.performAll [.malloc 20, .malloc 10, .free ⟨4256, 20⟩, .free ⟨4288, 10⟩]
      ⟨smallState, []⟩).map (fun sys => (sys.live, sys.state.list.next 4128)) =
        some ([], 4256) := by
    decide +kernel
  obtain ⟨sys, hsys, hlive⟩ := Option.map_eq_some_iff.mp hplay
  obtain ⟨hlive, hnext⟩ := Prod.mk.inj hlive
  have hrun := run_of_performAll .refl hsys
  refine ⟨sys, hrun, hnext, (free_undoes_malloc smallHeap_fits smallHeap_good).2 sys hrun ?_⟩
  rw [hlive]
  exact fun _ => Iff.rfl

end Xv6.Buddy
