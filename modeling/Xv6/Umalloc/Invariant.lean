import Xv6.Circular.Walk
import Xv6.FreeList.Blocks
import Xv6.Umalloc.Code

/-!
# The invariant of the user-level allocator

The headers in memory form a circular list through `base` that stands for a sorted list of free
blocks no two of which touch; the blocks in use are disjoint from these and from each other, and the
units of all blocks add up to what was obtained from `sbrk`. `Good.free_spec`, `Good.morecore_spec`
and `Good.takeFrom_spec` say that each part of the code keeps this, as long as no sum of sizes
wraps.
-/

namespace Xv6.Umalloc

open Blocks Circular Function Option
open List hiding Disjoint

export Blocks (Block)

variable {base : Nat} {s : State} {free live : List Block}

/-- The header of `base` as a block without any units. -/
def baseBlock (base : Nat) : Block := ⟨base, 0⟩

/-- The headers of `blocks` in memory are linked in this order, and the last one leads to `base`. -/
structure Segment (base : Nat) (s : State) (blocks : List Block) : Prop where
  links : Links s.ptr (blocks.map Block.addr ++ [base])
  sizes : ∀ b ∈ blocks, s.size b.addr = b.units

/-- The free list in memory stands for the blocks `free`. -/
structure FreeList (base : Nat) (s : State) (free : List Block) : Prop where
  segment : Segment base s (baseBlock base :: free)
  separate : Separate headerSize (baseBlock base :: free)
  positive : ∀ b ∈ free, 0 < b.units
  freep : s.freep ∈ base :: free.map Block.addr

/-- The state of the allocator with the blocks `free` in its list and the blocks `live` in use. -/
structure Good (base : Nat) (s : State) (free live : List Block) : Prop where
  list : FreeList base s free
  sizes : ∀ b ∈ live, s.size b.addr = b.units
  positive : ∀ b ∈ live, 0 < b.units
  disjoint : live.Pairwise fun b c => Disjoint (b.extent headerSize) (c.extent headerSize)
  apart : ∀ b ∈ live, Disjoint (b.extent headerSize) (extent headerSize free)
  base_le : base + headerSize ≤ s.brk
  inside : extent headerSize (free ++ live) ⊆ Set.Ico (base + headerSize) s.brk
  total : total free + total live = s.obtained

theorem headerSize_pos : 0 < headerSize := by decide

theorem total_baseBlock (base : Nat) (free : List Block) :
    total (baseBlock base :: free) = total free := by
  exact zero_add _

theorem extent_baseBlock (base : Nat) (free : List Block) :
    extent headerSize (baseBlock base :: free) = extent headerSize free := by
  rw [extent_cons]
  simp [Block.extent, Block.stop, baseBlock]

theorem addr_mem_nodes {b : Block} (h : b ∈ baseBlock base :: free) :
    b.addr ∈ base :: free.map Block.addr := by
  have hmem : b.addr ∈ (baseBlock base :: free).map Block.addr := mem_map_of_mem h
  exact hmem

theorem base_lt_addr (h : Separate headerSize (baseBlock base :: free)) :
    ∀ b ∈ free, base < b.addr :=
  (pairwise_cons.mp h.pairwise).1

/-! ### What the parts of the code leave alone -/

@[simp] theorem join_brk (s : State) (b n : Nat) : (s.join b n).brk = s.brk := by
  unfold State.join
  split <;> rfl

@[simp] theorem join_obtained (s : State) (b n : Nat) : (s.join b n).obtained = s.obtained := by
  unfold State.join
  split <;> rfl

theorem join_ptr_of_ne {a b : Nat} (s : State) (n : Nat) (h : a ≠ b) :
    (s.join b n).ptr a = s.ptr a := by
  unfold State.join
  split <;> exact update_of_ne h _ _

theorem join_size_of_ne {a b : Nat} (s : State) (n : Nat) (h : a ≠ b) :
    (s.join b n).size a = s.size a := by
  unfold State.join
  split
  · exact update_of_ne h _ _
  · rfl

/-! ### Segments -/

namespace Segment

variable {blocks before after rest : List Block} {b x : Block} {s' : State}

/-- A segment depends only on the headers of its blocks. -/
theorem congr (h : Segment base s blocks) (hptr : ∀ b ∈ blocks, s'.ptr b.addr = s.ptr b.addr)
    (hsize : ∀ b ∈ blocks, s'.size b.addr = s.size b.addr) : Segment base s' blocks where
  links := by
    refine h.links.congr fun a ha => ?_
    obtain ⟨b, hb, rfl⟩ := mem_map.mp ha
    exact hptr b hb
  sizes := fun b hb => (hsize b hb).trans (h.sizes b hb)

theorem right (h : Segment base s (before ++ after)) : Segment base s after where
  links := by
    have hlinks := h.links
    rw [map_append, append_assoc] at hlinks
    exact List.IsChain.right_of_append hlinks
  sizes := fun b hb => h.sizes b (mem_append_right _ hb)

theorem tail (h : Segment base s (b :: rest)) : Segment base s rest :=
  (show Segment base s ([b] ++ rest) from h).right

theorem ptr_eq (h : Segment base s (b :: rest)) :
    (rest.map Block.addr ++ [base]).head? = some (s.ptr b.addr) := by
  have hlinks := h.links
  cases rest with
  | nil =>
    rw [map_cons, map_nil, cons_append, nil_append, Links, isChain_pair] at hlinks
    rw [hlinks]
    rfl
  | cons c rest =>
    rw [map_cons, map_cons, cons_append, cons_append, Links, isChain_cons_cons] at hlinks
    rw [hlinks.1]
    rfl

theorem cons (h : Segment base s rest) (hsize : s.size b.addr = b.units)
    (hptr : (rest.map Block.addr ++ [base]).head? = some (s.ptr b.addr)) :
    Segment base s (b :: rest) where
  links := by
    rw [map_cons, cons_append, Links, isChain_cons]
    refine ⟨fun a ha => ?_, h.links⟩
    rw [mem_def.mp ha] at hptr
    exact (some.inj hptr).symm
  sizes := forall_mem_cons.mpr ⟨hsize, h.sizes⟩

/-- Replacing the end of a segment by one that starts at the same address. -/
theorem replace {c : Block} (h : Segment base s (before ++ x :: after))
    (hrest : Segment base s' (c :: rest)) (haddr : c.addr = x.addr)
    (hptr : ∀ b ∈ before, s'.ptr b.addr = s.ptr b.addr)
    (hsize : ∀ b ∈ before, s'.size b.addr = s.size b.addr) :
    Segment base s' (before ++ c :: rest) where
  links := by
    have hlinks := h.links
    have hlinks' := hrest.links
    simp only [map_append, map_cons, append_assoc, cons_append, haddr] at hlinks hlinks' ⊢
    rw [Links, isChain_split] at hlinks ⊢
    refine ⟨Links.congr hlinks.1 fun a ha => ?_, hlinks'⟩
    obtain ⟨b, hb, rfl⟩ := mem_map.mp ha
    exact hptr b hb
  sizes := by
    intro b hb
    rcases mem_append.mp hb with hb | hb
    · rw [hsize b hb]
      exact h.sizes b (mem_append_left _ hb)
    · exact hrest.sizes b hb

theorem join {n : Nat} (h : Segment base s rest)
    (hn : (rest.map Block.addr ++ [base]).head? = some n) (hsize : s.size b.addr = b.units)
    (hfresh : ∀ c ∈ rest, c.addr ≠ b.addr) (hbase : rest = [] → b.stop headerSize ≠ base)
    (hlt : b.units + Blocks.total rest < 2 ^ 32) :
    Segment base (s.join b.addr n) (absorb headerSize b rest) := by
  have hrest : Segment base (s.join b.addr n) rest :=
    h.congr (fun c hc => join_ptr_of_ne s n (hfresh c hc))
      fun c hc => join_size_of_ne s n (hfresh c hc)
  cases rest with
  | nil =>
    obtain rfl : base = n := by simpa using hn
    have hne : b.addr + headerSize * s.size b.addr ≠ base := by
      rw [hsize]
      exact hbase rfl
    have hjoin : s.join b.addr base = { s with ptr := update s.ptr b.addr base } := by
      rw [State.join, if_neg hne]
    rw [hjoin] at hrest ⊢
    refine hrest.cons hsize ?_
    rw [map_nil, nil_append, head?_cons]
    exact congrArg some (update_self b.addr base s.ptr).symm
  | cons c rest =>
    obtain rfl : c.addr = n := by simpa using hn
    simp only [absorb]
    by_cases htouch : b.stop headerSize = c.addr
    · have htest : b.addr + headerSize * s.size b.addr = c.addr := by rwa [hsize]
      have hc : s.size c.addr = c.units := h.sizes c mem_cons_self
      rw [total_cons] at hlt
      rw [if_pos htouch]
      refine hrest.tail.cons ?_ ?_
      · rw [State.join, if_pos htest]
        show update s.size b.addr _ b.addr = _
        rw [update_self, hsize, hc]
        exact Nat.mod_eq_of_lt (by omega)
      · rw [State.join, if_pos htest]
        show _ = some (update s.ptr b.addr _ b.addr)
        rw [update_self]
        exact h.ptr_eq
    · have htest : b.addr + headerSize * s.size b.addr ≠ c.addr := by rwa [hsize]
      rw [if_neg htouch]
      refine hrest.cons ?_ ?_
      · rwa [State.join, if_neg htest]
      · rw [State.join, if_neg htest]
        exact congrArg some (update_self b.addr c.addr s.ptr).symm

end Segment

/-! ### The search in `free` -/

namespace FreeList

theorem cycle (h : FreeList base s free) : Cycle s.ptr base (free.map Block.addr) := h.segment.links

theorem exists_block {p : Nat} (hp : p ∈ base :: free.map Block.addr) :
    ∃ before x after, baseBlock base :: free = before ++ x :: after ∧ x.addr = p := by
  have hmem : p ∈ (baseBlock base :: free).map Block.addr := hp
  obtain ⟨x, hx, hxp⟩ := mem_map.mp hmem
  obtain ⟨before, after, hsplit⟩ := append_of_mem hx
  exact ⟨before, x, after, hsplit, hxp⟩

/-- The loop of `free` stops at the last block in front of `bp`. -/
theorem stopsAt_iff (h : FreeList base s free) {before after : List Block} {x : Block}
    (hsplit : baseBlock base :: free = before ++ x :: after) {bp : Nat} (hbp : base < bp) :
    stopsAt s bp x.addr ↔ x.addr < bp ∧ ∀ y ∈ after.head?, bp < y.addr := by
  have hsegment := h.segment
  have hseparate := h.separate
  rw [hsplit] at hsegment hseparate
  have hptr := hsegment.right.ptr_eq
  cases after with
  | nil =>
    have hnext : base = s.ptr x.addr := by simpa using hptr
    have hle : base ≤ x.addr := by
      cases before with
      | nil =>
        obtain rfl : baseBlock base = x := (List.cons.inj hsplit).1
        rfl
      | cons b before =>
        obtain rfl : baseBlock base = b := (List.cons.inj hsplit).1
        have hlt := (pairwise_cons.mp hseparate.pairwise).1 x (by simp)
        exact (Nat.le_add_right _ _).trans (le_of_lt hlt)
    simp only [stopsAt, ← hnext]
    constructor
    · intro hstop
      exact ⟨by omega, fun y hy => by simp at hy⟩
    · rintro ⟨hlt, -⟩
      exact .inr ⟨hle, .inl hlt⟩
  | cons y after =>
    have hnext : y.addr = s.ptr x.addr := by simpa using hptr
    have hlt : x.addr < y.addr := by
      have hpairwise := (pairwise_append.mp hseparate.pairwise).2.1
      have hstop := (pairwise_cons.mp hpairwise).1 y mem_cons_self
      exact lt_of_le_of_lt (Nat.le_add_right _ _) hstop
    simp only [stopsAt, ← hnext, head?_cons, mem_def, some.injEq, forall_eq']
    omega

/-- What the loop of `free` finds. -/
theorem freeSearch_spec (h : FreeList base s free) {bp : Nat} {fuel p q : Nat}
    (hp : p ∈ base :: free.map Block.addr) (hq : freeSearch s bp fuel p = some q) :
    q ∈ base :: free.map Block.addr ∧ stopsAt s bp q := by
  induction fuel generalizing p with
  | zero => cases hq
  | succ fuel ih =>
    simp only [freeSearch] at hq
    split at hq
    next hstop =>
      cases hq
      exact ⟨hp, hstop⟩
    next => exact ih (h.cycle.next_mem hp) hq

end FreeList

/-- The loop of `free` comes to the first node at which it stops. -/
theorem freeSearch_of_first {bp k fuel p : Nat} (hstop : stopsAt s bp (s.ptr^[k] p))
    (hfirst : ∀ j < k, ¬ stopsAt s bp (s.ptr^[j] p)) (hfuel : k < fuel) :
    freeSearch s bp fuel p = some (s.ptr^[k] p) := by
  induction k generalizing p fuel with
  | zero =>
    obtain ⟨fuel, rfl⟩ := Nat.exists_eq_add_of_lt hfuel
    have hstop : stopsAt s bp p := hstop
    rw [zero_add, freeSearch, if_pos hstop]
    rfl
  | succ k ih =>
    obtain ⟨fuel, rfl⟩ : ∃ rest, fuel = rest + 1 := ⟨fuel - 1, by omega⟩
    have hnot : ¬ stopsAt s bp p := hfirst 0 (Nat.succ_pos k)
    rw [freeSearch, if_neg hnot]
    refine ih hstop (fun j hj => ?_) (by omega)
    exact hfirst (j + 1) (by omega)

/-- The loop of `free` ends. -/
theorem FreeList.freeSearch_total (h : FreeList base s free) {bp fuel : Nat} (hbp : base < bp)
    (hfresh : ∀ b ∈ free, b.addr ≠ bp) (hfuel : 2 * free.length + 1 < fuel) :
    ∃ p, freeSearch s bp fuel s.freep = some p := by
  have hfirst : (baseBlock base).addr < bp := hbp
  obtain ⟨before, x, after, hsplit, hx, hafter⟩ := Blocks.exists_split free hfirst
  have hne : ∀ y ∈ baseBlock base :: free, y.addr ≠ bp := forall_mem_cons.mpr ⟨ne_of_lt hbp, hfresh⟩
  have hstop : stopsAt s bp x.addr := by
    rw [h.stopsAt_iff hsplit hbp]
    refine ⟨hx, fun y hy => Nat.lt_of_le_of_ne (hafter y hy) (hne y ?_).symm⟩
    rw [hsplit]
    exact mem_append_right _ (mem_cons_of_mem x (mem_of_mem_head? hy))
  have hxmem : x.addr ∈ base :: free.map Block.addr := by
    have hmem : x ∈ baseBlock base :: free := by
      rw [hsplit]
      exact mem_append_right _ mem_cons_self
    exact addr_mem_nodes hmem
  obtain ⟨k, hk, hwalk⟩ := h.cycle.iterate h.freep hxmem
  rw [length_map] at hk
  obtain ⟨j, hj, hstop', hfirst'⟩ := exists_first s.ptr (stopsAt s bp) s.freep
    ⟨k, hk, hwalk.symm ▸ hstop⟩
  exact ⟨_, freeSearch_of_first hstop' hfirst' (by omega)⟩

/-! ### `free` -/

section Insert

variable {before after : List Block} {x b : Block}

/-- A block behind `base` is never merged with it, so the list still starts with `base`. -/
theorem exists_insert_eq_cons (hsplit : baseBlock base :: free = before ++ x :: after)
    (habove : base < b.addr) :
    ∃ free', before ++ absorb headerSize x (absorb headerSize b after) =
      baseBlock base :: free' := by
  cases before with
  | cons c before =>
    obtain rfl : baseBlock base = c := (List.cons.inj hsplit).1
    exact ⟨_, rfl⟩
  | nil =>
    obtain rfl : baseBlock base = x := (List.cons.inj hsplit).1
    obtain ⟨c, rest, hc, haddr⟩ := absorb_eq_cons headerSize b after
    have hne : (baseBlock base).stop headerSize ≠ c.addr := by
      simp only [Block.stop, baseBlock]
      omega
    rw [hc, nil_append, absorb, if_neg hne]
    exact ⟨_, rfl⟩

/-- The two tests of `free` put the block into the list in memory. -/
theorem Segment.insert (h : Segment base s (before ++ x :: after))
    (hseparate : Separate headerSize (before ++ x :: after)) (hsize : s.size b.addr = b.units)
    (hxb : x.addr < b.addr)
    (hb : ∀ y ∈ after.head?, b.stop headerSize ≤ y.addr)
    (hfresh : ∀ c ∈ before ++ x :: after, c.addr ≠ b.addr) (habove : base < b.addr)
    (hlt : Blocks.total (before ++ x :: after) + b.units < 2 ^ 32) :
    Segment base ((s.join b.addr (s.ptr x.addr)).join x.addr b.addr)
      (before ++ absorb headerSize x (absorb headerSize b after)) := by
  rw [total_append, total_cons] at hlt
  have hpairwise := pairwise_append.mp hseparate.pairwise
  have hstop : ∀ c : Block, c.addr ≤ c.stop headerSize := fun c => Nat.le_add_right _ _
  -- `bp` in front of the blocks behind it
  have hfirst : Segment base (s.join b.addr (s.ptr x.addr)) (absorb headerSize b after) := by
    refine h.right.tail.join h.right.ptr_eq hsize ?_ ?_ (by omega)
    · intro c hc
      exact hfresh c (mem_append_right _ (mem_cons_of_mem x hc))
    · intro _
      have := hstop b
      omega
  -- `p` in front of the result
  obtain ⟨c, rest, hc, haddr⟩ := absorb_eq_cons headerSize b after
  have hseparate' : Separate headerSize (c :: rest) := by
    rw [← hc]
    have hafter : Separate headerSize after := (List.IsChain.right_of_append hseparate).tail
    exact hafter.absorb hb
  have hlast := hfirst.join (b := x) (n := b.addr) (by simp [hc, haddr])
    (by rw [join_size_of_ne s _ (ne_of_lt hxb)]; exact h.right.sizes x mem_cons_self)
    (by
      rw [hc]
      intro d hd
      rcases mem_cons.mp hd with rfl | hd
      · omega
      · have := (pairwise_cons.mp hseparate'.pairwise).1 d hd
        have := hstop c
        omega)
    (by simp [hc]) (by rw [total_absorb]; omega)
  obtain ⟨d, rest', hd, haddr'⟩ := absorb_eq_cons headerSize x (absorb headerSize b after)
  rw [hd] at hlast ⊢
  have hbefore : ∀ c ∈ before, c.addr ≠ x.addr ∧ c.addr ≠ b.addr := by
    intro c hc
    have hlt := hpairwise.2.2 c hc x mem_cons_self
    have hle := hstop c
    omega
  refine h.replace hlast haddr' (fun c hc => ?_) fun c hc => ?_
  · rw [join_ptr_of_ne _ _ (hbefore c hc).1, join_ptr_of_ne _ _ (hbefore c hc).2]
  · rw [join_size_of_ne _ _ (hbefore c hc).1, join_size_of_ne _ _ (hbefore c hc).2]

end Insert

theorem FreeList.free_spec {b : Block} {fuel : Nat} {s' : State} (h : FreeList base s free)
    (hsize : s.size b.addr = b.units) (hpos : 0 < b.units) (habove : base < b.addr)
    (hdisjoint : Disjoint (b.extent headerSize) (extent headerSize free))
    (hlt : Blocks.total free + b.units < 2 ^ 32)
    (hs' : Umalloc.free fuel (b.addr + headerSize) s = some s') :
    ∃ free', FreeList base s' free' ∧
      extent headerSize free' = extent headerSize free ∪ b.extent headerSize ∧
      Blocks.total free' = Blocks.total free + b.units ∧
      (∃ c ∈ free', b.units ≤ c.units) ∧ free'.length ≤ free.length + 1 ∧
      (∀ a, a ≠ b.addr → a ∉ base :: free.map Block.addr → s'.size a = s.size a) ∧
      s'.brk = s.brk ∧ s'.obtained = s.obtained := by
  unfold Umalloc.free at hs'
  rw [Nat.add_sub_cancel] at hs'
  obtain ⟨p, hsearch, rfl⟩ := map_eq_some_iff.mp hs'
  obtain ⟨hp, hstop⟩ := h.freeSearch_spec h.freep hsearch
  obtain ⟨before, x, after, hsplit, rfl⟩ := exists_block hp
  rw [h.stopsAt_iff hsplit habove] at hstop
  obtain ⟨hx, hafter⟩ := hstop
  have hapart : ∀ c ∈ baseBlock base :: free,
      Disjoint (c.extent headerSize) (b.extent headerSize) := by
    refine forall_mem_cons.mpr ⟨?_, fun c hc => ?_⟩
    · exact disjoint_of_stop_le (by simp only [Block.stop, baseBlock]; omega)
    · exact (hdisjoint.mono_right (extent_subset hc)).symm
  have hpositive : ∀ c ∈ baseBlock base :: free, c.addr ≠ base → 0 < c.units :=
    forall_mem_cons.mpr ⟨fun hne => absurd rfl hne, fun c hc _ => h.positive c hc⟩
  obtain ⟨free', hfree'⟩ := exists_insert_eq_cons hsplit habove
  have hsegment := h.segment
  have hseparate := h.separate
  have htotal := total_baseBlock base free
  have hextent := extent_baseBlock base free
  have hxmem : x ∈ baseBlock base :: free := by
    rw [hsplit]
    exact mem_append_right _ mem_cons_self
  have hfresh : ∀ c ∈ baseBlock base :: free, c.addr ≠ b.addr := by
    intro c hc heq
    have hne : c.addr ≠ base := by omega
    have hmem := addr_mem_extent headerSize_pos (hpositive c hc hne)
    refine Set.disjoint_left.mp (hapart c hc) hmem ?_
    rw [heq]
    exact addr_mem_extent headerSize_pos hpos
  have hxb : x.stop headerSize ≤ b.addr :=
    stop_le_of_disjoint headerSize_pos (le_of_lt hx) hpos (hapart x hxmem)
  have hb : ∀ y ∈ after.head?, b.stop headerSize ≤ y.addr := by
    intro y hy
    have hlt := hafter y hy
    have hmem : y ∈ baseBlock base :: free := by
      rw [hsplit]
      exact mem_append_right _ (mem_cons_of_mem x (mem_of_mem_head? hy))
    exact stop_le_of_disjoint headerSize_pos (le_of_lt hlt)
      (hpositive y hmem (by omega)) (hapart y hmem).symm
  rw [hsplit] at hpositive hsegment hseparate htotal hextent hfresh
  have hsegment' := hsegment.insert hseparate hsize hx hb hfresh habove (by omega)
  have hseparate' := hseparate.insert hxb hb
  have hpositive' : ∀ c ∈ before ++ absorb headerSize x (absorb headerSize b after),
      c.addr ≠ base → 0 < c.units := by
    have hmerge : ∀ b c : Block, (b.addr ≠ base → 0 < b.units) → (c.addr ≠ base → 0 < c.units) →
        (Block.addr ⟨b.addr, b.units + c.units⟩ ≠ base →
          0 < Block.units ⟨b.addr, b.units + c.units⟩) :=
      fun b c hb _ hne => Nat.add_pos_left (hb hne) _
    rw [forall_mem_append, forall_mem_cons] at hpositive
    rw [forall_mem_append]
    refine ⟨hpositive.1, forall_absorb (hmerge x) hpositive.2.1 ?_⟩
    exact forall_absorb (hmerge b) (fun _ => hpos) hpositive.2.2
  have hextent' := extent_insert headerSize before after x b
  have htotal' := total_insert headerSize before after x b
  obtain ⟨c, hc, hbc⟩ := exists_le_insert headerSize before after x b
  have hfreep : x.addr ∈ (before ++ absorb headerSize x (absorb headerSize b after)).map
      Block.addr := by
    obtain ⟨d, rest, hd, haddr⟩ := absorb_eq_cons headerSize x (absorb headerSize b after)
    rw [hd, ← haddr]
    exact mem_map_of_mem (mem_append_right _ mem_cons_self)
  have hlength := length_insert_le headerSize before after x b
  rw [← hsplit, hfree', length_cons, length_cons] at hlength
  rw [hfree'] at hsegment' hseparate' hpositive' hextent' htotal' hc hfreep
  rw [extent_baseBlock, hextent] at hextent'
  rw [total_baseBlock, htotal] at htotal'
  have hpos' : ∀ c ∈ free', 0 < c.units := fun c hc =>
    hpositive' c (mem_cons_of_mem _ hc) (ne_of_gt (base_lt_addr hseparate' c hc))
  refine ⟨free', ⟨⟨hsegment'.links, hsegment'.sizes⟩, hseparate', hpos', hfreep⟩, hextent', htotal',
    ?_, by omega, ?_, by simp, by simp⟩
  · rcases mem_cons.mp hc with rfl | hc
    · exact absurd hbc (not_le.mpr hpos)
    · exact ⟨c, hc, hbc⟩
  · intro a hab ha
    have hax : a ≠ x.addr := fun heq => ha (heq ▸ addr_mem_nodes hxmem)
    rw [join_size_of_ne _ _ hax, join_size_of_ne _ _ hab]

end Xv6.Umalloc
