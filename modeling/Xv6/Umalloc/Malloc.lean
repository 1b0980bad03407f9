import Xv6.Umalloc.Invariant

/-!
# `malloc` and `morecore` keep the invariant

What moves a block between the free list and the blocks in use: `free_spec` for `free`,
`takeFrom_spec` for the end of `malloc`. A region that `sbrk` returned counts as a block in use
until `morecore` has freed it. The loop of `malloc` keeps the invariant whatever `sbrk` does, and it
ends, because after a successful `morecore` some block is large enough.
-/

namespace Xv6.Umalloc

open Blocks Circular Function List Option

variable {base fuel : Nat} {s s' : State} {free free' live : List Block} {b : Block}

namespace Good

/-- The header of a block in use is not a node of the free list. -/
theorem addr_not_mem (h : Good base s free live) (hb : b ∈ live) :
    b.addr ∉ base :: free.map Block.addr := by
  have hmem := addr_mem_extent headerSize_pos (h.positive b hb)
  have hinside := h.inside (extent_subset (mem_append_right free hb) hmem)
  intro haddr
  rcases mem_cons.mp haddr with hbase | haddr
  · have hle := hinside.1
    have hpos := headerSize_pos
    omega
  · obtain ⟨c, hc, hcb⟩ := mem_map.mp haddr
    refine Set.disjoint_left.mp (h.apart b hb) hmem (extent_subset hc ?_)
    rw [← hcb]
    exact addr_mem_extent headerSize_pos (h.list.positive c hc)

theorem perm {live' : List Block} (h : Good base s free live) (hperm : live.Perm live') :
    Good base s free live' where
  list := h.list
  sizes := fun c hc => h.sizes c (hperm.mem_iff.mpr hc)
  positive := fun c hc => h.positive c (hperm.mem_iff.mpr hc)
  disjoint := (hperm.pairwise_iff fun h => h.symm).mp h.disjoint
  apart := fun c hc => h.apart c (hperm.mem_iff.mpr hc)
  base_le := h.base_le
  inside := by
    rintro a ⟨c, hc, ha⟩
    exact h.inside ⟨c, (hperm.append_left free).mem_iff.mpr hc, ha⟩
  total := by
    rw [← h.total, Blocks.total, Blocks.total, Blocks.total, (hperm.map Block.units).sum_nat]

theorem takeIn (h : Good base s free (b :: live)) (hlist : FreeList base s' free')
    (hextent : extent headerSize free' = extent headerSize free ∪ b.extent headerSize)
    (htotal : Blocks.total free' = Blocks.total free + b.units)
    (hframe : ∀ a, a ≠ b.addr → a ∉ base :: free.map Block.addr → s'.size a = s.size a)
    (hbrk : s'.brk = s.brk) (hobtained : s'.obtained = s.obtained) : Good base s' free' live where
  list := hlist
  sizes := by
    intro c hc
    have hcb := (pairwise_cons.mp h.disjoint).1 c hc
    have hne : c.addr ≠ b.addr := by
      intro heq
      have hbmem := addr_mem_extent headerSize_pos (h.positive b mem_cons_self)
      refine Set.disjoint_left.mp hcb hbmem ?_
      rw [← heq]
      exact addr_mem_extent headerSize_pos (h.positive c (mem_cons_of_mem b hc))
    rw [hframe c.addr hne (h.addr_not_mem (mem_cons_of_mem b hc))]
    exact h.sizes c (mem_cons_of_mem b hc)
  positive := fun c hc => h.positive c (mem_cons_of_mem b hc)
  disjoint := (pairwise_cons.mp h.disjoint).2
  apart := by
    intro c hc
    rw [hextent]
    exact Disjoint.union_right (h.apart c (mem_cons_of_mem b hc))
      ((pairwise_cons.mp h.disjoint).1 c hc).symm
  base_le := hbrk ▸ h.base_le
  inside := by
    have hinside := h.inside
    rw [extent_append, extent_cons, ← Set.union_assoc, ← hextent, ← hbrk] at hinside
    rwa [extent_append]
  total := by
    have hsum := h.total
    rw [total_cons] at hsum
    omega

theorem handOut (h : Good base s free live) (hlist : FreeList base s' free')
    (hextent : extent headerSize free = extent headerSize free' ∪ b.extent headerSize)
    (hdisjoint : Disjoint (b.extent headerSize) (extent headerSize free'))
    (htotal : Blocks.total free = Blocks.total free' + b.units)
    (hsize : s'.size b.addr = b.units) (hpos : 0 < b.units)
    (hframe : ∀ a, a ∉ extent headerSize free → s'.size a = s.size a)
    (hbrk : s'.brk = s.brk) (hobtained : s'.obtained = s.obtained) :
    Good base s' free' (b :: live) where
  list := hlist
  sizes := by
    refine forall_mem_cons.mpr ⟨hsize, fun c hc => ?_⟩
    have hmem := addr_mem_extent headerSize_pos (h.positive c hc)
    rw [hframe c.addr (Set.disjoint_left.mp (h.apart c hc) hmem)]
    exact h.sizes c hc
  positive := forall_mem_cons.mpr ⟨hpos, h.positive⟩
  disjoint := by
    refine pairwise_cons.mpr ⟨fun c hc => ?_, h.disjoint⟩
    have hapart := h.apart c hc
    rw [hextent] at hapart
    exact (hapart.mono_right Set.subset_union_right).symm
  apart := by
    refine forall_mem_cons.mpr ⟨hdisjoint, fun c hc => ?_⟩
    have hapart := h.apart c hc
    rw [hextent] at hapart
    exact hapart.mono_right Set.subset_union_left
  base_le := hbrk ▸ h.base_le
  inside := by
    have hinside := h.inside
    rwa [extent_append, hextent, Set.union_assoc, ← extent_cons, ← extent_append, ← hbrk] at hinside
  total := by
    have hsum := h.total
    rw [total_cons]
    omega

theorem free_spec (h : Good base s free (b :: live)) (hlt : s.obtained < 2 ^ 32)
    (hs' : Umalloc.free fuel (b.addr + headerSize) s = some s') :
    ∃ free', Good base s' free' live ∧ (∃ c ∈ free', b.units ≤ c.units) ∧
      free'.length ≤ free.length + 1 := by
  have hpos := h.positive b mem_cons_self
  have hmem := addr_mem_extent headerSize_pos hpos
  have hinside := h.inside (extent_subset (mem_append_right free mem_cons_self) hmem)
  have hle := hinside.1
  have hheader := headerSize_pos
  have htotal := h.total
  rw [total_cons] at htotal
  obtain ⟨free', hlist, hextent, htotal', hlarge, hlength, hframe, hbrk, hobtained⟩ :=
    h.list.free_spec (h.sizes b mem_cons_self) hpos (by omega)
      (h.apart b mem_cons_self) (by omega) hs'
  exact ⟨free', h.takeIn hlist hextent htotal' hframe hbrk hobtained, hlarge, hlength⟩

theorem free_total (h : Good base s free (b :: live)) (hfuel : 2 * free.length + 1 < fuel) :
    ∃ s', Umalloc.free fuel (b.addr + headerSize) s = some s' := by
  have hnot := h.addr_not_mem mem_cons_self
  have hmem := addr_mem_extent headerSize_pos (h.positive b mem_cons_self)
  have hinside := h.inside (extent_subset (mem_append_right free mem_cons_self) hmem)
  have hle := hinside.1
  have hheader := headerSize_pos
  have hfresh : ∀ c ∈ free, c.addr ≠ b.addr := by
    intro c hc heq
    exact hnot (mem_cons_of_mem base (heq ▸ mem_map_of_mem hc))
  obtain ⟨p, hp⟩ := h.list.freeSearch_total (show base < b.addr by omega) hfresh hfuel
  simp only [Umalloc.free, Nat.add_sub_cancel, hp, map_some]
  exact ⟨_, rfl⟩

end Good

/-! ### The end of `malloc` -/

variable {before after : List Block} {x c : Block} {nunits prevp : Nat}

theorem exists_front (hsplit : baseBlock base :: free = before ++ x :: after) :
    ∃ front, free = front ++ after ∧
      ∀ rest, before ++ x :: rest = baseBlock base :: (front ++ rest) := by
  cases before with
  | nil =>
    cases hsplit
    exact ⟨[], rfl, fun rest => rfl⟩
  | cons c before =>
    cases hsplit
    refine ⟨before ++ [x], by simp, fun rest => by simp⟩

theorem Segment.unlink (h : Segment base s (before ++ x :: c :: after))
    (hseparate : Separate headerSize (before ++ x :: c :: after)) :
    Segment base { s with ptr := update s.ptr x.addr (s.ptr c.addr), freep := x.addr }
      (before ++ x :: after) := by
  have hpairwise := pairwise_append.mp hseparate.pairwise
  have hbehind := (pairwise_cons.mp hpairwise.2.1).1
  have hle : ∀ d : Block, d.addr ≤ d.stop headerSize := fun d => Nat.le_add_right _ _
  have hafter : Segment base
      { s with ptr := update s.ptr x.addr (s.ptr c.addr), freep := x.addr } after := by
    refine h.right.tail.tail.congr (fun d hd => ?_) fun d hd => rfl
    have hlt := hbehind d (mem_cons_of_mem c hd)
    have hx := hle x
    exact update_of_ne (by omega) _ _
  refine h.replace (hafter.cons (h.right.sizes x mem_cons_self) ?_) rfl (fun d hd => ?_)
    fun d hd => rfl
  · show _ = some (update s.ptr x.addr (s.ptr c.addr) x.addr)
    rw [update_self]
    exact h.right.tail.ptr_eq
  · have hlt := hpairwise.2.2 d hd x mem_cons_self
    have hd := hle d
    exact update_of_ne (by omega) _ _

theorem cut_sum {units : Nat} (hlt : nunits ≤ units) :
    headerSize * (units - nunits) + headerSize * nunits = headerSize * units := by
  rw [← mul_add, Nat.sub_add_cancel hlt]

theorem Segment.cut (h : Segment base s (before ++ c :: after))
    (hseparate : Separate headerSize (before ++ c :: after)) (hlt : nunits < c.units) :
    Segment base { s with
        size := update (update s.size c.addr (c.units - nunits))
          (c.addr + headerSize * (c.units - nunits)) nunits
        freep := prevp }
      (before ++ ⟨c.addr, c.units - nunits⟩ :: after) := by
  have hpairwise := pairwise_append.mp hseparate.pairwise
  have hbehind := (pairwise_cons.mp hpairwise.2.1).1
  have hinfront := fun d hd => hpairwise.2.2 d hd c mem_cons_self
  have hle : ∀ d : Block, d.addr ≤ d.stop headerSize := fun d => Nat.le_add_right _ _
  have hstop : c.stop headerSize = c.addr + headerSize * c.units := rfl
  have hsum := cut_sum (le_of_lt hlt)
  have hhead : 0 < headerSize * (c.units - nunits) := mul_pos headerSize_pos (by omega)
  constructor
  · have hlinks := h.links
    rw [map_append, map_cons] at hlinks ⊢
    exact hlinks
  · intro d hd
    have hother : ∀ d : Block, d.addr ≠ c.addr →
        d.addr ≠ c.addr + headerSize * (c.units - nunits) → s.size d.addr = d.units →
        update (update s.size c.addr (c.units - nunits))
          (c.addr + headerSize * (c.units - nunits)) nunits d.addr = d.units := by
      intro d hne hne' hsize
      rw [update_of_ne hne', update_of_ne hne, hsize]
    rcases mem_append.mp hd with hd | hd
    · have hfront := hinfront d hd
      have hd' := hle d
      exact hother d (by omega) (by omega) (h.sizes d (mem_append_left _ hd))
    · rcases mem_cons.mp hd with rfl | hd
      · dsimp only
        rw [update_of_ne (by omega), update_self]
      · have hback := hbehind d hd
        exact hother d (by omega) (by omega) (h.sizes d (mem_append_right _ (mem_cons_of_mem c hd)))

theorem separate_cut (hle : nunits ≤ c.units) (h : Separate headerSize (before ++ c :: after)) :
    Separate headerSize (before ++ ⟨c.addr, c.units - nunits⟩ :: after) := by
  refine Separate.replace h ?_ rfl
  have hright := List.IsChain.right_of_append h
  rw [isChain_cons] at hright
  rw [Separate, isChain_cons]
  refine ⟨fun d hd => ?_, hright.2⟩
  have hlt := hright.1 d hd
  have hsum := cut_sum hle
  simp only [Block.stop] at hlt ⊢
  omega

/-- The blocks that are left when `c` is taken out of the list. -/
theorem FreeList.without {front : List Block} (h : FreeList base s (front ++ c :: after)) :
    Disjoint (c.extent headerSize) (extent headerSize (front ++ after)) ∧
      extent headerSize (front ++ c :: after) =
        extent headerSize (front ++ after) ∪ c.extent headerSize ∧
      Blocks.total (front ++ c :: after) = Blocks.total (front ++ after) + c.units := by
  refine ⟨?_, ?_, ?_⟩
  · have hseparate : Separate headerSize (baseBlock base :: front ++ c :: after) := h.separate
    have hother := hseparate.disjoint
    rwa [cons_append, extent_baseBlock] at hother
  · rw [extent_append, extent_cons, extent_append]
    ext a
    simp only [Set.mem_union]
    tauto
  · rw [total_append, total_cons, total_append]
    omega

section

variable (h : Good base s free live)
include h

theorem Good.unlink (hsplit : baseBlock base :: free = before ++ x :: c :: after) :
    ∃ free', Good base { s with ptr := update s.ptr x.addr (s.ptr c.addr), freep := x.addr }
      free' (c :: live) := by
  obtain ⟨front, rfl, hfront⟩ := exists_front hsplit
  obtain ⟨hdisjoint, hextent, htotal⟩ := h.list.without
  have hc : c ∈ front ++ c :: after := mem_append_right _ mem_cons_self
  have hsub : (front ++ after).Sublist (front ++ c :: after) :=
    (sublist_cons_self c after).append_left front
  have hsegment := h.list.segment
  have hseparate := h.list.separate
  rw [hsplit] at hsegment hseparate
  refine ⟨front ++ after, h.handOut ⟨?_, ?_, ?_, ?_⟩ hextent hdisjoint htotal
    (h.list.segment.sizes c (mem_cons_of_mem _ hc)) (h.list.positive c hc)
    (fun _ _ => rfl) rfl rfl⟩
  · rw [← hfront]
    exact hsegment.unlink hseparate
  · exact h.list.separate.sublist (hsub.cons_cons _)
  · exact fun d hd => h.list.positive d (hsub.subset hd)
  · have hmem : x ∈ baseBlock base :: (front ++ after) := by
      rw [← hfront]
      exact mem_append_right _ mem_cons_self
    exact addr_mem_nodes hmem

theorem Good.cut (hsplit : baseBlock base :: free = before ++ x :: c :: after)
    (hpos : 0 < nunits) (hlt : nunits < c.units) :
    ∃ free', Good base { s with
        size := update (update s.size c.addr (c.units - nunits))
          (c.addr + headerSize * (c.units - nunits)) nunits
        freep := x.addr }
      free' (⟨c.addr + headerSize * (c.units - nunits), nunits⟩ :: live) := by
  obtain ⟨front, rfl, hfront⟩ := exists_front hsplit
  obtain ⟨hdisjoint, hextent, htotal⟩ := h.list.without
  have hsum := cut_sum (le_of_lt hlt)
  have htail : 0 < headerSize * nunits := mul_pos headerSize_pos hpos
  -- the block is made of what is left of it and the part that is handed out
  have htouch : Block.stop headerSize ⟨c.addr, c.units - nunits⟩ =
      Block.addr ⟨c.addr + headerSize * (c.units - nunits), nunits⟩ := rfl
  have hmerge := extent_merge htouch
  have hwhole : (⟨c.addr, c.units - nunits + nunits⟩ : Block) = c := by
    rw [Nat.sub_add_cancel (le_of_lt hlt)]
  rw [hwhole] at hmerge
  have hparts := disjoint_of_stop_le (le_of_eq htouch)
  have hleft : extent headerSize (front ++ ⟨c.addr, c.units - nunits⟩ :: after) =
      extent headerSize (front ++ after) ∪ Block.extent headerSize ⟨c.addr, c.units - nunits⟩ := by
    rw [extent_append, extent_cons, extent_append]
    ext a
    simp only [Set.mem_union]
    tauto
  have hseparate : Separate headerSize (baseBlock base :: front ++ c :: after) := h.list.separate
  have hsegment : Segment base s (baseBlock base :: front ++ c :: after) := h.list.segment
  refine ⟨front ++ ⟨c.addr, c.units - nunits⟩ :: after, h.handOut ⟨?_, ?_, ?_, ?_⟩ ?_ ?_ ?_ ?_ hpos
    ?_ rfl rfl⟩
  · exact hsegment.cut hseparate hlt
  · exact separate_cut (le_of_lt hlt) hseparate
  · have hpositive := h.list.positive
    rw [forall_mem_append, forall_mem_cons] at hpositive ⊢
    exact ⟨hpositive.1, Nat.sub_pos_of_lt hlt, hpositive.2.2⟩
  · have hmem : x ∈ baseBlock base :: (front ++ ⟨c.addr, c.units - nunits⟩ :: after) := by
      rw [← hfront]
      exact mem_append_right _ mem_cons_self
    exact addr_mem_nodes hmem
  · rw [hextent, hmerge, hleft, Set.union_assoc]
  · rw [hleft]
    rw [hmerge] at hdisjoint
    exact Disjoint.union_right (hdisjoint.mono_left Set.subset_union_right) hparts.symm
  · rw [htotal, total_append, total_append, total_cons]
    dsimp only
    omega
  · exact update_self ..
  · intro a ha
    have hnot : a ∉ c.extent headerSize := fun hc =>
      ha (extent_subset (mem_append_right _ mem_cons_self) hc)
    have hc : c.addr ∈ c.extent headerSize := addr_mem_extent headerSize_pos (Nat.zero_lt_of_lt hlt)
    have hq : c.addr + headerSize * (c.units - nunits) ∈ c.extent headerSize :=
      ⟨Nat.le_add_right _ _, by simp only [Block.stop]; omega⟩
    have hneq : a ≠ c.addr + headerSize * (c.units - nunits) := fun heq => hnot (heq ▸ hq)
    have hnec : a ≠ c.addr := fun heq => hnot (heq ▸ hc)
    dsimp only
    rw [update_of_ne hneq, update_of_ne hnec]

theorem Good.takeFrom_spec (hprevp : prevp ∈ base :: free.map Block.addr) (hpos : 0 < nunits)
    (hsize : nunits ≤ s.size (s.ptr prevp)) :
    ∃ free' q, (s.takeFrom nunits prevp (s.ptr prevp)).1 = q + headerSize ∧
      Good base (s.takeFrom nunits prevp (s.ptr prevp)).2 free' (⟨q, nunits⟩ :: live) := by
  obtain ⟨before, x, after, hsplit, rfl⟩ := FreeList.exists_block hprevp
  have hsegment := h.list.segment
  rw [hsplit] at hsegment
  have hnext := hsegment.right.ptr_eq
  cases after with
  | nil =>
    -- the node after the last one is `base`, which has no units
    have hbase : base = s.ptr x.addr := by simpa using hnext
    have hzero : s.size base = 0 := h.list.segment.sizes (baseBlock base) mem_cons_self
    rw [← hbase, hzero] at hsize
    omega
  | cons c after =>
    have hptr : c.addr = s.ptr x.addr := by simpa using hnext
    have hc : s.size c.addr = c.units := hsegment.right.tail.sizes c mem_cons_self
    rw [← hptr, hc] at hsize
    rw [← hptr]
    by_cases hexact : c.units = nunits
    · obtain ⟨free', hgood⟩ := h.unlink hsplit
      refine ⟨free', c.addr, ?_, ?_⟩
      · rw [State.takeFrom, if_pos (hc.trans hexact)]
      · rwa [State.takeFrom, if_pos (hc.trans hexact), ← hexact]
    · obtain ⟨free', hgood⟩ := h.cut hsplit hpos (Nat.lt_of_le_of_ne hsize (Ne.symm hexact))
      have hne : s.size c.addr ≠ nunits := fun heq => hexact (hc.symm.trans heq)
      refine ⟨free', c.addr + headerSize * (c.units - nunits), ?_, ?_⟩
      · rw [State.takeFrom, if_neg hne, hc]
      · rwa [State.takeFrom, if_neg hne, hc]

end

/-! ### `morecore` -/

theorem obtained_free {ap : Nat} (h : Umalloc.free fuel ap s = some s') :
    s'.obtained = s.obtained := by
  obtain ⟨p, -, rfl⟩ := map_eq_some_iff.mp h
  simp

variable {env : Env} {nu q r : Nat}

theorem obtained_morecore (h : morecore (sbrk env) fuel nu s = some (q, s')) :
    s.obtained ≤ s'.obtained ∧ s'.obtained ≤ s.obtained + coreUnits nu := by
  unfold morecore sbrk at h
  cases henv : env s.calls with
  | none =>
    simp only [henv, some.injEq, Prod.mk.injEq] at h
    rw [← h.2]
    exact ⟨le_refl _, Nat.le_add_right _ _⟩
  | some gap =>
    simp only [henv] at h
    obtain ⟨s₂, hfree, hpair⟩ := map_eq_some_iff.mp h
    obtain rfl := (Prod.mk.inj hpair).2
    rw [obtained_free hfree]
    exact ⟨Nat.le_add_right _ _, le_refl _⟩

theorem obtained_takeFrom (s : State) (nunits prevp p : Nat) :
    (s.takeFrom nunits prevp p).2.obtained = s.obtained := by
  unfold State.takeFrom
  split <;> rfl

theorem coreUnits_pos (nu : Nat) : 0 < coreUnits nu := by
  unfold coreUnits
  split <;> omega

theorem le_coreUnits (nu : Nat) : nu ≤ coreUnits nu := by
  unfold coreUnits
  split <;> omega

section

variable (h : Good base s free live)
include h

theorem Good.region (gap nu : Nat) (hpos : 0 < nu) : Good base { s with
        size := update s.size (s.brk + gap) nu
        brk := s.brk + gap + nu * headerSize
        calls := s.calls + 1
        obtained := s.obtained + nu }
      free (⟨s.brk + gap, nu⟩ :: live) := by
  have hbrk := h.base_le
  have hbelow : ∀ a ∈ extent headerSize (free ++ live), a ≠ s.brk + gap := by
    intro a ha
    have hlt := (h.inside ha).2
    omega
  have hnew : Disjoint (Block.extent headerSize ⟨s.brk + gap, nu⟩)
      (extent headerSize (free ++ live)) := by
    rw [Set.disjoint_right]
    intro a ha hmem
    have hlt := (h.inside ha).2
    have hle : s.brk + gap ≤ a := hmem.1
    omega
  have hsame : ∀ b ∈ free ++ live, 0 < b.units →
      update s.size (s.brk + gap) nu b.addr = s.size b.addr := by
    intro b hb hpos
    refine update_of_ne (hbelow b.addr ?_) _ _
    exact extent_subset hb (addr_mem_extent headerSize_pos hpos)
  refine ⟨⟨h.list.segment.congr (fun _ _ => rfl) ?_, h.list.separate, h.list.positive,
    h.list.freep⟩,
    ?_, ?_, ?_, ?_, ?_, ?_, ?_⟩
  · refine forall_mem_cons.mpr ⟨?_, fun b hb => ?_⟩
    · refine update_of_ne ?_ _ _
      have hheader := headerSize_pos
      simp only [baseBlock]
      omega
    · exact hsame b (mem_append_left _ hb) (h.list.positive b hb)
  · refine forall_mem_cons.mpr ⟨update_self .., fun b hb => ?_⟩
    rw [← h.sizes b hb]
    exact hsame b (mem_append_right _ hb) (h.positive b hb)
  · exact forall_mem_cons.mpr ⟨hpos, h.positive⟩
  · refine pairwise_cons.mpr ⟨fun b hb => ?_, h.disjoint⟩
    exact hnew.mono_right (extent_subset (mem_append_right _ hb))
  · refine forall_mem_cons.mpr ⟨?_, h.apart⟩
    rw [extent_append] at hnew
    exact hnew.mono_right Set.subset_union_left
  · show base + headerSize ≤ s.brk + gap + nu * headerSize
    omega
  · rw [extent_append, extent_cons]
    have hold := h.inside
    rw [extent_append] at hold
    rintro a (ha | ha | ha)
    · have hin := hold (.inl ha)
      exact ⟨hin.1, by have := hin.2; show a < s.brk + gap + nu * headerSize; omega⟩
    · have hlow : s.brk + gap ≤ a := ha.1
      have hhigh : a < s.brk + gap + headerSize * nu := ha.2
      exact ⟨by omega, by show a < s.brk + gap + nu * headerSize; rw [mul_comm]; exact hhigh⟩
    · have hin := hold (.inr ha)
      exact ⟨hin.1, by have := hin.2; show a < s.brk + gap + nu * headerSize; omega⟩
  · have hsum := h.total
    rw [total_cons]
    dsimp only
    omega

theorem Good.sbrk_none : Good base { s with calls := s.calls + 1 } free live :=
  ⟨⟨⟨h.list.segment.links, h.list.segment.sizes⟩, h.list.separate, h.list.positive, h.list.freep⟩,
    h.sizes, h.positive, h.disjoint, h.apart, h.base_le, h.inside, h.total⟩

theorem Good.morecore_spec
    (hs' : morecore (sbrk env) fuel nu s = some (q, s')) (hlt : s'.obtained < 2 ^ 32) :
    ∃ free', Good base s' free' live ∧
      (q = 0 ∨ (q = s'.freep ∧ (∃ c ∈ free', nu ≤ c.units) ∧ free'.length ≤ free.length + 1)) := by
  unfold morecore sbrk at hs'
  cases henv : env s.calls with
  | none =>
    simp only [henv, some.injEq, Prod.mk.injEq] at hs'
    obtain ⟨rfl, rfl⟩ := hs'
    exact ⟨free, h.sbrk_none, .inl rfl⟩
  | some gap =>
    simp only [henv] at hs'
    obtain ⟨s₂, hfree, hpair⟩ := map_eq_some_iff.mp hs'
    cases hpair
    have hregion := h.region gap (coreUnits nu) (coreUnits_pos nu)
    rw [obtained_free hfree] at hlt
    obtain ⟨free', hgood, ⟨c, hc, hle⟩, hlength⟩ := hregion.free_spec hlt hfree
    exact ⟨free', hgood, .inr ⟨rfl, ⟨c, hc, (le_coreUnits nu).trans hle⟩, hlength⟩⟩

theorem Good.morecore_total (env : Env) (nu : Nat) (hfuel : 2 * free.length + 1 < fuel) :
    ∃ q s', morecore (sbrk env) fuel nu s = some (q, s') := by
  unfold morecore sbrk
  cases henv : env s.calls with
  | none => exact ⟨_, _, rfl⟩
  | some gap =>
    have hregion := h.region gap (coreUnits nu) (coreUnits_pos nu)
    obtain ⟨s', hs'⟩ := hregion.free_total hfuel
    refine ⟨s'.freep, s', ?_⟩
    simp only
    rw [hs']
    rfl

end

/-! ### The loop of `malloc` -/

theorem obtained_mallocLoop {p : Nat}
    (h : mallocLoop (sbrk env) nunits fuel prevp p s = some (r, s')) :
    s.obtained ≤ s'.obtained := by
  induction fuel generalizing prevp p s with
  | zero => cases h
  | succ fuel ih =>
    simp only [mallocLoop] at h
    split at h
    · have hpair := some.inj h
      have hobtained := obtained_takeFrom s nunits prevp p
      rw [hpair] at hobtained
      exact le_of_eq hobtained.symm
    · split at h
      · split at h
        · cases h
        next q s₁ hcore =>
          have hle := (obtained_morecore hcore).1
          split at h
          · obtain rfl := (Prod.mk.inj (some.inj h)).2
            exact hle
          · exact hle.trans (ih h)
      · exact ih h

/-- The loop of `malloc` keeps the invariant: it fails, or hands out a block. -/
theorem Good.mallocLoop_spec (h : Good base s free live)
    (hprevp : prevp ∈ base :: free.map Block.addr) (hpos : 0 < nunits)
    (hs' : mallocLoop (sbrk env) nunits fuel prevp (s.ptr prevp) s = some (r, s'))
    (hlt : s'.obtained < 2 ^ 32) :
    ∃ free', (r = 0 ∧ Good base s' free' live) ∨
      ∃ q, r = q + headerSize ∧ Good base s' free' (⟨q, nunits⟩ :: live) := by
  induction fuel generalizing prevp s free with
  | zero => cases hs'
  | succ fuel ih =>
    simp only [mallocLoop] at hs'
    split at hs'
    next hsize =>
      obtain ⟨free', q, hq, hgood⟩ := h.takeFrom_spec hprevp hpos hsize
      rw [some.inj hs'] at hq hgood
      exact ⟨free', .inr ⟨q, hq, hgood⟩⟩
    next =>
      split at hs'
      next =>
        split at hs'
        next => cases hs'
        next q s₁ hcore =>
          split at hs'
          next hzero =>
            cases hs'
            obtain ⟨free', hgood, -⟩ := h.morecore_spec hcore hlt
            exact ⟨free', .inl ⟨rfl, hgood⟩⟩
          next hne =>
            have hlt₁ : s₁.obtained < 2 ^ 32 := (obtained_mallocLoop hs').trans_lt hlt
            obtain ⟨free', hgood, hq⟩ := h.morecore_spec hcore hlt₁
            obtain ⟨rfl, -⟩ := hq.resolve_left hne
            exact ih hgood hgood.list.freep hs'
      next => exact ih h (h.list.cycle.next_mem hprevp) hs'

/-- The loop of `malloc` walks along the list until it finds a block or comes to `freep`. -/
theorem mallocLoop_walk {k : Nat}
    (h : ∀ j < k, s.size (s.ptr^[j + 1] prevp) < nunits ∧ s.ptr^[j + 1] prevp ≠ s.freep) :
    mallocLoop (sbrk env) nunits (fuel + k) prevp (s.ptr prevp) s =
      mallocLoop (sbrk env) nunits fuel (s.ptr^[k] prevp) (s.ptr^[k + 1] prevp) s := by
  induction k generalizing prevp with
  | zero => rfl
  | succ k ih =>
    obtain ⟨hsize, hfreep⟩ := h 0 (Nat.succ_pos k)
    have hsize : ¬ s.size (s.ptr prevp) ≥ nunits := not_le.mpr hsize
    have hfreep : s.ptr prevp ≠ s.freep := hfreep
    rw [← add_assoc, mallocLoop, if_neg hsize, if_neg hfreep]
    exact ih fun j hj => h (j + 1) (by omega)

/-- A walk from a node finds a block that is large enough, or comes to `freep` without one. -/
theorem FreeList.exists_stop (h : FreeList base s free) (nunits : Nat)
    (hprevp : prevp ∈ base :: free.map Block.addr) :
    ∃ k ≤ 2 * free.length + 1,
      (∀ j < k, s.size (s.ptr^[j + 1] prevp) < nunits ∧ s.ptr^[j + 1] prevp ≠ s.freep) ∧
      (nunits ≤ s.size (s.ptr^[k + 1] prevp) ∨ s.ptr^[k + 1] prevp = s.freep) := by
  obtain ⟨k, hk, hwalk⟩ := h.cycle.iterate (h.cycle.next_mem hprevp) h.freep
  rw [length_map] at hk
  obtain ⟨j, hj, hstop, hfirst⟩ := exists_first s.ptr
    (fun p => nunits ≤ s.size p ∨ p = s.freep) (s.ptr prevp) ⟨k, hk, .inr hwalk⟩
  refine ⟨j, hj, fun i hi => ?_, hstop⟩
  have hnot := hfirst i hi
  rw [not_or] at hnot
  exact ⟨not_le.mp hnot.1, hnot.2⟩

/-- The loop of `malloc` ends if some block is large enough. -/
theorem FreeList.mallocLoop_found (h : FreeList base s free)
    (hlarge : ∃ c ∈ free, nunits ≤ c.units) (hfuel : 2 * free.length + 1 < fuel) :
    ∃ r s', mallocLoop (sbrk env) nunits fuel s.freep (s.ptr s.freep) s = some (r, s') := by
  obtain ⟨k, hk, hfirst, hstop⟩ := h.exists_stop nunits h.freep
  obtain ⟨rest, rfl⟩ : ∃ rest, fuel = rest + 1 + k := ⟨fuel - 1 - k, by omega⟩
  rw [mallocLoop_walk hfirst, mallocLoop]
  have hsize : nunits ≤ s.size (s.ptr^[k + 1] s.freep) := by
    rcases hstop with hsize | hback
    · exact hsize
    · -- back at `freep`, after the large block has been passed
      obtain ⟨c, hc, hle⟩ := hlarge
      have hcmem := mem_cons_of_mem (baseBlock base) hc
      obtain ⟨j, hj, hwalk⟩ := h.cycle.exists_lt_of_iterate_eq h.freep (addr_mem_nodes hcmem) hback
      rw [← h.segment.sizes c hcmem, ← hwalk] at hle
      rcases Nat.lt_or_eq_of_le hj with hlt | rfl
      · exact absurd hle (not_le.mpr (hfirst j hlt).1)
      · exact hle
  rw [if_pos hsize]
  exact ⟨_, _, rfl⟩

/-- The loop of `malloc` ends. -/
theorem Good.mallocLoop_total (h : Good base s free live)
    (hlt : s.obtained + coreUnits nunits < 2 ^ 32) (hfuel : 4 * free.length + 8 ≤ fuel) :
    ∃ r s', mallocLoop (sbrk env) nunits fuel s.freep (s.ptr s.freep) s = some (r, s') := by
  obtain ⟨k, hk, hfirst, hstop⟩ := h.list.exists_stop nunits h.list.freep
  obtain ⟨rest, rfl⟩ : ∃ rest, fuel = rest + 1 + k := ⟨fuel - 1 - k, by omega⟩
  rw [mallocLoop_walk hfirst, mallocLoop]
  by_cases hsize : s.size (s.ptr^[k + 1] s.freep) ≥ nunits
  · rw [if_pos hsize]
    exact ⟨_, _, rfl⟩
  · rw [if_neg hsize, if_pos (hstop.resolve_left hsize)]
    obtain ⟨q, s₁, hcore⟩ := h.morecore_total env nunits (show _ < rest by omega)
    rw [hcore]
    dsimp only
    by_cases hzero : q = 0
    · rw [if_pos hzero]
      exact ⟨_, _, rfl⟩
    · rw [if_neg hzero]
      have hlt₁ : s₁.obtained < 2 ^ 32 := (obtained_morecore hcore).2.trans_lt hlt
      obtain ⟨free', hgood, hq⟩ := h.morecore_spec hcore hlt₁
      obtain ⟨rfl, hlarge, hlength⟩ := hq.resolve_left hzero
      exact hgood.list.mallocLoop_found hlarge (by omega)

end Xv6.Umalloc
