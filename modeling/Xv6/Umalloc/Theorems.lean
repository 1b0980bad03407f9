import Xv6.Umalloc.Malloc

/-!
# The user heap over whole runs

The invariant of the allocator in every state that a process reaches with `malloc`, `free` of live
pointers and writes to the memory it owns, as long as fewer than `2 ^ 32` units have been obtained
from `sbrk`; and what goes wrong beyond that: the size of a merged block wraps.
-/

namespace Xv6.Umalloc

open Blocks Circular Function List Option

variable {base : Nat} {env : Env} {sys sys' : System}

/-- The block that a live pointer belongs to. -/
def Live.block (x : Live) : Block := ⟨x.pointer - headerSize, unitsFor x.nbytes⟩

/-- `malloc` has not been called yet, or the allocator is in a good state. -/
def Inv (base : Nat) (sys : System) : Prop :=
  (sys.heap.freep = 0 ∧ sys.live = [] ∧ sys.heap.obtained = 0 ∧ base + headerSize ≤ sys.heap.brk) ∨
    (sys.heap.freep ≠ 0 ∧ ∃ free, Good base sys.heap free (sys.live.map Live.block))

theorem unitsFor_pos (nbytes : Nat) : 0 < unitsFor nbytes := Nat.succ_pos _

theorem le_offered (nbytes : Nat) : nbytes ≤ headerSize * (unitsFor nbytes - 1) := by
  simp only [unitsFor, headerSize]
  omega

variable {s : State}

theorem Good.freep_ne_zero {free live : List Block} (h : Good base s free live)
    (hbase : 0 < base) : s.freep ≠ 0 := by
  rcases mem_cons.mp h.list.freep with heq | hmem
  · omega
  · obtain ⟨b, hb, heq⟩ := mem_map.mp hmem
    have hlt := base_lt_addr h.list.separate b hb
    omega

variable {x : Live} {live : List Live}

theorem Good.pointer_eq {free : List Block}
    (h : Good base s free (live.map Live.block)) (hx : x ∈ live) :
    x.pointer = x.block.addr + headerSize := by
  have hmem : x.block ∈ live.map Live.block := mem_map_of_mem hx
  have haddr := addr_mem_extent headerSize_pos (h.positive _ hmem)
  have hle := (h.inside (extent_subset (mem_append_right free hmem) haddr)).1
  simp only [Live.block] at hle ⊢
  omega

theorem good_init (hfreep : s.freep = 0) (hobtained : s.obtained = 0)
    (hbrk : base + headerSize ≤ s.brk) : Good base (s.init base) [] [] := by
  have hinit : s.init base = { s with
        ptr := update s.ptr base base
        size := update s.size base 0
        freep := base } := by
    rw [State.init, if_pos hfreep]
  rw [hinit]
  refine ⟨⟨⟨?_, ?_⟩, .singleton _, by simp, mem_cons_self⟩, by simp, by simp, .nil, by simp, hbrk,
    ?_, hobtained.symm⟩
  · show Links _ [base, base]
    rw [Links, isChain_pair]
    exact update_self ..
  · exact forall_mem_cons.mpr ⟨update_self .., by simp⟩
  · rw [nil_append, extent_nil]
    exact Set.empty_subset _

/-- The state in which the loop of `malloc` starts. -/
theorem Inv.init (h : Inv base sys) :
    ∃ free, Good base (sys.heap.init base) free (sys.live.map Live.block) := by
  rcases h with ⟨hfreep, hlive, hobtained, hbrk⟩ | ⟨hfreep, free, hgood⟩
  · rw [hlive]
    exact ⟨[], good_init hfreep hobtained hbrk⟩
  · rw [State.init, if_neg hfreep]
    exact ⟨free, hgood⟩

theorem obtained_init (s : State) : (s.init base).obtained = s.obtained := by
  unfold State.init
  split <;> rfl

theorem Inv.malloc {fuel nbytes q : Nat} {heap : State} (h : Inv base sys) (hbase : 0 < base)
    (hmalloc : malloc base (sbrk env) fuel nbytes sys.heap = some (q, heap))
    (hlt : heap.obtained < 2 ^ 32) :
    Inv base ⟨heap, if q = 0 then sys.live else ⟨q, nbytes⟩ :: sys.live⟩ := by
  obtain ⟨free, hgood⟩ := h.init
  obtain ⟨free', hresult⟩ :=
    hgood.mallocLoop_spec hgood.list.freep (unitsFor_pos nbytes) hmalloc hlt
  rcases hresult with ⟨rfl, hgood'⟩ | ⟨q', rfl, hgood'⟩
  · exact .inr ⟨hgood'.freep_ne_zero hbase, free', hgood'⟩
  · have hne : q' + headerSize ≠ 0 := by
      have hpos := headerSize_pos
      omega
    refine .inr ⟨hgood'.freep_ne_zero hbase, free', ?_⟩
    have hblock : Live.block ⟨q' + headerSize, nbytes⟩ = ⟨q', unitsFor nbytes⟩ := by
      rw [Live.block, Nat.add_sub_cancel]
    rwa [if_neg hne, map_cons, hblock]

theorem Good.live_perm {free : List Block}
    (h : Good base s free (live.map Live.block)) (hx : x ∈ live) :
    Good base s free (x.block :: (live.erase x).map Live.block) :=
  h.perm ((perm_cons_erase hx).map Live.block)

variable {fuel : Nat}

theorem Inv.free {heap : State} (h : Inv base sys) (hbase : 0 < base)
    (hx : x ∈ sys.live) (hfree : Umalloc.free fuel x.pointer sys.heap = some heap)
    (hlt : sys.heap.obtained < 2 ^ 32) : Inv base ⟨heap, sys.live.erase x⟩ := by
  rcases h with ⟨-, hlive, -⟩ | ⟨-, free, hgood⟩
  · rw [hlive] at hx
    cases hx
  · rw [hgood.pointer_eq hx] at hfree
    obtain ⟨free', hgood', -⟩ := (hgood.live_perm hx).free_spec hlt hfree
    exact .inr ⟨hgood'.freep_ne_zero hbase, free', hgood'⟩

/-- A write to memory that a live block offers touches no header. -/
theorem Inv.write {addr ptr size : Nat} (h : Inv base sys) (hx : x ∈ sys.live)
    (haddr : x.offers addr) :
    Inv base { sys with
        heap := { sys.heap with
          ptr := update sys.heap.ptr addr ptr
          size := update sys.heap.size addr size } } := by
  rcases h with ⟨-, hlive, -⟩ | ⟨hfreep, free, hgood⟩
  · rw [hlive] at hx
    cases hx
  · have hpointer := hgood.pointer_eq hx
    have hunits := unitsFor_pos x.nbytes
    have hpos := headerSize_pos
    have hmem : x.block ∈ sys.live.map Live.block := mem_map_of_mem hx
    have hblock : addr ∈ x.block.extent headerSize ∧ addr ≠ x.block.addr := by
      obtain ⟨hlow, hhigh⟩ := haddr
      have hle : headerSize * (unitsFor x.nbytes - 1) + headerSize =
          headerSize * unitsFor x.nbytes := by
        rw [← Nat.mul_succ, Nat.succ_eq_add_one, Nat.sub_add_cancel hunits]
      have hstop : x.block.stop headerSize = x.block.addr + headerSize * unitsFor x.nbytes := rfl
      exact ⟨⟨by omega, by omega⟩, by omega⟩
    -- no header lies inside the block, apart from its own
    have hnode : ∀ b ∈ baseBlock base :: free, b.addr ≠ addr := by
      have hinside := hgood.inside (extent_subset (mem_append_right free hmem) hblock.1)
      have hlow := hinside.1
      refine forall_mem_cons.mpr ⟨by simp only [baseBlock]; omega, fun b hb heq => ?_⟩
      refine Set.disjoint_left.mp (hgood.apart _ hmem) hblock.1 (extent_subset hb ?_)
      rw [← heq]
      exact addr_mem_extent headerSize_pos (hgood.list.positive b hb)
    have hother : ∀ b ∈ sys.live.map Live.block, b.addr ≠ addr := by
      intro b hb heq
      have hgood' := hgood.live_perm hx
      have hperm := (perm_cons_erase hx).map Live.block
      rcases mem_cons.mp (hperm.mem_iff.mp hb) with rfl | hb'
      · exact hblock.2 heq.symm
      · have hdisjoint := (pairwise_cons.mp hgood'.disjoint).1 b hb'
        refine Set.disjoint_left.mp hdisjoint hblock.1 ?_
        rw [← heq]
        exact addr_mem_extent headerSize_pos (hgood.positive b hb)
    refine .inr ⟨hfreep, free, ?_⟩
    refine ⟨⟨?_, hgood.list.separate, hgood.list.positive, hgood.list.freep⟩, ?_, hgood.positive,
      hgood.disjoint, hgood.apart, hgood.base_le, hgood.inside, hgood.total⟩
    · exact hgood.list.segment.congr (fun b hb => update_of_ne (hnode b hb) _ _)
        fun b hb => update_of_ne (hnode b hb) _ _
    · intro b hb
      rw [← hgood.sizes b hb]
      exact update_of_ne (hother b hb) _ _

/-! ### Runs -/

variable {action : Action}

theorem obtained_perform (h : perform base env fuel action sys = some sys') :
    sys.heap.obtained ≤ sys'.heap.obtained := by
  cases action with
  | malloc nbytes =>
    simp only [perform] at h
    split at h
    · obtain ⟨⟨q, heap⟩, hmalloc, rfl⟩ := map_eq_some_iff.mp h
      have hle := obtained_mallocLoop hmalloc
      rwa [obtained_init] at hle
    · cases h
  | free x =>
    simp only [perform] at h
    split at h
    · obtain ⟨heap, hfree, rfl⟩ := map_eq_some_iff.mp h
      exact Nat.le_of_eq (obtained_free hfree).symm
    · cases h
  | write x addr ptr size =>
    simp only [perform] at h
    split at h
    · cases h
      rfl
    · cases h

theorem Inv.perform (h : Inv base sys) (hbase : 0 < base)
    (hstep : Umalloc.perform base env fuel action sys = some sys')
    (hlt : sys'.heap.obtained < 2 ^ 32) : Inv base sys' := by
  have hle := obtained_perform hstep
  cases action with
  | malloc nbytes =>
    simp only [Umalloc.perform] at hstep
    split at hstep
    · obtain ⟨⟨q, heap⟩, hmalloc, rfl⟩ := map_eq_some_iff.mp hstep
      exact h.malloc hbase hmalloc hlt
    · cases hstep
  | free x =>
    simp only [Umalloc.perform] at hstep
    split at hstep
    next hx =>
      obtain ⟨heap, hfree, rfl⟩ := map_eq_some_iff.mp hstep
      exact h.free hbase hx hfree (hle.trans_lt hlt)
    next => cases hstep
  | write x addr ptr size =>
    simp only [Umalloc.perform] at hstep
    split at hstep
    next hx =>
      cases hstep
      exact h.write hx.1 hx.2
    next => cases hstep

theorem inv_of_run {ptr size : Nat → Nat} {brk : Nat} (hbase : 0 < base)
    (hbrk : base + headerSize ≤ brk) (hrun : Run base env (System.start ptr size brk) sys)
    (hlt : sys.heap.obtained < 2 ^ 32) : Inv base sys := by
  induction hrun with
  | refl => exact .inl ⟨rfl, rfl, rfl, hbrk⟩
  | step _ hstep ih => exact (ih ((obtained_perform hstep).trans_lt hlt)).perform hbase hstep hlt

/-- In every state that a process reaches while fewer than `2 ^ 32` units have been obtained, and
unless `malloc` has never been called, the free list is a circular list through `base` with
increasing addresses that stands for blocks no two of which touch, the live blocks are disjoint from
these and from each other, and the units add up; every live block offers the bytes that were asked
for; and `free` of a live pointer and `malloc` return. -/
theorem user_heap_sound {ptr size : Nat → Nat} {brk : Nat} (hbase : 0 < base)
    (hbrk : base + headerSize ≤ brk) (hrun : Run base env (System.start ptr size brk) sys)
    (hlt : sys.heap.obtained < 2 ^ 32) :
    ((sys.heap.freep = 0 ∧ sys.live = [] ∧ sys.heap.obtained = 0) ∨
        ∃ free, Good base sys.heap free (sys.live.map Live.block)) ∧
      (∀ x ∈ sys.live, x.nbytes ≤ headerSize * (x.block.units - 1) ∧
        x.pointer = x.block.addr + headerSize) ∧
      (∀ x ∈ sys.live, ∃ bound, ∀ fuel ≥ bound, ∃ heap,
        Umalloc.free fuel x.pointer sys.heap = some heap) ∧
      ∀ nbytes, sys.heap.obtained + coreUnits (unitsFor nbytes) < 2 ^ 32 →
        ∃ bound, ∀ fuel ≥ bound, ∃ q heap,
          malloc base (sbrk env) fuel nbytes sys.heap = some (q, heap) := by
  have hinv := inv_of_run hbase hbrk hrun hlt
  refine ⟨?_, ?_, ?_, ?_⟩
  · rcases hinv with ⟨hfreep, hlive, hobtained, -⟩ | ⟨-, hgood⟩
    · exact .inl ⟨hfreep, hlive, hobtained⟩
    · exact .inr hgood
  · intro x hx
    rcases hinv with ⟨-, hlive, -⟩ | ⟨-, free, hgood⟩
    · rw [hlive] at hx
      cases hx
    · exact ⟨le_offered x.nbytes, hgood.pointer_eq hx⟩
  · intro x hx
    rcases hinv with ⟨-, hlive, -⟩ | ⟨-, free, hgood⟩
    · rw [hlive] at hx
      cases hx
    · refine ⟨2 * free.length + 2, fun fuel hfuel => ?_⟩
      rw [hgood.pointer_eq hx]
      exact (hgood.live_perm hx).free_total (by omega)
  · intro nbytes hunits
    obtain ⟨free, hgood⟩ := hinv.init
    refine ⟨4 * free.length + 8, fun fuel hfuel => ?_⟩
    exact hgood.mallocLoop_total (by rw [obtained_init]; exact hunits) hfuel

/-- Two requests, after which the first block goes back. -/
def twoRequests : List Action := [.malloc 10, .malloc 100, .free ⟨65536 + 16, 10⟩]

theorem run_of_performAll {start : System} {actions : List Action}
    (hrun : Run base env start sys) (h : performAll base env fuel actions sys = some sys') :
    Run base env start sys' := by
  induction actions generalizing sys with
  | nil =>
    cases h
    exact hrun
  | cons action actions ih =>
    simp only [performAll] at h
    split at h
    · cases h
    next next hnext => exact ih (.step hrun hnext) h

theorem user_heap_sound_twoRequests :
    ∃ sys, Run 16 (fun _ => some 0) (System.start (fun _ => 0) (fun _ => 0) 32) sys ∧
      sys.live = [⟨65424, 100⟩] ∧ sys.heap.obtained = 4096 ∧
      ∃ free, Good 16 sys.heap free (sys.live.map Live.block) := by
  have hplay : (performAll 16 (fun _ => some 0) 20 twoRequests
      (System.start (fun _ => 0) (fun _ => 0) 32)).map (fun sys =>
        (sys.live, sys.heap.obtained, sys.heap.freep)) = some ([⟨65424, 100⟩], 4096, 32) := by
    decide +kernel
  obtain ⟨sys, hsys, hvalue⟩ := map_eq_some_iff.mp hplay
  simp only [Prod.mk.injEq] at hvalue
  obtain ⟨hlive, hobtained, hfreep⟩ := hvalue
  have hrun := run_of_performAll .refl hsys
  have hsound := user_heap_sound (by decide) (by decide) hrun (by rw [hobtained]; decide)
  refine ⟨sys, hrun, hlive, hobtained, hsound.1.resolve_left ?_⟩
  rw [hfreep]
  simp

/-! ### Beyond `2 ^ 32` units -/

/-- The largest request: its block takes just under two gigabytes. -/
def hugeRequest : Nat := (2 ^ 27 - 2) * headerSize

/-- Thirty-three of the largest requests, then `free` of all blocks by address. -/
def fillAndEmpty : List Action :=
  List.replicate 33 (.malloc hugeRequest) ++
    (List.range 33).map fun i => .free ⟨48 + i * ((2 ^ 27 - 1) * headerSize), hugeRequest⟩

/-- With regions that follow each other, the merged block has `33 * (2 ^ 27 - 1)` units, but its
size field holds the remainder modulo `2 ^ 32`, so almost all units are lost. -/
theorem user_heap_units_lost :
    ∃ sys, Run 16 (fun _ => some 0) (System.start (fun _ => 0) (fun _ => 0) 32) sys ∧
      sys.live = [] ∧ sys.heap.obtained = 33 * (2 ^ 27 - 1) ∧ sys.heap.size 32 = 2 ^ 27 - 33 ∧
      ¬ ∃ free, Good 16 sys.heap free (sys.live.map Live.block) := by
  have hplay : (performAll 16 (fun _ => some 0) 80 fillAndEmpty
      (System.start (fun _ => 0) (fun _ => 0) 32)).map (fun sys =>
        (sys.live, sys.heap.obtained, sys.heap.ptr 16, sys.heap.ptr 32, sys.heap.size 32)) =
      some ([], 33 * (2 ^ 27 - 1), 32, 16, 2 ^ 27 - 33) := by
    decide +kernel
  obtain ⟨sys, hsys, hvalue⟩ := map_eq_some_iff.mp hplay
  simp only [Prod.mk.injEq] at hvalue
  obtain ⟨hlive, hobtained, hbase, hblock, hsize⟩ := hvalue
  refine ⟨sys, run_of_performAll .refl hsys, hlive, hobtained, hsize, ?_⟩
  rintro ⟨free, hgood⟩
  rw [hlive] at hgood
  have hseparate := hgood.list.separate
  have hsegment := hgood.list.segment
  have hfirst : (free.map Block.addr ++ [16]).head? = some 32 := by
    rw [hsegment.ptr_eq]
    exact congrArg some hbase
  cases free with
  | nil => simp at hfirst
  | cons b rest =>
    have haddr : b.addr = 32 := by simpa using hfirst
    have hsecond : (rest.map Block.addr ++ [16]).head? = some 16 := by
      rw [hsegment.tail.ptr_eq, haddr, hblock]
    cases rest with
    | nil =>
      have hb : sys.heap.size b.addr = b.units := hsegment.sizes b (by simp)
      rw [haddr, hsize] at hb
      have htotal := hgood.total
      rw [hobtained, total_cons, ← hb] at htotal
      simp [Blocks.total] at htotal
    | cons c rest =>
      have hc : c.addr = 16 := by simpa using hsecond
      have hlt := base_lt_addr hseparate c (by simp)
      omega

end Xv6.Umalloc
