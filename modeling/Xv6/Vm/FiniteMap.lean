import Xv6.Vm.Mapping

/-!
# A page table is a finite map

The specifications of `mappages` and `uvmunmap`, for runs of the code on all of memory. `entry` is
the valid entry that `walk` finds for an address.
-/

namespace Xv6.Vm

open Interleave Radix LocalSpec Option List

/-- All of memory as a heap. -/
def Memory.heap (s : Memory) : Heap := fun a => some (s.page a)

/-- The valid entry that `walk` finds for a virtual address. -/
def Memory.entry (K : Kernel) (s : Memory) (root va : Addr) : Option Pte :=
  match run (exec K) (walk root va false) s with
  | .done (some ptr) _ => validEntry (s.page ptr.table) ptr.index
  | _ => none

variable {K : Kernel} {s s' : Memory} {root : Addr} {h : Heap}

theorem Heap.In.sub (hin : h.In s) : h.Sub s.heap := fun a page ha => congrArg some (hin a page ha)

theorem Memory.heap_in (s : Memory) : s.heap.In s := fun _ _ hpage => some.inj hpage

theorem entry_eq_lookup (htree : Tree s.heap root) {va : Addr} (hva : pageOf va < NPAGES) :
    s.entry K root va = lookup s.heap root (pageOf va) := by
  have hsafe : (spec K False fun _ => False).Safe _ (walk root va false) s.heap :=
    walk_find htree hva
  obtain ⟨r, s', hrun, h', ⟨_, hr⟩, _⟩ := (ends_run_of_safe_freeing hsafe s.heap_in).exists_done
  unfold Memory.entry
  rw [hrun, hr, pointer]
  cases hfollow : follow (child s.heap) root (pathOf (pageOf va)) with
  | none => exact (lookup_of_follow_none hfollow).symm
  | some t => exact (lookup_of_follow hva hfollow rfl).symm

/-! ### The heap of the tables -/

/-- The pages of memory with a property. -/
noncomputable def Memory.part (s : Memory) (p : Addr → Prop) : Heap := s.heap.without fun a => ¬ p a

variable {a : Addr} {p : Addr → Prop}

theorem part_of (ha : p a) : s.part p a = s.heap a := Heap.without_of_not (not_not.mpr ha)

theorem part_of_not (ha : ¬ p a) : s.part p a = none := Heap.without_of ha

theorem part_in (s : Memory) (p : Addr → Prop) : (s.part p).In s := by
  intro a page hpage
  by_cases ha : p a
  · rw [part_of ha] at hpage
    exact some.inj hpage
  · rw [part_of_not ha] at hpage
    cases hpage

/-- The page-table pages of a page table. -/
noncomputable def tables (s : Memory) (root : Addr) : Heap := s.part (Table s.heap root)

theorem tables_of_table (ha : Table s.heap root a) : tables s root a = s.heap a := part_of ha

theorem table_tables (a : Addr) : Table (tables s root) root a ↔ Table s.heap root a :=
  table_of_agree (fun _ ha => tables_of_table ha) a

theorem tree_tables (htree : Tree s.heap root) : Tree (tables s root) root :=
  htree.of_agree fun _ ha => tables_of_table ha

theorem lookup_tables (n : Nat) : lookup (tables s root) root n = lookup s.heap root n :=
  lookup_of_agree (fun _ ha => tables_of_table ha) n

/-- What holds of the tables in a heap holds of them in memory. -/
theorem heap_of_table (htree : Tree h root) (hin : h.In s) (ha : Table h root a) :
    s.heap a = h a := agree_of_sub htree hin.sub a ha

theorem tree_heap (htree : Tree h root) (hin : h.In s) : Tree s.heap root :=
  htree.of_agree fun _ ha => heap_of_table htree hin ha

theorem lookup_heap (htree : Tree h root) (hin : h.In s) (n : Nat) :
    lookup s.heap root n = lookup h root n :=
  lookup_of_agree (fun _ ha => heap_of_table htree hin ha) n

/-! ### mappages and uvmunmap -/

theorem entry_pageAt (htree : Tree s.heap root) {n : Nat} (hn : n < NPAGES) :
    s.entry K root (pageAt n) = lookup s.heap root n := by
  have hpages := npages_eq
  have hpage : pageOf (pageAt n) = n := pageOf_pageAt (by omega)
  rw [entry_eq_lookup htree (by omega), hpage]

/-- The first `part` pages of the range from `va` on are mapped to the pages from `pa` on, and the
entries of all other pages are the old ones. -/
structure MapsPart (K : Kernel) (root va pa : Addr) (perm : Pte) (part : Nat) (s s' : Memory) :
    Prop where
  mapped : ∀ i, i < part → ∃ w, s'.entry K root (PGROUNDDOWN va + pageAt i) = some w ∧
    PTE2PA w = pa + pageAt i ∧ PTE_FLAGS w = perm ||| PTE_V
  other : ∀ n, n < NPAGES → ¬ (pageOf va ≤ n ∧ n < pageOf va + part) →
    s'.entry K root (pageAt n) = s.entry K root (pageAt n)

theorem pageAt_add (n m : Nat) : pageAt n + pageAt m = pageAt (n + m) := by
  rw [pageAt, pageAt, pageAt, add_mul, BitVec.ofNat_add]

theorem aligned_add {pa : Addr} (hpa : pa.toNat % PGSIZE = 0) (i : Nat) :
    PGROUNDDOWN (pa + pageAt i) = pa + pageAt i := by
  have hpage : pa = pageAt (pageOf pa) := by
    rw [← roundDown_eq, roundDown_of_aligned hpa]
  rw [hpage, pageAt_add]
  refine roundDown_of_aligned ?_
  have hsize : PGSIZE = 4096 := rfl
  rw [pageAt, BitVec.toNat_ofNat, hsize]
  omega

theorem mapsPart_of_lookup (htree : Tree s.heap root) (htree' : Tree s'.heap root) {va pa : Addr}
    {perm : Pte} {part : Nat} (hpa : pa.toNat % PGSIZE = 0) (hperm : perm.toNat < 1024)
    (hpart : pageOf va + part ≤ NPAGES)
    (hlookup : ∀ n, lookup s'.heap root n =
      mapRange (lookup s.heap root) (pageOf va) part pa perm n) :
    MapsPart K root va pa perm part s s' where
  mapped i hi := by
    have hlt : (perm ||| PTE_V).toNat < 1024 := or_valid_lt hperm
    refine ⟨newEntry (pa + pageAt i) perm, ?_, ?_, ?_⟩
    · rw [roundDown_eq, pageAt_add, entry_pageAt htree' (by omega), hlookup, mapRange,
        if_pos (by omega), Nat.add_sub_cancel_left]
    · rw [newEntry, BitVec.or_assoc, pte2pa_or _ hlt, aligned_add hpa]
    · rw [newEntry, BitVec.or_assoc, flags_or _ hlt]
  other n hn hnot := by
    rw [entry_pageAt htree' hn, entry_pageAt htree hn, hlookup, mapRange, if_neg hnot]

variable {free : List Addr}

/-- A page table is a finite map from virtual pages to entries: `mappages` adds a range of entries,
or if it runs out of pages, a part of it from the start on; `uvmunmap` removes a range. -/
theorem page_table_is_finite_map (htree : Tree s.heap root)
    (hfree : FreePages K s free) (hapart : ∀ a ∈ free, ¬ Table s.heap root a) (va size : Addr)
    (hsize : 0 < size.toNat) (hhigh : va.toNat + size.toNat - 1 < MAXVA.toNat) :
    (∀ (pa : Addr) (perm : Pte), pa.toNat % PGSIZE = 0 → perm.toNat < 1024 →
      (∀ n, pageOf va ≤ n → n ≤ lastPage va size → s.entry K root (pageAt n) = none) →
      ∃ r s' part, run (exec K) (mappages root va size pa perm) s = .done r s' ∧
        (r = 0 ∧ part = pageCount va size ∨ r = -1 ∧ part < pageCount va size) ∧
        MapsPart K root va pa perm part s s' ∧ Tree s'.heap root ∧
        ∀ a, a ∉ free → ¬ Table s.heap root a → s'.page a = s.page a) ∧
    ∀ doFree : Bool,
      (∀ n, pageOf va ≤ n → n ≤ lastPage va size → ∃ w, s.entry K root (pageAt n) = some w ∧
        PTE_FLAGS w ≠ PTE_V ∧
        (doFree = true → Freeable K (PTE2PA w) ∧ ¬ Table s.heap root (PTE2PA w))) →
      ∃ s', run (exec K) (uvmunmap root va size doFree) s = .done () s' ∧ Tree s'.heap root ∧
        ∀ n, n < NPAGES → s'.entry K root (pageAt n) =
          if pageOf va ≤ n ∧ n ≤ lastPage va size then none else s.entry K root (pageAt n) := by
  have hrange : InRange va size := ⟨hsize, hhigh⟩
  have hle := hrange.pageOf_le
  have hlast := hrange.lastPage_lt
  have htables := tree_tables htree
  have hentry : ∀ n, pageOf va ≤ n → n ≤ lastPage va size →
      s.entry K root (pageAt n) = lookup (tables s root) root n := by
    intro n _ hn
    rw [lookup_tables, entry_pageAt htree (by omega)]
  constructor
  · intro pa perm hpa hperm hnone
    have hsafe : (spec K True fun _ => False).Safe _ (mappages root va size pa perm)
      (tables s root) :=
      mappages_safe trivial htables hrange fun n hn hn' => by
        rw [← hentry n hn hn', hnone n hn hn']
    obtain ⟨r, s', hrun, h', free', hmapped, hin, _, _, _, hframe⟩ :=
      (ends_run_of_safe hsafe (part_in s _) hfree fun a ha => part_of_not (hapart a ha)).exists_done
    have htree' : Tree s'.heap root := tree_heap hmapped.grown.tree hin
    have hcount : pageOf va + pageCount va size ≤ NPAGES := by
      unfold pageCount
      omega
    have hlookup : ∀ part, (∀ n, lookup h' root n =
        mapRange (lookup (tables s root) root) (pageOf va) part pa perm n) → ∀ n,
        lookup s'.heap root n = mapRange (lookup s.heap root) (pageOf va) part pa perm n := by
      intro part hpart n
      rw [lookup_heap hmapped.grown.tree hin, hpart, mapRange, mapRange, lookup_tables]
    have hother : ∀ a, a ∉ free → ¬ Table s.heap root a →
      s'.page a = s.page a := fun a hnotin hnot =>
      hframe a hnotin (part_of_not hnot)
    rcases hmapped.result with ⟨rfl, hall⟩ | ⟨rfl, part, hpart, hsome⟩
    · exact ⟨0, s', pageCount va size, hrun, .inl ⟨rfl, rfl⟩,
        mapsPart_of_lookup htree htree' hpa hperm hcount (hlookup _ hall), htree', hother⟩
    · exact ⟨-1, s', part, hrun, .inr ⟨rfl, hpart⟩,
        mapsPart_of_lookup htree htree' hpa hperm (by omega) (hlookup _ hsome), htree', hother⟩
  · intro doFree hmapped
    have hmap : ∀ n, pageOf va ≤ n → n ≤ lastPage va size → ∃ w,
        lookup (tables s root) root n = some w ∧ PTE_FLAGS w ≠ PTE_V ∧
        (doFree = true → Freeable K (PTE2PA w) ∧ ¬ Table s.heap root (PTE2PA w)) := by
      intro n hn hn'
      rw [← hentry n hn hn']
      exact hmapped n hn hn'
    have hremovable : Removable K False (tables s root) root (pageOf va)
        (lastPage va size) doFree := by
      refine ⟨?_, ?_, fun _ howning => howning.elim⟩
      · intro n hn hn'
        obtain ⟨w, hw, hflags, _⟩ := hmap n hn hn'
        exact ⟨w, hw, hflags⟩
      · rintro hdo a ⟨n, w, hn, hn', hw, rfl⟩
        obtain ⟨w', hw', _, hfreeable⟩ := hmap n hn hn'
        obtain rfl : w = w' := some.inj (hw.symm.trans hw')
        obtain ⟨hfree, hnot⟩ := hfreeable hdo
        exact ⟨hfree, fun htable => hnot ((table_tables _).mp htable), False.elim⟩
    have hsafe : (spec K False fun _ => False).Safe _ (uvmunmap root va size doFree)
      (tables s root) :=
      uvmunmap_safe htables hrange hremovable
    obtain ⟨_, s', hrun, h', hunmapped, hin⟩ :=
      (ends_run_of_safe_freeing hsafe (part_in s _)).exists_done
    have htree' : Tree s'.heap root := tree_heap hunmapped.grown.tree hin
    refine ⟨s', hrun, htree', ?_⟩
    intro n hn
    rw [entry_pageAt htree' hn, lookup_heap hunmapped.grown.tree hin, hunmapped.lookup,
      lookup_tables,
      entry_pageAt htree hn]

/-- A kernel that ends at `0x80020000`. -/
def sampleKernel : Kernel := ⟨0x80020000#64, 0x80007000#64, by decide, by decide⟩

/-- A memory of zeros with these free pages. -/
def Memory.ofFree (free : List Addr) : Memory :=
    free.foldr (fun pa s => s.put pa) ⟨fun _ => .zeros, 0, []⟩

theorem freePages_ofFree (hnodup : free.Nodup)
    (hfreeable : ∀ a ∈ free, Freeable K a) : FreePages K (Memory.ofFree free) free := by
  induction free with
  | nil => exact ⟨rfl, .nil, hfreeable⟩
  | cons a rest ih =>
    obtain ⟨hnotin, hrest⟩ := nodup_cons.mp hnodup
    exact (ih hrest fun b hb => hfreeable b (mem_cons_of_mem _ hb)).push a
      (hfreeable a (mem_cons_self ..)) hnotin

theorem page_ofFree (ha : a ∉ free) : (Memory.ofFree free).page a = .zeros := by
  induction free with
  | nil => rfl
  | cons b rest ih =>
    obtain ⟨hne, hrest⟩ := not_or.mp (mt mem_cons.mpr ha)
    exact (Function.update_of_ne hne _ _).trans (ih hrest)

/-- Sixteen free pages. -/
def sampleFree : List Addr := (List.range 16).map fun i => 0x80050000#64 + pageAt i

/-- A memory of zeros with sixteen free pages. -/
def sampleMemory : Memory := .ofFree sampleFree

theorem sampleMemory_free : FreePages sampleKernel sampleMemory sampleFree := by
  refine freePages_ofFree (by decide) ?_
  simp only [sampleFree, List.forall_mem_map, List.mem_range]
  decide

theorem sampleMemory_empty (i : Fin 512) : child sampleMemory.heap 0x80030000#64 i = none := by
  have hpage : sampleMemory.heap 0x80030000#64 = some .zeros :=
    congrArg some (page_ofFree (by decide))
  exact child_of_invalid hpage (by rw [Page.pte_zeros]; rfl)

/-- Two pages are mapped in an empty page table. -/
theorem page_table_is_finite_map_empty : ∃ r s' part, run (exec sampleKernel)
        (mappages 0x80030000#64 0x1800#64 4096#64 0x80100000#64 (PTE_R ||| PTE_W)) sampleMemory =
          .done r s' ∧
      (r = 0 ∧ part = 2 ∨ r = -1 ∧ part < 2) ∧
      MapsPart sampleKernel 0x80030000#64 0x1800#64 0x80100000#64 (PTE_R ||| PTE_W) part
        sampleMemory s' := by
  have htree : Tree sampleMemory.heap 0x80030000#64 :=
    tree_of_empty sampleMemory_empty (some_ne_none _)
  have hapart : ∀ a ∈ sampleFree, ¬ Table sampleMemory.heap 0x80030000#64 a := by
    intro a ha htable
    rw [table_of_empty sampleMemory_empty] at htable
    subst htable
    exact absurd ha (by decide)
  obtain ⟨r, s', part, hrun, hr, hmaps, _⟩ :=
    (page_table_is_finite_map htree sampleMemory_free hapart 0x1800#64 4096#64
      (by decide) (by decide)).1 0x80100000#64 (PTE_R ||| PTE_W) (by decide) (by decide)
      fun n _ hn => by
        have hlast : lastPage 0x1800#64 4096#64 = 2 := by decide
        have hpages : NPAGES = 67108864 := rfl
        rw [entry_pageAt htree (by omega), lookup_of_empty sampleMemory_empty]
  exact ⟨r, s', part, hrun, hr, hmaps⟩

end Xv6.Vm
