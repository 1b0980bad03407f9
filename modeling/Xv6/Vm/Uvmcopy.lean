import Xv6.Vm.Growproc

/-!
# `uvmcopy` is all or nothing, except for its first page

A round of `uvmcopy` gives the child one more page, with the flags and the contents of the parent's
page. If a round runs out of pages, the pages of the rounds before it are unmapped and freed. In the
first round there are none: `uvmunmap` is called for a range of length 0, whose last page is
computed by subtracting one, and it panics at once because page 0 is not mapped.
-/

namespace Xv6.Vm

open Interleave Bytes Radix LocalSpec Option BitVec

variable {K : Kernel} {old new : Addr} {allowed : String → Prop} {h h₁ h' : Heap}

/-- A parent with `pages` pages of memory, and a child that has none of them: their tables are
different pages, and the child's tables are not pages of the parent's memory. -/
structure Copyable (h : Heap) (old new : Addr) (pages : Nat) : Prop where
  parent : Tree h old
  child : Tree h new
  apart : ∀ a, Table h old a → ¬ Table h new a
  mapped : ∀ n, n < pages → ∃ w page, lookup h old n = some w ∧ PTE_FLAGS w ≠ PTE_V ∧
    h (PTE2PA w) = some page ∧ ¬ Table h new (PTE2PA w)
  empty : ∀ n, n < pages → lookup h new n = none

/-- The flags of a page. -/
def flagsOf (h : Heap) (root : Addr) (n : Nat) : Pte := ((lookup h root n).map PTE_FLAGS).getD 0

/-- The contents of a page. -/
def contentOf (h : Heap) (root : Addr) (n : Nat) : Page :=
  ((lookup h root n).bind fun w => h (PTE2PA w)).getD .zeros

/-- The child has copies of the parent's pages from `lo` to below `hi`. -/
abbrev CopiedPages (K : Kernel) (old new : Addr) (h₀ : Heap) : Nat → Nat → Heap → Heap → Prop :=
  Extended K new (flagsOf h₀ old) (contentOf h₀ old)

theorem flags_or_valid {w : Pte} (hvalid : w &&& PTE_V ≠ 0) :
    PTE_FLAGS w ||| PTE_V = PTE_FLAGS w := by
  have hbit : w.getLsbD 0 = true := by
    rw [and_valid] at hvalid
    rw [BitVec.getLsbD, Nat.testBit_zero]
    simpa using hvalid
  have hvalidBit : ∀ i : Fin 64, PTE_V.getLsbD i = decide (i.val = 0) := by decide
  apply eq_of_getLsbD_eq
  intro i hi
  rw [getLsbD_or, hvalidBit ⟨i, hi⟩]
  by_cases hzero : i = 0
  · subst hzero
    rw [PTE_FLAGS, getLsbD_and, hbit]
    rfl
  · simp [hzero]

namespace Copyable

variable {pages : Nat}

section

variable (hcopy : Copyable h old new pages)
include hcopy

/-- The parent's tables and pages stay what they are while the child gets pages. -/
theorem kept {flags : Nat → Pte} {content : Nat → Page}
    {lo hi : Nat} (hext : Extended K new flags content lo hi h h₁) :
    (∀ a, Table h old a → h₁ a = h a) ∧ ∀ n w, n < pages → lookup h old n = some w →
        h₁ (PTE2PA w) = h (PTE2PA w) ∧ ¬ Table h₁ new (PTE2PA w) := by
  constructor
  · intro a ha
    obtain ⟨page, hpage⟩ := ne_none_iff_exists'.mp (hcopy.parent.owned a ha)
    rw [(hext.keeps hpage (hcopy.apart a ha)).1, hpage]
  · intro n w hn hw
    obtain ⟨w', page, hw', _, hpage, hapart⟩ := hcopy.mapped n hn
    obtain rfl : w = w' := some.inj (hw.symm.trans hw')
    obtain ⟨hkept, hnot⟩ := hext.keeps hpage hapart
    exact ⟨by rw [hkept, hpage], hnot⟩

/-- One round: the next page is copied, or there is no page for it. -/
theorem page_safe {n : Nat} (hn : n < pages)
    (hpages : pages ≤ NPAGES) (hext : CopiedPages K old new h 0 n h h₁) :
    Safe K allowed (fun ok h' => ok = true ∧ CopiedPages K old new h 0 (n + 1) h h' ∨
        ok = false ∧ CopiedPages K old new h 0 n h h')
      (uvmcopyPage old new (pageAt n)) h₁ := by
  have hlimit := npages_eq
  have hpage : pageOf (pageAt n) = n := pageOf_pageAt (by omega)
  obtain ⟨hsame, hframes⟩ := hcopy.kept hext
  obtain ⟨w, page, hw, hleaf, hcontent, hapart⟩ := hcopy.mapped n hn
  have hw₁ : lookup h₁ old n = some w := by rw [lookup_of_agree hsame, hw]
  obtain ⟨_, hvalid, t, table, hfollow, htable, hpte⟩ := exists_of_lookup hw₁
  have hsource : h₁ (PTE2PA w) = some page := by rw [(hframes n w hn hw).1, hcontent]
  refine safe_walk_find (hcopy.parent.of_agree hsame) (by omega) ?_
  rw [hpage, pointer, hfollow]
  refine safe_load htable ?_
  rw [hpte, if_neg hvalid]
  refine safe_kalloc trivial ?_ ?_
  · rw [if_pos rfl]
    exact Safe.ret (.inr ⟨rfl, hext⟩)
  · intro mem hmem hne hfresh
    have hsource' : (h₁.set mem (.fill 5)) (PTE2PA w) = some page := by
      rw [Heap.set_of_ne, hsource]
      rintro rfl
      rw [hsource] at hfresh
      cases hfresh
    rw [if_neg hne]
    refine safe_read hsource' ?_
    refine safe_modify Heap.set_self ?_
    rw [Heap.set_set]
    have hnone : lookup h₁ new n = none := by
      rw [hext.lookup n (by omega)]
      exact hcopy.empty n hn
    refine (mapNew_safe hext.tree (by omega) hnone hmem hfresh (flags_lt w) ?_).mono ?_
    · rwa [flags_or_valid hvalid]
    · rintro ok h₂ (⟨rfl, hnew⟩ | ⟨rfl, hback⟩)
      · refine .inl ⟨rfl, hext.trans (hnew.congr ?_) (by omega) (by omega)⟩
        intro m hm hm'
        obtain rfl : m = n := by omega
        rw [flagsOf, contentOf, hw, flags_or_valid hvalid]
        exact ⟨rfl, by rw [bind_some, hcontent]; rfl⟩
      · exact .inr ⟨rfl, hext.trans (.of_same hback) (by omega) le_rfl⟩

theorem undo_safe {n : Nat} (hn : n ≤ pages) (hpos : 0 < n)
    (hpages : pages ≤ NPAGES) (hext : CopiedPages K old new h 0 n h h₁) :
    Safe K allowed (fun _ h' => SameMap K new h h') (uvmunmap new 0 (pageAt n) true) h₁ := by
  have hlimit := npages_eq
  have hsize : pagesOf (pageAt n) = n := pagesOf_pageAt (by omega)
  refine (uvmunmapAll_safe hext.tree (by omega) (by omega) (hsize.symm ▸ hext.users)).mono ?_
  intro _ h' hshrunk
  rw [hsize] at hshrunk
  exact hext.undo hshrunk fun m _ hm => hcopy.empty m (by omega)

end

theorem from_safe {sz : Addr} (hcopy : Copyable h old new (pagesOf sz))
    (hpages : pagesOf sz ≤ NPAGES)
    {fuel n : Nat} (hpos : 0 < n) (hn : n ≤ pagesOf sz) (hfuel : pagesOf sz - n < fuel)
    (hext : CopiedPages K old new h 0 n h h₁) :
    Safe K allowed (fun r h' => r = 0 ∧ CopiedPages K old new h 0 (pagesOf sz) h h' ∨
        r = -1 ∧ SameMap K new h h')
      (uvmcopyFrom old new sz fuel (pageAt n)) h₁ := by
  have hlimit := npages_eq
  induction fuel generalizing n h₁ with
  | zero => omega
  | succ fuel ih =>
    unfold uvmcopyFrom
    by_cases hmore : n < pagesOf sz
    · rw [if_pos ((pageAt_lt_iff (by omega)).mpr hmore)]
      refine (hcopy.page_safe hmore hpages hext).andThen ?_
      rintro ok h₂ (⟨rfl, hnext⟩ | ⟨rfl, hback⟩)
      · rw [if_pos rfl, pageAt_succ]
        exact ih (by omega) hmore (by omega) hnext
      · refine (hcopy.undo_safe hn hpos hpages hback).andThen ?_
        intro _ h₃ hundone
        exact Safe.ret (.inr ⟨rfl, hundone⟩)
    · rw [if_neg (mt (pageAt_lt_iff (by omega)).mp hmore)]
      obtain rfl : n = pagesOf sz := by omega
      exact Safe.ret (.inl ⟨rfl, hext⟩)

end Copyable

/-- `uvmunmap` of a range of length 0 panics where page 0 is not mapped. -/
theorem uvmunmap_empty_stops (htree : Tree h new) (hnone : lookup h new 0 = none) :
    (spec K True fun message => message = "uvmunmap: walk" ∨ message = "uvmunmap: not mapped").Safe
      (fun _ _ => False) (uvmunmap new 0 0 true) h := by
  refine uvmunmap_stops htree (by decide) ?_ (.inl rfl) (.inr rfl)
  exact hnone

/-! ### Runs on memory -/

variable {s s' : Memory} {sz : Addr} {free free' : List Addr}

/-- The state before `uvmcopy`: a parent with all pages below `sz` mapped by leaves, and a child
with none of them; the child's tables, the parent's and the free pages are different pages. -/
structure CopyStart (K : Kernel) (s : Memory) (old new sz : Addr) (free : List Addr) : Prop where
  parent : Tree s.heap old
  child : Tree s.heap new
  mapped : ∀ n, n < pagesOf sz → ∃ w, s.entry K old (pageAt n) = some w ∧ PTE_FLAGS w ≠ PTE_V
  empty : ∀ n, n < pagesOf sz → s.entry K new (pageAt n) = none
  apart : ∀ a, Table s.heap new a → ¬ Table s.heap old a ∧ ¬ Frames s.heap old 0 (pagesOf sz) a
  freePages : FreePages K s free
  unused : ∀ a ∈ free, ¬ Table s.heap old a ∧ ¬ Table s.heap new a ∧
    ¬ Frames s.heap old 0 (pagesOf sz) a

/-- The parent has the entries and the pages it had. -/
structure ParentKept (K : Kernel) (s s' : Memory) (old sz : Addr) : Prop where
  entries : ∀ n, n < NPAGES → s'.entry K old (pageAt n) = s.entry K old (pageAt n)
  pages : ∀ a, Frames s.heap old 0 (pagesOf sz) a → s'.page a = s.page a

/-- The child has a copy of every page, in pages that were free, and nothing else is new. -/
structure CopiedAll (K : Kernel) (s s' : Memory) (old new sz : Addr) (free free' : List Addr) :
    Prop where
  page : ∀ n, n < pagesOf sz → ∃ w w', s.entry K old (pageAt n) = some w ∧
    s'.entry K new (pageAt n) = some w' ∧ PTE_FLAGS w' = PTE_FLAGS w ∧
    s'.page (PTE2PA w') = s.page (PTE2PA w) ∧ PTE2PA w' ∈ free ∧ PTE2PA w' ∉ free'
  distinct : ∀ n m w w', n < pagesOf sz → m < pagesOf sz → s'.entry K new (pageAt n) = some w →
    s'.entry K new (pageAt m) = some w' → PTE2PA w = PTE2PA w' → n = m
  other : ∀ n, pagesOf sz ≤ n → n < NPAGES → s'.entry K new (pageAt n) = s.entry K new (pageAt n)

/-- The child has its old entries, and what was taken and not freed are its tables. -/
structure CopiedNothing (K : Kernel) (s s' : Memory) (new : Addr) (free free' : List Addr) :
    Prop where
  entries : ∀ n, n < NPAGES → s'.entry K new (pageAt n) = s.entry K new (pageAt n)
  returned : ∀ a ∈ free, a ∉ free' → Table s'.heap new a

/-- The call returns 0 and everything is copied, or it returns -1 and nothing is. -/
def AllOrNothing (K : Kernel) (s : Memory) (old new sz : Addr) (free : List Addr) :
    Outcome Memory Int → Prop
  | .done r s' => ∃ free', FreePages K s' free' ∧ ParentKept K s s' old sz ∧
      (r = 0 ∧ CopiedAll K s s' old new sz free free' ∨
        r = -1 ∧ CopiedNothing K s s' new free free')
  | _ => False

theorem entry_of_high {root va : Addr} (hva : ¬ va < MAXVA) : s.entry K root va = none := by
  have hrun : run (exec K) (walk root va false) s = .panic "walk" := by
    unfold walk
    rw [if_neg hva]
    rfl
  rw [Memory.entry, hrun]

namespace CopyStart

theorem pages_le (hstart : CopyStart K s old new sz free) : pagesOf sz ≤ NPAGES := by
  by_contra hmore
  obtain ⟨w, hw, _⟩ := hstart.mapped NPAGES (by omega)
  rw [entry_of_high (by decide)] at hw
  cases hw

/-- The pages that belong to the parent or to the child. -/
def Owned (s : Memory) (old new sz : Addr) (a : Addr) : Prop :=
  Table s.heap old a ∨ Table s.heap new a ∨ Frames s.heap old 0 (pagesOf sz) a

/-- The part of the memory that belongs to the parent or to the child. -/
noncomputable def heap (s : Memory) (old new sz : Addr) : Heap := s.part (Owned s old new sz)

theorem agree_parent (a : Addr) (ha : Table s.heap old a) : heap s old new sz a = s.heap a :=
  part_of (.inl ha)

theorem agree_child (a : Addr) (ha : Table s.heap new a) : heap s old new sz a = s.heap a :=
  part_of (.inr (.inl ha))

section

variable (hstart : CopyStart K s old new sz free)
include hstart

theorem copyable : Copyable (heap s old new sz) old new (pagesOf sz) where
  parent := hstart.parent.of_agree agree_parent
  child := hstart.child.of_agree agree_child
  apart a hold hnew := by
    rw [table_of_agree agree_parent] at hold
    rw [table_of_agree agree_child] at hnew
    exact (hstart.apart a hnew).1 hold
  mapped n hn := by
    obtain ⟨w, hw, hleaf⟩ := hstart.mapped n hn
    rw [entry_pageAt hstart.parent (lt_of_lt_of_le hn hstart.pages_le)] at hw
    have hframe : Frames s.heap old 0 (pagesOf sz) (PTE2PA w) := ⟨n, w, Nat.zero_le n, hn, hw, rfl⟩
    refine ⟨w, s.page (PTE2PA w), ?_, hleaf, part_of (.inr (.inr hframe)), ?_⟩
    · rw [lookup_of_agree agree_parent, hw]
    · rw [table_of_agree agree_child]
      exact fun hnew => (hstart.apart _ hnew).2 hframe
  empty n hn := by
    rw [lookup_of_agree agree_child, ← entry_pageAt hstart.child
      (lt_of_lt_of_le hn hstart.pages_le)]
    exact hstart.empty n hn

theorem unused_heap (a : Addr) (ha : a ∈ free) : heap s old new sz a = none := by
  obtain ⟨hold, hnew, hframe⟩ := hstart.unused a ha
  exact part_of_not (by rintro (h | h | h) <;> contradiction)

/-- The parent is kept if the owned pages that are not tables of the child are. -/
theorem parentKept
    (hkeeps : ∀ a page, heap s old new sz a = some page → ¬ Table (heap s old new sz) new a →
      h' a = some page) (hin : h'.In s') : ParentKept K s s' old sz := by
  have hpage : ∀ a, Owned s old new sz a → ¬ Table s.heap new a → s'.page a = s.page a := by
    intro a howned hnot
    refine hin a _ (hkeeps a _ (part_of howned) ?_)
    rwa [table_of_agree agree_child]
  have hsame : ∀ a, Table s.heap old a → s'.heap a = s.heap a := fun a ha =>
    congrArg some (hpage a (.inl ha) fun hnew => (hstart.apart a hnew).1 ha)
  constructor
  · intro n hn
    rw [entry_pageAt (hstart.parent.of_agree hsame) hn, entry_pageAt hstart.parent hn,
      lookup_of_agree hsame]
  · intro a ha
    exact hpage a (.inr (.inr ha)) fun hnew => (hstart.apart a hnew).2 ha

theorem copiedAll
    (hext : CopiedPages K old new (heap s old new sz) 0 (pagesOf sz) (heap s old new sz) h')
    (hin : h'.In s') (hapart : ∀ a ∈ free', h' a = none)
    (hpages : ∀ a, a ∈ free' ∨ h' a ≠ none ↔ a ∈ free ∨ heap s old new sz a ≠ none) :
    CopiedAll K s s' old new sz free free' := by
  have htree' : Tree s'.heap new := tree_heap hext.tree hin
  have hentry : ∀ n, n < NPAGES → s'.entry K new (pageAt n) = lookup h' new n := fun n hn => by
    rw [entry_pageAt htree' hn, lookup_heap hext.tree hin]
  have hlt : ∀ n, n < pagesOf sz → n < NPAGES := fun n hn => lt_of_lt_of_le hn hstart.pages_le
  constructor
  · intro n hn
    obtain ⟨w, page, hw, _, hpage, _⟩ := hstart.copyable.mapped n hn
    obtain ⟨w', huser, hflags, hnone⟩ := hext.added n (Nat.zero_le n) hn
    have hcontent : contentOf (heap s old new sz) old n = page := by
      rw [contentOf, hw, bind_some, hpage]
      rfl
    have howned' : h' (PTE2PA w') ≠ none := by
      rw [huser.page]
      simp
    refine ⟨w, w', ?_, ?_, ?_, ?_, ?_, ?_⟩
    · rw [entry_pageAt hstart.parent (hlt n hn), ← hw, lookup_of_agree agree_parent]
    · rw [hentry n (hlt n hn), huser.lookup]
    · rw [hflags, flagsOf, hw]
      rfl
    · rw [hin _ _ huser.page, hcontent, part_in s _ _ _ hpage]
    · exact ((hpages _).mp (.inr howned')).resolve_right (not_not.mpr hnone)
    · exact fun hfree => howned' (hapart _ hfree)
  · intro n m w w' hn hm hw hw' hpa
    rw [hentry n (hlt n hn)] at hw
    rw [hentry m (hlt m hm)] at hw'
    exact hext.distinct n m w w' (Nat.zero_le n) hn (Nat.zero_le m) hm hw hw' hpa
  · intro n hn hn'
    rw [hentry n hn', entry_pageAt hstart.child hn', hext.lookup n (by omega),
      lookup_of_agree agree_child]

/-- Nothing is copied, and only page-table pages of the child are no longer free. -/
theorem copiedNothing (hsame : SameMap K new (heap s old new sz) h') (hin : h'.In s')
    (hpages : ∀ a, a ∈ free' ∨ h' a ≠ none ↔ a ∈ free ∨ heap s old new sz a ≠ none) :
    CopiedNothing K s s' new free free' := by
  have htree : Tree h' new := hsame.grown.tree
  constructor
  · intro n hn
    rw [entry_pageAt (tree_heap htree hin) hn, lookup_heap htree hin, hsame.lookup,
      lookup_of_agree agree_child, entry_pageAt hstart.child hn]
  · intro a ha hnot
    have howned : h' a ≠ none := ((hpages a).mpr (.inl ha)).resolve_left hnot
    have htable : Table h' new a := by
      by_contra hother
      rw [hsame.grown.kept a hother] at howned
      exact howned (hstart.unused_heap a ha)
    exact (table_of_agree (fun b hb => heap_of_table htree hin hb) a).mpr htable

/-- The first round ends, and if it runs out of pages, the clean-up panics. -/
theorem first_round (hpos : 0 < pagesOf sz) :
    ∃ ok s₁, run (exec K) (uvmcopyPage old new 0) s = .done ok s₁ ∧
      (ok = true → ∃ h₁ free₁, CopiedPages K old new (heap s old new sz) 0 1
        (heap s old new sz) h₁ ∧
        h₁.In s₁ ∧ FreePages K s₁ free₁ ∧ (∀ a ∈ free₁, h₁ a = none) ∧
        ∀ a, a ∈ free₁ ∨ h₁ a ≠ none ↔ a ∈ free ∨ heap s old new sz a ≠ none) ∧
      (ok = false → ∃ message, run (exec K) (uvmunmap new 0 0 true) s₁ = .panic message) := by
  have hcopy := hstart.copyable
  have hnothing : CopiedPages K old new (heap s old new sz) 0 0 (heap s old new sz)
      (heap s old new sz) := .of_same (.refl hcopy.child)
  have hsafe : (spec K True fun _ => False).Safe _ (uvmcopyPage old new (pageAt 0))
      (heap s old new sz) := hcopy.page_safe hpos hstart.pages_le hnothing
  obtain ⟨ok, s₁, hrun, h₁, free₁, hpost, hin, hfree, hapart, hpages, _⟩ :=
    (ends_run_of_safe hsafe (part_in s _) hstart.freePages hstart.unused_heap).exists_done
  refine ⟨ok, s₁, hrun, ?_, ?_⟩
  · intro hok
    obtain ⟨_, hext⟩ := hpost.resolve_right fun hbad => by simp [hok] at hbad
    exact ⟨h₁, free₁, hext, hin, hfree, hapart, hpages⟩
  · intro hok
    obtain ⟨_, hext⟩ := hpost.resolve_left fun hgood => by simp [hok] at hgood
    have hnone : lookup h₁ new 0 = none := by
      rw [hext.lookup 0 (by omega)]
      exact hcopy.empty 0 hpos
    have hends := ends_run_of_safe (uvmunmap_empty_stops hext.tree hnone) hin hfree hapart
    obtain ⟨message, hpanic, _⟩ := (hends.mono fun _ _ hpost => by
      obtain ⟨_, _, hfalse, _⟩ := hpost
      exact hfalse).exists_panic
    exact ⟨message, hpanic⟩

end

end CopyStart

/-! ### Pages for the first round -/

/-- The next `n` calls of `kalloc` find a page. -/
def Serves (s : Memory) (free : List Addr) (n : Nat) : Prop :=
  n ≤ free.length ∧ true ∉ s.short.take n

/-- How many page-table pages `walk` has to allocate for `va`, from a table of a level down. -/
def missing (page : Addr → Page) (va : Addr) : (level : Nat) → (table : Addr) → Nat
  | 0, _ => 0
  | level + 1, table =>
    let pte := (page table).pte (PX (level + 1) va)
    if pte &&& PTE_V ≠ 0 then missing page va level (PTE2PA pte) else level + 1

/-- No table is on the way down from an empty page. -/
theorem missing_of_zeros {page : Addr → Page} {va t : Addr} (hzero : page t = .zeros)
    (level : Nat) :
    missing page va level t = level := by
  cases level with
  | zero => rfl
  | succ level => simp [missing, hzero]

theorem missing_congr {page page' : Addr → Page} {va t : Addr} {level : Nat}
    (hsame : ∀ a, Node (child fun a => some (page a)) t level a → page' a = page a) :
    missing page' va level t = missing page va level t := by
  induction level generalizing t with
  | zero => rfl
  | succ level ih =>
    rw [missing, missing, hsame t node_root]
    by_cases hvalid : (page t).pte (PX (level + 1) va) &&& PTE_V ≠ 0
    · rw [if_pos hvalid, if_pos hvalid]
      exact ih fun a ha => hsame a (node_succ.mpr (.inr ⟨_, _, child_of_valid rfl hvalid, ha⟩))
    · rw [if_neg hvalid, if_neg hvalid]

/-- `kalloc` takes the first free page, unless there is none or it was taken. -/
theorem kalloc_serves (hfree : FreePages K s free) :
    (∃ s₁, exec K .kalloc s = .done (0 : Addr) s₁ ∧ ∀ n, ¬ Serves s free (n + 1)) ∨
      ∃ pa rest s₁, free = pa :: rest ∧ exec K .kalloc s = .done pa s₁ ∧ pa ≠ 0 ∧
        FreePages K s₁ rest ∧ s₁.page = Function.update s.page pa (.fill 5) ∧
        ∀ n, Serves s free (n + 1) ↔ Serves s₁ rest n := by
  cases free with
  | nil =>
    have htake : s.take = (0, s) := if_pos hfree.linked
    refine .inl ?_
    simp only [exec, htake]
    cases s.short with
    | nil => exact ⟨_, rfl, fun n hn => absurd hn.1 (by simp)⟩
    | cons fails later => cases fails <;> exact ⟨_, rfl, fun n hn => absurd hn.1 (by simp)⟩
  | cons pa rest =>
    obtain ⟨htake, hrest⟩ := hfree.pop
    have hne : pa ≠ 0 := hfree.linked.2.1
    simp only [exec]
    cases hshort : s.short with
    | nil =>
      refine .inr ⟨pa, rest, s.take.2, rfl, by rw [htake], hne, hrest, by rw [htake]; rfl, ?_⟩
      intro n
      rw [Serves, Serves, htake]
      simp [Memory.setPage, hshort]
    | cons fails later =>
      cases fails with
      | true => exact .inl ⟨_, rfl, fun n hn => absurd hn.2 (by simp [hshort])⟩
      | false =>
        refine .inr ⟨pa, rest, { s.take.2 with short := later }, rfl, by rw [htake], hne,
          ⟨hrest.1, hrest.2, hrest.3⟩, by rw [htake]; rfl, ?_⟩
        intro n
        rw [Serves, Serves, hshort]
        simp

/-- Without `alloc`, `walk` changes nothing. -/
theorem run_walkFrom_find (va : Addr) (level : Nat) (t : Addr) :
    ∃ r, run (exec K) (walkFrom false va level t) s = .done r s := by
  induction level generalizing t with
  | zero => exact ⟨_, rfl⟩
  | succ level ih =>
    by_cases hvalid : (s.page t).pte (PX (level + 1) va) &&& PTE_V ≠ 0
    · obtain ⟨r, hr⟩ := ih (PTE2PA ((s.page t).pte (PX (level + 1) va)))
      refine ⟨r, ?_⟩
      rw [← hr, walkFrom]
      show run _ (ite _ _ _) s = _
      rw [if_pos hvalid]
    · refine ⟨none, ?_⟩
      rw [walkFrom]
      show run _ (ite _ _ _) s = _
      rw [if_neg hvalid]
      rfl

/-- With `alloc`, `walk` finds the entry if the free pages serve for the tables that are missing. -/
theorem walkFrom_serves {va t : Addr} {level : Nat} (hfree : FreePages K s free)
    (hapart : ∀ a ∈ free, ¬ Node (child s.heap) t level a) :
    ∃ r s', run (exec K) (walkFrom true va level t) s = .done r s' ∧
      (r.isSome = true ↔ Serves s free (missing s.page va level t)) := by
  induction level generalizing t s free with
  | zero => exact ⟨_, _, rfl, by simp [Serves, missing]⟩
  | succ level ih =>
    rw [missing, walkFrom]
    by_cases hvalid : (s.page t).pte (PX (level + 1) va) &&& PTE_V ≠ 0
    · have hbelow : ∀ a ∈ free,
          ¬ Node (child s.heap) (PTE2PA ((s.page t).pte (PX (level + 1) va))) level a :=
        fun a ha hnode => hapart a ha
          (node_succ.mpr (.inr ⟨_, _, child_of_valid rfl hvalid, hnode⟩))
      obtain ⟨r, s', hrun, hr⟩ := ih hfree hbelow
      refine ⟨r, s', ?_, by rwa [if_pos hvalid]⟩
      rw [← hrun]
      show run _ (ite _ _ _) s = _
      rw [if_pos hvalid]
    · rw [if_neg hvalid]
      rcases kalloc_serves hfree with ⟨s₁, hexec, hshort⟩ |
        ⟨pa, rest, s₁, rfl, hexec, hne, hrest, hpage, hserves⟩
      · refine ⟨none, s₁, ?_, by simp [hshort level]⟩
        show run _ (ite _ _ _) s = _
        rw [if_neg hvalid, if_pos rfl]
        show run _ (.op Op.kalloc _) s = _
        rw [run_op, hexec]
        rfl
      · have hnotin : pa ∉ rest := (List.nodup_cons.mp hfree.nodup).1
        have htable : t ∉ rest := fun ht =>
          hapart t (List.mem_cons_of_mem _ ht) node_root
        have hpat : pa ≠ t := by
          rintro rfl
          exact hapart pa (List.mem_cons_self ..) node_root
        -- the new table is empty, and the entry for it is in the table above
        let s₂ := s₁.setPage pa (Page.fill 0)
        let s₃ := s₂.setPage t ((s₂.page t).setPte (PX (level + 1) va) (PA2PTE pa ||| PTE_V))
        have hempty : s₃.page pa = .zeros := by
          show Function.update _ t _ pa = _
          rw [Function.update_of_ne hpat]
          exact Function.update_self ..
        have hleaf : ∀ i, child s₃.heap pa i = none := fun i =>
          child_of_invalid (congrArg some hempty) (by rw [Page.pte_zeros]; rfl)
        have hnodes : ∀ a ∈ rest, ¬ Node (child s₃.heap) pa level a := by
          rintro a ha ⟨path, _, hfollow⟩
          exact hnotin ((path_of_empty hleaf hfollow).2 ▸ ha)
        obtain ⟨r, s', hrun, hr⟩ := ih ((hrest.setPage hnotin _).setPage htable _) hnodes
        refine ⟨r, s', ?_, ?_⟩
        · rw [← hrun]
          show run _ (ite _ _ _) s = _
          rw [if_neg hvalid, if_pos rfl]
          show run _ (.op Op.kalloc _) s = _
          rw [run_op, hexec]
          show run _ (ite _ _ _) s₁ = _
          rw [if_neg hne]
          rfl
        · rw [hr, hserves, missing_of_zeros hempty]
          rfl

/-- The first round copies its page if the free pages serve for the copy and for the tables that are
missing on the child's path to page 0. -/
theorem CopyStart.uvmcopyPage_serves {ok : Bool} {s₁ : Memory}
    (hstart : CopyStart K s old new sz free)
    (hrun : run (exec K) (uvmcopyPage old new 0) s = .done ok s₁) :
    ok = true ↔ Serves s free (missing s.page 0 2 new + 1) := by
  obtain ⟨found, hfound⟩ := run_walkFrom_find 0 2 old
  have hwalk : run (exec K) (walk old 0 false) s = .done found s := hfound
  rw [uvmcopyPage, run_bind, hwalk] at hrun
  cases found with
  | none => nomatch hrun
  | some ptr =>
    change run _ (ite _ _ _) s = _ at hrun
    split at hrun
    · nomatch hrun
    · change run _ (.op Op.kalloc _) s = _ at hrun
      rw [run_op] at hrun
      rcases kalloc_serves hstart.freePages with ⟨s₂, hexec, hshort⟩ |
        ⟨mem, rest, s₂, rfl, hexec, hne, hrest, hpage, hserves⟩
      · rw [hexec] at hrun
        cases hrun
        simp [hshort]
      · have hnotin : mem ∉ rest := (List.nodup_cons.mp hstart.freePages.nodup).1
        rw [hexec] at hrun
        change run _ (ite _ _ _) s₂ = _ at hrun
        rw [if_neg hne] at hrun
        let s₃ := s₂.setPage mem (s₂.page (PTE2PA ((s.page ptr.table).pte ptr.index)))
        -- the child's tables are not the page that was taken
        have hsame : ∀ a, Table s.heap new a → s₃.page a = s.page a := by
          intro a ha
          have hother : a ≠ mem := by
            rintro rfl
            exact (hstart.unused a (List.mem_cons_self ..)).2.1 ha
          show Function.update s₂.page mem _ a = _
          rw [Function.update_of_ne hother, hpage, Function.update_of_ne hother]
        have hagree : ∀ a, Table s.heap new a → s₃.heap a = s.heap a :=
          fun a ha => congrArg some (hsame a ha)
        have hapart : ∀ a ∈ rest, ¬ Table s₃.heap new a := by
          intro a ha
          rw [table_of_agree hagree]
          exact (hstart.unused a (List.mem_cons_of_mem _ ha)).2.1
        obtain ⟨r, s₄, hwalk', hr⟩ : ∃ r s₄, run (exec K) (walk new 0 true) s₃ = .done r s₄ ∧
            (r.isSome = true ↔ Serves s₃ rest (missing s₃.page 0 2 new)) :=
          walkFrom_serves (hrest.setPage hnotin _) hapart
        rw [hserves, ← missing_congr hsame]
        refine Iff.trans ?_ hr
        change run _ (mappagesFrom new 0 _ 1 0 mem >>= _) s₃ = _ at hrun
        rw [mappagesFrom, run_bind, run_bind, hwalk'] at hrun
        cases r with
        | none =>
          change run _ (kfree mem >>= _) s₄ = _ at hrun
          rw [run_bind, run_kfree (hstart.freePages.freeable mem (List.mem_cons_self ..))] at hrun
          cases hrun
          simp
        | some ptr' =>
          change (run _ (ite _ _ _) s₄).andThen _ = _ at hrun
          split at hrun
          · nomatch hrun
          · cases hrun
            simp

theorem run_uvmcopy {ok : Bool} {s₁ : Memory} (hpos : 0 < sz)
    (hrun : run (exec K) (uvmcopyPage old new 0) s = .done ok s₁) :
    run (exec K) (uvmcopy old new sz) s =
      if ok then run (exec K) (uvmcopyFrom old new sz (sz.toNat / PGSIZE + 1) (pageAt 1)) s₁
      else (run (exec K) (uvmunmap new 0 0 true) s₁).andThen fun _ s₂ => .done (-1) s₂ := by
  unfold uvmcopy uvmcopyFrom
  rw [if_pos hpos, run_bind, hrun]
  cases ok with
  | true => rfl
  | false =>
    rw [Outcome.andThen, if_neg (by simp), if_neg (by simp), run_bind]
    rfl

/-- `uvmcopy` is all or nothing if and only if the free pages serve for its first round: for the
copy of page 0 and for the tables that are missing on the child's path to it. -/
theorem uvmcopy_all_or_nothing_iff (hstart : CopyStart K s old new sz free) :
    AllOrNothing K s old new sz free (run (exec K) (uvmcopy old new sz) s) ↔
      sz = 0 ∨ Serves s free (missing s.page 0 2 new + 1) := by
  rcases eq_or_ne sz 0 with rfl | hne
  · refine iff_of_true ?_ (.inl rfl)
    have hrun : run (exec K) (uvmcopy old new 0) s = .done 0 s := rfl
    rw [hrun]
    have hkept : ParentKept K s s old 0 := ⟨fun _ _ => rfl, fun _ _ => rfl⟩
    exact ⟨free, hstart.freePages, hkept, .inl ⟨rfl, nofun, nofun, fun _ _ _ => rfl⟩⟩
  · have hsize : PGSIZE = 4096 := rfl
    have hnat : sz.toNat ≠ 0 := fun hzero => hne (eq_of_toNat_eq hzero)
    have hpos : 0 < sz := by
      rw [lt_def]
      exact pos_of_ne_zero hnat
    have hpages : 0 < pagesOf sz := by
      unfold pagesOf
      omega
    obtain ⟨ok, s₁, hfirst, htrue, hfalse⟩ := hstart.first_round hpages
    have hserves := hstart.uvmcopyPage_serves hfirst
    rw [run_uvmcopy hpos hfirst]
    cases ok with
    | false =>
      obtain ⟨message, hpanic⟩ := hfalse rfl
      refine iff_of_false ?_ ?_
      · rw [if_neg (by simp), hpanic]
        exact id
      · rintro (hzero | hserved)
        · exact hne hzero
        · simpa using hserves.mpr hserved
    | true =>
      obtain ⟨h₁, free₁, hext, hin₁, hfree₁, hapart₁, hpages₁⟩ := htrue rfl
      refine iff_of_true ?_ (.inr (hserves.mp rfl))
      have hsafe : (spec K True fun _ => False).Safe _
          (uvmcopyFrom old new sz (sz.toNat / PGSIZE + 1) (pageAt 1)) h₁ :=
        hstart.copyable.from_safe hstart.pages_le Nat.one_pos hpages
          (by rw [hsize]; unfold pagesOf; omega) hext
      obtain ⟨r, s', hrun, h', free', hpost, hin, hfree, hapart, hconserved, _⟩ :=
        (ends_run_of_safe hsafe hin₁ hfree₁ hapart₁).exists_done
      have hall : ∀ a, a ∈ free' ∨ h' a ≠ none ↔
          a ∈ free ∨ CopyStart.heap s old new sz a ≠ none := fun a =>
        (hconserved a).trans (hpages₁ a)
      rw [if_pos rfl, hrun]
      refine ⟨free', hfree, ?_⟩
      rcases hpost with ⟨hr, hcopied⟩ | ⟨hr, hsame⟩
      · refine ⟨hstart.parentKept (fun a page hpage hnot => (hcopied.keeps hpage hnot).1) hin,
          .inl ⟨hr, hstart.copiedAll hcopied hin hapart hall⟩⟩
      · refine ⟨hstart.parentKept (fun a page hpage hnot => (hsame.grown.keeps hpage hnot).1) hin,
          .inr ⟨hr, hstart.copiedNothing hsame hin hall⟩⟩

/-- A process with its memory, and an empty page table for the child. -/
theorem copyStart_of_image (himage : Image K h old (pagesOf sz)) (hin : h.In s)
    (hnew : h new = some .zeros) (htable : ¬ Table h old new)
    (hframe : ¬ Frames h old 0 (pagesOf sz) new) (hsize : pagesOf sz ≤ USERPAGES)
    (hfree : FreePages K s free) (hunused : ∀ a ∈ free, h a = none) :
    CopyStart K s old new sz free := by
  have hlimit : USERPAGES ≤ NPAGES := by decide
  have htree : Tree s.heap old := tree_heap himage.tree hin
  have hpage : s.heap new = some .zeros := congrArg some (hin new _ hnew)
  have hempty : ∀ i, child s.heap new i = none := fun i =>
    child_of_invalid hpage (by rw [Page.pte_zeros]; rfl)
  have hchild : Tree s.heap new := tree_of_empty hempty (by simp [hpage])
  have hlookup : ∀ n, lookup s.heap old n = lookup h old n := lookup_heap himage.tree hin
  have htables : ∀ a, Table s.heap old a ↔ Table h old a :=
    table_of_agree fun a ha => heap_of_table himage.tree hin ha
  have hframes : ∀ a, Frames s.heap old 0 (pagesOf sz) a → Frames h old 0 (pagesOf sz) a := by
    rintro a ⟨n, w, hlo, hhi, hw, hpa⟩
    exact ⟨n, w, hlo, hhi, by rw [← hlookup, hw], hpa⟩
  have howned : ∀ a, h a = none → ¬ Table s.heap old a ∧ ¬ Frames s.heap old 0 (pagesOf sz) a := by
    intro a ha
    constructor
    · intro hold
      exact himage.tree.owned a ((htables a).mp hold) ha
    · intro hf
      obtain ⟨n, w, _, hn, hw, rfl⟩ := hframes a hf
      obtain ⟨w', page, huser⟩ := himage.mapped n hn
      obtain rfl : w = w' := some.inj (hw.symm.trans huser.lookup)
      rw [huser.page] at ha
      cases ha
  refine ⟨htree, hchild, ?_, ?_, ?_, hfree, ?_⟩
  · intro n hn
    obtain ⟨w, page, huser⟩ := himage.mapped n hn
    exact ⟨w, by rw [entry_pageAt htree (by omega), hlookup, huser.lookup], huser.leaf⟩
  · intro n hn
    rw [entry_pageAt hchild (by omega), lookup_of_empty hempty]
  · intro a ha
    rw [table_of_empty hempty] at ha
    subst ha
    exact ⟨mt (htables _).mp htable, mt (hframes _) hframe⟩
  · intro a ha
    have hnone := hunused a ha
    refine ⟨(howned a hnone).1, ?_, (howned a hnone).2⟩
    rw [table_of_empty hempty]
    rintro rfl
    rw [hnew] at hnone
    cases hnone

theorem sampleParent (short : List Bool) :
    ∃ p s free, run (exec sampleKernel) (growproc sampleProc 4096#32) sampleMemory =
      .done (0, p) s ∧
      CopyStart sampleKernel { s with short } p.pagetable 0x80040000#64 4096#64 free := by
  obtain ⟨r, p, s, h, hrun, hgrew, hin, free, hfree, hapart⟩ :=
    run_growproc sampleProc_inMemory 4096#32
  have hzero : (run (exec sampleKernel) (growproc sampleProc 4096#32) sampleMemory).result?.map
      Prod.fst = some 0 := by
    decide +kernel
  have hr : r = 0 := by
    rw [hrun] at hzero
    exact some.inj hzero
  have himage := hgrew.image sampleProc_inMemory.image
  have hnot : ¬ Table sampleHeap 0x80030000#64 0x80040000#64 := by
    rw [table_of_empty sampleHeap_empty]
    decide
  subst hr
  refine ⟨p, s, free, hrun, ?_⟩
  cases hgrew with
  | @more new _ hsz _ hzeroed =>
    obtain rfl : new = 4096#64 := eq_of_toNat_eq (Int.ofNat.inj hsz)
    obtain ⟨hkept, htable⟩ := hzeroed.keeps sampleHeap_child hnot
    refine copyStart_of_image himage hin hkept htable ?_ (by decide)
      ⟨hfree.1, hfree.2, hfree.3⟩ hapart
    intro hframe
    have hnone := (hzeroed.frame hframe).2.1
    rw [sampleHeap_child] at hnone
    cases hnone
  | less _ hle _ => cases hle
  | ignored hbelow => cases hbelow

/-- One page is copied where there are pages for it. -/
theorem uvmcopy_all_or_nothing_iff_sample : ∃ (s : Memory) (old : Addr) (free : List Addr),
      CopyStart sampleKernel s old 0x80040000#64 4096#64 free ∧
      AllOrNothing sampleKernel s old 0x80040000#64 4096#64 free
        (run (exec sampleKernel) (uvmcopy old 0x80040000#64 4096#64) s) := by
  obtain ⟨p, s, free, hrun, hstart⟩ := sampleParent []
  have hfirst : ((run (exec sampleKernel) (growproc sampleProc 4096#32) sampleMemory).andThen
      fun grown s => run (exec sampleKernel) (uvmcopyPage grown.2.pagetable 0x80040000#64 0)
        { s with short := [] }).result? = some true := by
    decide +kernel
  rw [hrun] at hfirst
  obtain ⟨s₁, hdone⟩ := Outcome.exists_done_of_result hfirst
  exact ⟨{ s with short := [] }, p.pagetable, free, hstart,
    (uvmcopy_all_or_nothing_iff hstart).mpr (.inr ((hstart.uvmcopyPage_serves hdone).mp rfl))⟩

/-- A parent with one page of memory, when no page is free for the copy: the call panics. -/
theorem uvmcopy_first_page_panics : ∃ (s : Memory) (old : Addr) (free : List Addr),
      CopyStart sampleKernel s old 0x80040000#64 4096#64 free ∧
      run (exec sampleKernel) (uvmcopy old 0x80040000#64 4096#64) s = .panic "uvmunmap: walk" := by
  obtain ⟨p, s, free, hrun, hstart⟩ := sampleParent [true]
  have hpanic : ((run (exec sampleKernel) (growproc sampleProc 4096#32) sampleMemory).andThen
      fun grown s => run (exec sampleKernel) (uvmcopy grown.2.pagetable 0x80040000#64 4096#64)
        { s with short := [true] }).message? = some "uvmunmap: walk" := by
    decide +kernel
  rw [hrun] at hpanic
  exact ⟨{ s with short := [true] }, p.pagetable, free, hstart, Outcome.eq_panic_of_message hpanic⟩

end Xv6.Vm
