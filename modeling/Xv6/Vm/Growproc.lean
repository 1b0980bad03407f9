import Xv6.Vm.User
import Xv6.Vm.FiniteMap

/-!
# `uvmalloc` and `growproc`

`uvmalloc` adds the pages up to the new size or, if it runs out of pages, removes those that it has
added. `growproc` works on 32-bit sizes; a request that would take the size below zero wraps around,
is too large to be a smaller size, and is granted without any effect.
-/

namespace Xv6.Vm

open Interleave Bytes LocalSpec BitVec

variable {K : Kernel} {root : Addr} {allowed : String → Prop} {h h₀ h' : Heap}

/-- Zeroed pages were added as heap memory. -/
abbrev Zeroed (K : Kernel) (root : Addr) : Nat → Nat → Heap → Heap → Prop :=
  Extended K root (fun _ => heapFlags) fun _ => .zeros

/-! ### uvmalloc -/

/-- What `uvmalloc` has added is removed when it runs out of pages. -/
theorem rollback_safe {lo hi : Nat} (hext : Zeroed K root lo hi h₀ h) (hle : lo ≤ hi)
    (hhi : hi ≤ 32768) (hnone : ∀ n, lo ≤ n → n < hi → lookup h₀ root n = none) :
    Safe K allowed (fun _ h' => SameMap K root h₀ h')
      (uvmdealloc root (pageAt hi) (pageAt lo)) h := by
  have hpages := npages_eq
  have hlonat : (pageAt lo).toNat = lo * 4096 := toNat_pageAt (by omega)
  have hhinat : (pageAt hi).toNat = hi * 4096 := toNat_pageAt (by omega)
  have hlopages : pagesOf (pageAt lo) = lo := pagesOf_pageAt (by omega)
  have hhipages : pagesOf (pageAt hi) = hi := pagesOf_pageAt (by omega)
  by_cases hlt : lo < hi
  · refine (uvmdealloc_safe hext.tree ?_ ?_ ?_).mono ?_
    · rw [lt_def]
      omega
    · omega
    · rw [hlopages, hhipages]
      exact hext.users
    · rintro _ h' ⟨_, hshrunk⟩
      rw [hlopages, hhipages] at hshrunk
      exact hext.undo hshrunk hnone
  · obtain rfl : lo = hi := by omega
    unfold uvmdealloc
    rw [if_pos (by rw [le_def])]
    exact Safe.ret (hext.undo (.refl hext.tree) hnone)

variable {sz : Addr}

theorem pageAt_lt_iff {n : Nat} (hn : n < 2 ^ 52) : pageAt n < sz ↔ n < pagesOf sz := by
  have hnat : (pageAt n).toNat = n * 4096 := toNat_pageAt hn
  rw [lt_def, hnat, pagesOf]
  omega

theorem uvmallocFrom_safe {newsz : Addr} {fuel lo n : Nat} (himage : Image K h₀ root lo)
    (hext : Zeroed K root lo n h₀ h) (hle : lo ≤ n) (hn : n ≤ pagesOf newsz)
    (hfuel : pagesOf newsz - n < fuel) :
    Safe K allowed (fun r h' => r = newsz ∧ Zeroed K root lo (pagesOf newsz) h₀ h' ∨
        r = 0 ∧ SameMap K root h₀ h')
      (uvmallocFrom root (pageAt lo) newsz fuel (pageAt n)) h := by
  induction fuel generalizing n h with
  | zero => omega
  | succ fuel ih =>
    have hpages := npages_eq
    have huser : USERPAGES = 67108862 := rfl
    have hcount : n ≤ 32768 := (himage.extend hle hext).pages_le
    have hnone : ∀ m, lo ≤ m → m ≤ n → lookup h₀ root m = none := fun m hm _ =>
      himage.unmapped m hm (by omega)
    unfold uvmallocFrom
    by_cases hmore : n < pagesOf newsz
    · rw [if_pos ((pageAt_lt_iff (by omega)).mpr hmore)]
      refine (uvmallocPage_safe hext.tree (by omega) ?_).andThen ?_
      · rw [hext.lookup n (by omega)]
        exact hnone n hle le_rfl
      · rintro ok h₁ (⟨rfl, hpage⟩ | ⟨rfl, hsame⟩)
        · rw [if_pos rfl, pageAt_succ]
          exact ih (hext.trans hpage hle (by omega)) (by omega) hmore (by omega)
        · have hext₁ : Zeroed K root lo n h₀ h₁ := hext.trans (.of_same hsame) hle le_rfl
          refine (rollback_safe hext₁ hle hcount fun m hm hm' => hnone m hm (by omega)).andThen ?_
          intro _ h₂ hback
          exact Safe.ret (.inr ⟨rfl, hback⟩)
    · rw [if_neg (mt (pageAt_lt_iff (by omega)).mp hmore)]
      obtain rfl : n = pagesOf newsz := by omega
      exact Safe.ret (.inl ⟨rfl, hext⟩)

/-- `uvmalloc` brings user memory from one size to a larger one, or leaves it as it is. -/
theorem uvmalloc_safe {oldsz newsz : Addr} (himage : Image K h root (pagesOf oldsz))
    (hle : oldsz ≤ newsz) :
    Safe K allowed (fun r h' => r = newsz ∧ Zeroed K root (pagesOf oldsz) (pagesOf newsz) h h' ∨
        r = 0 ∧ SameMap K root h h')
      (uvmalloc root oldsz newsz) h := by
  have hpages := npages_eq
  have hcount := himage.pages_le
  have hnat : oldsz.toNat ≤ newsz.toNat := hle
  have hmono : pagesOf oldsz ≤ pagesOf newsz := by
    unfold pagesOf
    omega
  have hfuel : pagesOf newsz < newsz.toNat / PGSIZE + 2 := by
    unfold pagesOf PGSIZE
    omega
  unfold uvmalloc
  rw [if_neg (by rw [lt_def]; omega), roundUp_pages (by omega)]
  exact uvmallocFrom_safe himage (.of_same (.refl himage.tree)) le_rfl hmono (by omega)

/-! ### growproc -/

/-- What `growproc` does, for an exact new size `sz` of the process. -/
inductive Grew (K : Kernel) (p : Proc) (sz : Int) (h : Heap) : Int × Proc → Heap → Prop where
  /-- More memory. -/
  | more {new : Addr} {h' : Heap} : new.toNat = sz → p.sz.toNat ≤ sz →
      Zeroed K p.pagetable (pagesOf p.sz) (pagesOf new) h h' →
      Grew K p sz h (0, { p with sz := new }) h'
  /-- Less memory, or as much as before. -/
  | less {new : Addr} {h' : Heap} : new.toNat = sz → sz ≤ p.sz.toNat →
      Shrunk K p.pagetable (pagesOf new) (pagesOf p.sz) h h' →
      Grew K p sz h (0, { p with sz := new }) h'
  /-- The pages ran out. -/
  | failed {h' : Heap} : p.sz.toNat ≤ sz → SameMap K p.pagetable h h' → Grew K p sz h (-1, p) h'
  /-- The new size would be below zero, and nothing happens. -/
  | ignored : sz < 0 → Grew K p sz h (0, p) h

theorem sz_lt (himage : Image K h root (pagesOf sz)) : sz.toNat ≤ 134217728 := by
  have hcount := himage.pages_le
  unfold pagesOf at hcount
  omega

theorem narrow (h : sz.toNat < 2 ^ 32) : (sz.setWidth 32).setWidth 64 = sz := by
  apply eq_of_toNat_eq
  rw [toNat_setWidth, toNat_setWidth]
  omega

theorem growproc_safe {p : Proc} (himage : Image K h p.pagetable (pagesOf p.sz)) (n : BitVec 32) :
    Safe K allowed (Grew K p (p.sz.toNat + n.toInt) h) (growproc p n) h := by
  have hsz := sz_lt himage
  have hsame : (p.sz.setWidth 32).setWidth 64 = p.sz := narrow (by omega)
  have hn : n.toInt = if 2 * n.toNat < 2 ^ 32 then (n.toNat : Int) else n.toNat - 2 ^ 32 :=
    toInt_eq_toNat_cond n
  have hwidth : (p.sz.setWidth 32).toNat = p.sz.toNat := by
    rw [toNat_setWidth]
    omega
  obtain ⟨new, hnew⟩ : ∃ new : Addr, new = (p.sz.setWidth 32 + n).setWidth 64 := ⟨_, rfl⟩
  have hnewnat : new.toNat = (p.sz.toNat + n.toNat) % 2 ^ 32 := by
    rw [hnew, toNat_setWidth, toNat_add, hwidth]
    omega
  have hnewsame : (new.setWidth 32).setWidth 64 = new := narrow (by omega)
  unfold growproc
  dsimp only
  rw [hsame, ← hnew]
  by_cases hpos : 0 < n.toInt
  · rw [if_pos hpos]
    have hle : p.sz ≤ new := by
      rw [le_def]
      split at hn <;> omega
    refine (uvmalloc_safe himage hle).andThen ?_
    rintro r h' (⟨hr, hext⟩ | ⟨rfl, hback⟩)
    · have hne : new.setWidth 32 ≠ 0 := by
        intro hzero
        rw [hzero] at hnewsame
        have hnewzero : new.toNat = 0 := by
          rw [← hnewsame]
          rfl
        split at hn <;> omega
      rw [hr, if_neg hne, hnewsame]
      refine Safe.ret (.more ?_ ?_ hext)
      · split at hn <;> omega
      · omega
    · rw [if_pos (by decide)]
      exact Safe.ret (.failed (by omega) hback)
  · rw [if_neg hpos]
    by_cases hneg : n.toInt < 0
    · rw [if_pos hneg]
      by_cases hbelow : (p.sz.toNat : Int) + n.toInt < 0
      · have hle : p.sz ≤ new := by
          rw [le_def]
          split at hn <;> omega
        unfold uvmdealloc
        rw [if_pos hle, Prog.pure_eq, Prog.ret_bind, hsame]
        exact Safe.ret (.ignored hbelow)
      · have hlt : new < p.sz := by
          rw [lt_def]
          split at hn <;> omega
        have hpages := npages_eq
        have hcount := himage.pages_le
        refine (uvmdealloc_safe himage.tree hlt (by omega) himage.users).andThen ?_
        rintro r h' ⟨rfl, hshrunk⟩
        rw [hnewsame]
        refine Safe.ret (.less ?_ (by omega) hshrunk)
        split at hn <;> omega
    · rw [if_neg hneg]
      exact Safe.ret (.less (by omega) (by omega) (.refl himage.tree))

theorem pagesOf_mono {sz sz' : Addr} (hle : sz.toNat ≤ sz'.toNat) : pagesOf sz ≤ pagesOf sz' := by
  unfold pagesOf
  omega

/-- The size of the process describes its memory afterwards too. -/
theorem Grew.image {p p' : Proc} {sz r : Int} (himage : Image K h p.pagetable (pagesOf p.sz))
    (hgrew : Grew K p sz h (r, p') h') : Image K h' p'.pagetable (pagesOf p'.sz) := by
  cases hgrew with
  | more hnew hle hext =>
    refine himage.extend (pagesOf_mono ?_) hext
    dsimp only
    omega
  | less hnew hle hshrunk =>
    refine himage.shrink (pagesOf_mono ?_) hshrunk
    dsimp only
    omega
  | failed _ hsame => exact himage.same hsame
  | ignored _ => exact himage

/-! ### Processes in memory -/

/-- The process `p` owns the heap `h`, which is in memory, and the free pages are others. -/
structure InMemory (K : Kernel) (p : Proc) (h : Heap) (s : Memory) : Prop where
  here : h.In s
  image : Image K h p.pagetable (pagesOf p.sz)
  free : ∃ free, FreePages K s free ∧ ∀ a ∈ free, h a = none

theorem run_growproc {p : Proc} {s : Memory} (hproc : InMemory K p h s) (n : BitVec 32) :
    ∃ r p' s' h', run (exec K) (growproc p n) s = .done (r, p') s' ∧
      Grew K p (p.sz.toNat + n.toInt) h (r, p') h' ∧ h'.In s' ∧
      ∃ free', FreePages K s' free' ∧ ∀ a ∈ free', h' a = none := by
  obtain ⟨free, hfree, hapart⟩ := hproc.free
  have hsafe : (spec K True fun _ => False).Safe _ (growproc p n) h := growproc_safe hproc.image n
  obtain ⟨⟨r, p'⟩, s', hrun, h', free', hgrew, hin, hfree', hapart', _⟩ :=
    (ends_run_of_safe hsafe hproc.here hfree hapart).exists_done
  exact ⟨r, p', s', h', hrun, hgrew, hin, free', hfree', hapart'⟩

/-- A successful `growproc` moves the break by exactly what was asked, if and only if that does not
take it below zero. -/
theorem growproc_exact_iff {p : Proc} {s : Memory} (hproc : InMemory K p h s) (n : BitVec 32) :
    (∃ r p' s', run (exec K) (growproc p n) s = .done (r, p') s' ∧
      (r = 0 ∧ (p'.sz.toNat : Int) = p.sz.toNat + n.toInt ∨ r = -1)) ↔
    0 ≤ (p.sz.toNat : Int) + n.toInt := by
  obtain ⟨r, p', s', h', hrun, hgrew, _⟩ := run_growproc hproc n
  constructor
  · rintro ⟨r₁, p₁, s₁, hrun₁, hexact⟩
    rw [hrun] at hrun₁
    injection hrun₁ with hpair _
    cases hpair
    by_contra hbelow
    cases hgrew with
    | more hnew hle _ => omega
    | less hnew hle _ => omega
    | failed hle _ => omega
    | ignored _ =>
      rcases hexact with ⟨_, hsz⟩ | hminus
      · omega
      · cases hminus
  · intro hnonneg
    refine ⟨r, p', s', hrun, ?_⟩
    cases hgrew with
    | more hnew _ _ => exact .inl ⟨rfl, hnew⟩
    | less hnew _ _ => exact .inl ⟨rfl, hnew⟩
    | failed _ _ => exact .inr rfl
    | ignored hbelow => omega

/-- A process without user memory, whose page table is empty. -/
def sampleProc : Proc := ⟨0x80030000#64, 0, 0x80031000#64⟩

/-- The page table of `sampleProc`, and a page for that of a child. -/
def sampleHeap : Heap := Heap.set (Heap.set (fun _ => none) 0x80040000#64 .zeros)
    0x80030000#64 .zeros

theorem sampleHeap_root : sampleHeap 0x80030000#64 = some .zeros := Heap.set_self

theorem sampleHeap_child : sampleHeap 0x80040000#64 = some .zeros := by
  rw [sampleHeap, Heap.set_of_ne (by decide)]
  exact Heap.set_self

theorem sampleHeap_of_ne {a : Addr} (hroot : a ≠ 0x80030000#64) (hchild : a ≠ 0x80040000#64) :
    sampleHeap a = none := by
  rw [sampleHeap, Heap.set_of_ne hroot, Heap.set_of_ne hchild]

theorem sampleHeap_empty (i : Fin 512) : child sampleHeap 0x80030000#64 i = none :=
  child_of_invalid sampleHeap_root (by rw [Page.pte_zeros]; rfl)

theorem sampleProc_inMemory : InMemory sampleKernel sampleProc sampleHeap sampleMemory where
  here a page hpage := by
    have howned : a = 0x80030000#64 ∨ a = 0x80040000#64 := by
      by_contra hother
      rw [sampleHeap_of_ne (fun h => hother (.inl h)) (fun h => hother (.inr h))] at hpage
      cases hpage
    rcases howned with rfl | rfl
    · rw [← Option.some.inj (sampleHeap_root.symm.trans hpage)]
      exact page_ofFree (by decide)
    · rw [← Option.some.inj (sampleHeap_child.symm.trans hpage)]
      exact page_ofFree (by decide)
  image := by
    refine Image.of_empty sampleHeap_empty ?_ (by decide)
    show sampleHeap 0x80030000#64 ≠ none
    rw [sampleHeap_root]
    simp
  free := by
    refine ⟨_, sampleMemory_free, ?_⟩
    intro a ha
    refine sampleHeap_of_ne ?_ ?_
    · rintro rfl
      exact absurd ha (by decide)
    · rintro rfl
      exact absurd ha (by decide)

/-- A process of one page. -/
theorem sampleProc_grown : ∃ p h s, InMemory sampleKernel p h s ∧ p.sz.toNat = 4096 := by
  obtain ⟨r, p, s, h, hrun, hgrew, hin, hfree⟩ := run_growproc sampleProc_inMemory 4096#32
  have hzero : (run (exec sampleKernel) (growproc sampleProc 4096#32) sampleMemory).result?.map
      Prod.fst = some 0 := by
    decide +kernel
  rw [hrun] at hzero
  have hr : r = 0 := Option.some.inj hzero
  refine ⟨p, h, s, ⟨hin, hgrew.image sampleProc_inMemory.image, hfree⟩, ?_⟩
  cases hgrew with
  | more hnew _ _ => exact Int.ofNat.inj hnew
  | less hnew _ _ => exact Int.ofNat.inj hnew
  | failed _ _ => cases hr
  | ignored hbelow => cases hbelow

/-- A process of one page gives its page back, or fails. -/
theorem growproc_exact_iff_sample : ∃ p h s, InMemory sampleKernel p h s ∧ p.sz.toNat = 4096 ∧
      ∃ r p' s', run (exec sampleKernel) (growproc p (-4096#32)) s = .done (r, p') s' ∧
        (r = 0 ∧ (p'.sz.toNat : Int) = p.sz.toNat + (-4096#32).toInt ∨ r = -1) := by
  obtain ⟨p, h, s, hproc, hsz⟩ := sampleProc_grown
  exact ⟨p, h, s, hproc, hsz, (growproc_exact_iff hproc (-4096#32)).mpr (by rw [hsz]; decide)⟩

/-- A process of one page asks for two pages less: the request is granted, and nothing changes. -/
theorem growproc_below_zero :
    ∃ (p : Proc) (h : Heap) (s s' : Memory), InMemory sampleKernel p h s ∧ p.sz.toNat = 4096 ∧
      run (exec sampleKernel) (growproc p (-8192#32)) s = .done (0, p) s' := by
  obtain ⟨p, h, s, hproc, hsz⟩ := sampleProc_grown
  obtain ⟨r, p', s', _, hrun, hgrew, _⟩ := run_growproc hproc (-8192#32)
  have hbelow : (p.sz.toNat : Int) + (-8192#32).toInt = -4096 := by
    rw [hsz]
    decide
  refine ⟨p, h, s, s', hproc, hsz, ?_⟩
  cases hgrew with
  | more hnew _ _ => omega
  | less hnew _ _ => omega
  | failed hle _ => omega
  | ignored _ => exact hrun

end Xv6.Vm
