import Xv6.Vm.Exec

/-!
# The break describes the mapped memory

The life of a process: it starts as an image that `exec` or `fork` built, calls `sbrk`, and between
calls its program and the rest of the system run. As long as `proc_pagetable` could map both trap
pages of every image, the pages of user memory are those below the break, `sbrk` and `exit` do not
panic, and `fork` panics only where an allocation failed.

`proc_pagetable` does not look at the results of `mappages`. If its allocations fail and the later
ones of `exec` do not, the new image has no trampoline, and `proc_freepagetable` panics on it.
-/

namespace Xv6.Vm

open Interleave Bytes Radix LocalSpec Option BitVec

variable {K : Kernel} {allowed : String → Prop} {h h' : Heap} {s s' : Memory} {p p' : Proc}

/-- The pages of a process: its tables, its user memory and its trap frame. -/
def Owned (s : Memory) (p : Proc) (a : Addr) : Prop :=
  Table s.heap p.pagetable a ∨ Frames s.heap p.pagetable 0 (pagesOf p.sz) a ∨ a = p.tf

/-- A process has an address space of its size, and none of its pages is free. -/
structure Alive (K : Kernel) (p : Proc) (s : Memory) : Prop where
  space : Space K s.heap p
  free : ∃ free, FreePages K s free ∧ ∀ a ∈ free, ¬ Owned s p a

theorem Alive.part (halive : Alive K p s) : Space K (s.part (Owned s p)) p := by
  refine halive.space.congr (fun a ha => part_of (.inl ha)) (fun a ha => ?_) ?_
  · rw [part_of (.inr (.inl ha))]
    exact (halive.space.user.frame ha).2.2
  · rw [part_of (.inr (.inr rfl))]
    exact halive.space.owned

variable {free : List Addr}

/-- A process whose memory is part of a heap that has no free pages. -/
theorem alive_of_heap (hspace : Space K h p) (hin : h.In s)
    (hfree : FreePages K s free) (hapart : ∀ a ∈ free, h a = none) : Alive K p s := by
  have hsame := agree_of_sub hspace.user.tree hin.sub
  refine ⟨hspace.mono hin.sub, free, hfree, ?_⟩
  intro a ha
  have hnone := hapart a ha
  rintro (htable | hframe | rfl)
  · rw [table_of_agree hsame] at htable
    exact hspace.user.tree.owned a htable hnone
  · rw [frames_of_agree hsame] at hframe
    exact (hspace.user.frame hframe).2.2 hnone
  · exact hspace.owned hnone

theorem Alive.ends {α : Type} {post : α → Heap → Prop} {prog : Code α} (halive : Alive K p s)
    (hsafe : Safe K allowed post prog (s.part (Owned s p))) :
    (run (exec K) prog s).Ends allowed fun r s' => ∃ h' free', post r h' ∧ h'.In s' ∧
      FreePages K s' free' ∧ ∀ a ∈ free', h' a = none := by
  obtain ⟨free, hfree, hunused⟩ := halive.free
  refine (ends_run_of_safe hsafe (part_in s _) hfree fun a ha => part_of_not (hunused a ha)).mono ?_
  rintro r s' ⟨h', free', hpost, hin, hfree', hapart, _⟩
  exact ⟨h', free', hpost, hin, hfree', hapart⟩

/-! ### sbrk -/

variable {sz r : Int}

theorem Grew.trap (hspace : UserSpace K h p.pagetable (pagesOf p.sz))
    (hgrew : Grew K p sz h (r, p') h') (n : Nat) (hn : USERPAGES ≤ n) :
    lookup h' p.pagetable n = lookup h p.pagetable n := by
  have hlt := hspace.pages_lt
  have hlt' := (hgrew.space hspace).pages_lt
  cases hgrew with
  | more _ _ hzeroed =>
    dsimp only at hlt'
    exact hzeroed.lookup n (by omega)
  | less _ _ hshrunk => rw [hshrunk.lookup, if_neg (by omega)]
  | failed _ hsame => exact hsame.lookup n
  | ignored _ => rfl

theorem Space.shrink {sz : Addr} (hspace : Space K h p) (hle : pagesOf sz ≤ pagesOf p.sz)
    (hshrunk : Shrunk K p.pagetable (pagesOf sz) (pagesOf p.sz) h h') :
    Space K h' { p with sz } := by
  obtain ⟨page, hpage⟩ := ne_none_iff_exists'.mp hspace.owned
  have hframe : ¬ Frames h p.pagetable (pagesOf sz) (pagesOf p.sz) p.tf := by
    rintro ⟨n, w, _, hn, hrest⟩
    exact hspace.notFrame ⟨n, w, Nat.zero_le n, hn, hrest⟩
  obtain ⟨hkept, hapart⟩ :=
    hshrunk.keeps hpage hspace.notTable hframe hspace.user.toImage.frame_not_table
  refine ⟨hspace.user.shrink hle hshrunk, hspace.freeable, by simp [hkept], hapart, ?_⟩
  rintro ⟨n, w, hlo, hn, hw, hpa⟩
  dsimp only at hn hw hpa
  rw [hshrunk.lookup, if_neg (by omega)] at hw
  exact hspace.notFrame ⟨n, w, hlo, by omega, hw, hpa⟩

theorem Grew.process (hspace : Space K h p) (hgrew : Grew K p sz h (r, p') h') : Space K h' p' := by
  cases hgrew with
  | more hnew hle hzeroed => exact hspace.extend (pagesOf_mono (by omega)) hzeroed
  | less hnew hle hshrunk => exact hspace.shrink (pagesOf_mono (by omega)) hshrunk
  | failed _ hsame => exact hspace.same hsame
  | ignored _ => exact hspace

variable {m : Nat}

theorem UserSpace.lookup_iff {root : Addr} {pages : Nat} (hspace : UserSpace K h root pages)
    (hm : m < USERPAGES) : lookup h root m ≠ none ↔ m < pages := by
  constructor
  · intro hsome
    by_contra hhigh
    exact hsome (hspace.unmapped m (by omega) hm)
  · intro hlt
    obtain ⟨w, page, huser⟩ := hspace.mapped m hlt
    rw [huser.lookup]
    simp

theorem Grew.zero (hgrew : Grew K p sz h (r, p') h') {w : Pte}
    (hnone : lookup h p.pagetable m = none) (hw : lookup h' p.pagetable m = some w) :
    h' (PTE2PA w) = some .zeros := by
  have hchanged : lookup h' p.pagetable m ≠ lookup h p.pagetable m := by
    rw [hnone, hw]
    simp
  cases hgrew with
  | more _ _ hzeroed =>
    have hrange := not_not.mp (mt (hzeroed.lookup m) hchanged)
    obtain ⟨w', huser, _⟩ := hzeroed.added m hrange.1 hrange.2
    rw [some.inj (hw.symm.trans huser.lookup)]
    exact huser.page
  | less _ _ hshrunk =>
    rw [hshrunk.lookup, hnone, ite_self] at hw
    cases hw
  | failed _ hsame => exact absurd (hsame.lookup m) hchanged
  | ignored _ => exact absurd rfl hchanged

theorem Grew.kept (hspace : UserSpace K h p.pagetable (pagesOf p.sz))
    (hgrew : Grew K p sz h (r, p') h') {w w' : Pte} (hm : m < USERPAGES)
    (hw : lookup h p.pagetable m = some w) (hw' : lookup h' p.pagetable m = some w') :
    w' = w ∧ h' (PTE2PA w) = h (PTE2PA w) := by
  have hlt : m < pagesOf p.sz := (hspace.lookup_iff hm).mp (by simp [hw])
  obtain ⟨v, page, huser⟩ := hspace.mapped m hlt
  obtain rfl : v = w := some.inj (huser.lookup.symm.trans hw)
  suffices huser' : UserPage K h' p.pagetable m v page from
    ⟨some.inj (hw'.symm.trans huser'.lookup), huser'.page.trans huser.page.symm⟩
  cases hgrew with
  | more _ _ hzeroed =>
    obtain ⟨hkept, hapart⟩ := hzeroed.keeps huser.page huser.apart
    exact huser.congr (hzeroed.lookup m (by omega)) hkept hapart
  | @less new _ hnew hle hshrunk =>
    rw [hshrunk.lookup] at hw'
    split at hw'
    · cases hw'
    next hrange => exact huser.shrink hspace.toImage hshrunk (by omega) (pagesOf_mono (by omega))
  | failed _ hsame =>
    obtain ⟨hkept, hapart⟩ := hsame.grown.keeps huser.page huser.apart
    exact huser.congr (hsame.lookup m) hkept hapart
  | ignored _ => exact huser

/-- What `sbrk` does: the pages it adds read as zeros, the pages that stay are the pages they were,
and if it returns -1, the size and the mapped pages are what they were. -/
structure SbrkEffect (K : Kernel) (s s' : Memory) (p p' : Proc) (v : BitVec 64) : Prop where
  table : p'.pagetable = p.pagetable
  zero : ∀ m w, m < USERPAGES → s.entry K p.pagetable (pageAt m) = none →
    s'.entry K p.pagetable (pageAt m) = some w → s'.page (PTE2PA w) = .zeros
  kept : ∀ m w w', m < USERPAGES → s.entry K p.pagetable (pageAt m) = some w →
    s'.entry K p.pagetable (pageAt m) = some w' → w' = w ∧ s'.page (PTE2PA w) = s.page (PTE2PA w)
  failed : v = -1 → p'.sz = p.sz ∧ ∀ m, m < USERPAGES →
    s'.entry K p.pagetable (pageAt m) = s.entry K p.pagetable (pageAt m)

theorem sysSbrk_safe (hspace : UserSpace K h p.pagetable (pagesOf p.sz)) (n : BitVec 32) :
    Safe K allowed (fun result h' => ∃ r, Grew K p (p.sz.toNat + n.toInt) h (r, result.2) h' ∧
        (result.1 = -1 → r = -1))
      (sysSbrk p n) h := by
  have hsz := sz_lt hspace.toImage
  refine (growproc_safe hspace.toImage n).andThen ?_
  rintro ⟨r, p'⟩ h' hgrew
  dsimp only
  by_cases hneg : r < 0
  · rw [if_pos hneg]
    refine Safe.ret ⟨r, hgrew, fun _ => ?_⟩
    cases hgrew with
    | more _ _ _ => cases hneg
    | less _ _ _ => cases hneg
    | failed _ _ => rfl
    | ignored _ => cases hneg
  · rw [if_neg hneg]
    refine Safe.ret ⟨r, hgrew, ?_⟩
    intro hminus
    -- The old break is a small number, and no sign is extended.
    have hnat := congrArg BitVec.toNat hminus
    have hnarrow : (p.sz.setWidth 32).toNat = p.sz.toNat := by
      rw [toNat_setWidth]
      omega
    have hmsb : (p.sz.setWidth 32).msb = false := by
      rw [msb_eq_false_iff_two_mul_lt, hnarrow]
      omega
    rw [signExtend_eq_setWidth_of_msb_false hmsb, toNat_setWidth, hnarrow] at hnat
    have hone : (-1 : BitVec 64).toNat = 18446744073709551615 := rfl
    omega

/-- The memory of a process, seen through the entries of its page table. -/
theorem entry_of_heap {root : Addr} (htree : Tree h root) (hin : h.In s)
    (hm : m < USERPAGES) : s.entry K root (pageAt m) = lookup h root m := by
  have hlimit : USERPAGES < NPAGES := by decide
  rw [entry_pageAt (tree_heap htree hin) (by omega), lookup_heap htree hin]

theorem Alive.sbrk (halive : Alive K p s) (n : BitVec 32) :
    ∃ v p' s', run (exec K) (sysSbrk p n) s = .done (v, p') s' ∧ SbrkEffect K s s' p p' v ∧
      Alive K p' s' ∧
      ∀ m, USERPAGES ≤ m → lookup s'.heap p'.pagetable m = lookup s.heap p.pagetable m := by
  have hpart := halive.part
  have hspace := hpart.user
  have hsafe : (spec K True fun _ => False).Safe _ (sysSbrk p n) (s.part (Owned s p)) :=
    sysSbrk_safe hspace n
  obtain ⟨⟨v, p'⟩, s', hrun, h', free', ⟨r, hgrew, hminus⟩, hin, hfree, hapart⟩ :=
    (halive.ends hsafe).exists_done
  have htable : p'.pagetable = p.pagetable ∧ p'.tf = p.tf := by
    cases hgrew <;> exact ⟨rfl, rfl⟩
  have hspace' : UserSpace K h' p.pagetable (pagesOf p'.sz) := by
    have huser := hgrew.space hspace
    rwa [htable.1] at huser
  have hentry : ∀ m, m < USERPAGES → s.entry K p.pagetable (pageAt m) =
      lookup (s.part (Owned s p)) p.pagetable m := fun m => entry_of_heap hspace.tree (part_in s _)
  have hentry' : ∀ m, m < USERPAGES → s'.entry K p.pagetable (pageAt m) = lookup h' p.pagetable m :=
    fun m => entry_of_heap hspace'.tree hin
  refine ⟨v, p', s', hrun, ⟨htable.1, ?_, ?_, ?_⟩, ?_, ?_⟩
  · intro m w hm hnone hw
    rw [hentry m hm] at hnone
    rw [hentry' m hm] at hw
    exact hin _ _ (hgrew.zero hnone hw)
  · intro m w w' hm hw hw'
    rw [hentry m hm] at hw
    rw [hentry' m hm] at hw'
    obtain ⟨hsame, hkept⟩ := hgrew.kept hspace hm hw hw'
    have hlt : m < pagesOf p.sz := (hspace.lookup_iff hm).mp (by simp [hw])
    obtain ⟨page, hpage⟩ := ne_none_iff_exists'.mp
      (hspace.frame ⟨m, w, Nat.zero_le m, hlt, hw, rfl⟩).2.2
    refine ⟨hsame, ?_⟩
    rw [hin _ page (by rw [hkept, hpage]), part_in s _ _ page hpage]
  · intro hv
    have hr := hminus hv
    subst hr
    cases hgrew with
    | failed _ hsame =>
      refine ⟨rfl, fun m hm => ?_⟩
      rw [hentry m hm, hentry' m hm, hsame.lookup]
  · exact alive_of_heap (hgrew.process hpart) hin hfree hapart
  · intro m hm
    rw [htable.1, lookup_heap hspace'.tree hin, hgrew.trap hspace m hm,
      ← lookup_heap hspace.tree (part_in s _)]

/-! ### The life of a process -/

/-- A process from the image that `exec` or `fork` built through calls of `sbrk`. `start` is a
process that calls them, as the first one. Between calls, user code may store into the pages of user
memory, and pages come and go that do not belong to the process. Each image has both trap pages. -/
inductive Life (K : Kernel) : Proc → Memory → Prop where
  | start {p : Proc} {s : Memory} : Alive K p s → TrapMapped s.heap p.pagetable → Life K p s
  | fork {p np : Proc} {s s' : Memory} : Life K p s →
      run (exec K) (fork K p) s = .done (some np) s' → TrapMapped s'.heap np.pagetable →
        Life K np s'
  | exec {p p' : Proc} {s s' : Memory} {file : Executable} {argv : List (List UInt8)} : Life K p s →
      run (Vm.exec K) (execImage K p file argv) s = .done (some p') s' →
      TrapMapped s'.heap p'.pagetable → Life K p' s'
  | sbrk {p p' : Proc} {s s' : Memory} {n : BitVec 32} {v : BitVec 64} : Life K p s →
      run (exec K) (sysSbrk p n) s = .done (v, p') s' → Life K p' s'
  | between {p : Proc} {s s' : Memory} {free : List Addr} : Life K p s →
      (∀ a, Table s.heap p.pagetable a → s'.page a = s.page a) → FreePages K s' free →
      (∀ a ∈ free, ¬ Owned s p a) → Life K p s'

theorem Life.alive (hlife : Life K p s) : Alive K p s ∧ TrapMapped s.heap p.pagetable := by
  induction hlife with
  | start halive htrap => exact ⟨halive, htrap⟩
  | @fork p np s s' hlife hrun htrap ih =>
    have hsafe : (spec K True fun _ => True).Safe _ (Vm.fork K p) (s.part (Owned s p)) :=
      fork_safe ih.1.part trivial trivial trivial
    have hends := ih.1.ends hsafe
    rw [hrun] at hends
    obtain ⟨h', free', hpost, hin, hfree, hapart⟩ := hends
    exact ⟨alive_of_heap (hpost np rfl).2 hin hfree hapart, htrap⟩
  | @exec p p' s s' file argv hlife hrun htrap ih =>
    have hsafe : (spec K True fun _ => True).Safe _ (execImage K p file argv)
      (s.part (Owned s p)) :=
      execImage_safe ih.1.part fun _ => trivial
    have hends := ih.1.ends hsafe
    rw [hrun] at hends
    obtain ⟨h', free', hpost, hin, hfree, hapart⟩ := hends
    exact ⟨alive_of_heap (hpost p' rfl) hin hfree hapart, htrap⟩
  | @sbrk p p' s s' n v hlife hrun ih =>
    obtain ⟨v', p'', s'', hrun', _, halive, htop⟩ := ih.1.sbrk n
    rw [hrun] at hrun'
    injection hrun' with hpair hstate
    cases hpair
    subst hstate
    refine ⟨halive, ?_, ?_⟩
    · rw [htop _ (by decide)]
      exact ih.2.1
    · rw [htop _ (by decide)]
      exact ih.2.2
  | @between p s s' free hlife hkept hfree hapart ih =>
    have hsame : ∀ a, Table s.heap p.pagetable a → s'.heap a = s.heap a := fun a ha =>
      congrArg some (hkept a ha)
    refine ⟨⟨ih.1.space.congr hsame (fun a _ => some_ne_none _) (some_ne_none _),
      free, hfree, ?_⟩, ih.2.congr (lookup_of_agree hsame)⟩
    intro a ha
    rw [Owned, table_of_agree hsame, frames_of_agree hsame]
    exact hapart a ha

/-- The messages of panics that `fork` can end in where pages run out. -/
def forkMessages : List String :=
  ["uvmcreate: out of memory", "uvmunmap: walk", "uvmunmap: not mapped"]

/-- In the life of a process whose images all have their trap pages, the mapped pages below the trap
frame are those below the break; `sbrk` returns, with new pages of zeros, the old pages as they
were, and nothing changed where it returns -1; `fork` does not panic in `uvmcopy` or in `freewalk`;
and when the process is freed after it exits, nothing panics. -/
theorem break_describes_memory (hlife : Life K p s) :
    (∀ n, n < USERPAGES → (s.entry K p.pagetable (pageAt n) ≠ none ↔
      (pageAt n).toNat < (PGROUNDUP p.sz).toNat)) ∧
    (∀ n : BitVec 32, ∃ v p' s', run (exec K) (sysSbrk p n) s = .done (v, p') s' ∧
      SbrkEffect K s s' p p' v) ∧
    (run (exec K) (fork K p) s).Ends (· ∈ forkMessages) (fun _ _ => True) ∧
    ∃ s', run (exec K) (freeproc p) s = .done () s' := by
  obtain ⟨halive, htrap⟩ := hlife.alive
  have hspace := halive.space.user
  refine ⟨?_, ?_, ?_, ?_⟩
  · intro n hn
    have hpages : NPAGES = 67108864 := rfl
    have husers : USERPAGES = 67108862 := rfl
    have hsize : PGSIZE = 4096 := rfl
    have hlt := hspace.pages_lt
    rw [entry_of_heap hspace.tree s.heap_in hn, hspace.lookup_iff hn, roundUp_pages (by omega),
      toNat_pageAt (by omega), toNat_pageAt (by omega), hsize]
    omega
  · intro n
    obtain ⟨v, p', s', hrun, heffect, _⟩ := halive.sbrk n
    exact ⟨v, p', s', hrun, heffect⟩
  · have hsafe : (spec K True (· ∈ forkMessages)).Safe _ (fork K p) (s.part (Owned s p)) :=
      fork_safe halive.part (by decide) (by decide) (by decide)
    exact (halive.ends hsafe).mono fun _ _ _ => trivial
  · have hsame : ∀ a, Table s.heap p.pagetable a → s.part (Owned s p) a = s.heap a := fun a ha =>
      part_of (.inl ha)
    have htrap' : TrapMapped (s.part (Owned s p)) p.pagetable := htrap.congr (lookup_of_agree hsame)
    have hsafe : (spec K True fun _ => False).Safe _ (freeproc p) (s.part (Owned s p)) :=
      freeproc_safe halive.part (.inl htrap')
    obtain ⟨_, s', hrun, _⟩ := (halive.ends hsafe).exists_done
    exact ⟨s', hrun⟩

/-! ### An image without trampoline -/

/-- If `exec` builds an image without trampoline, it still succeeds, and then `freeproc` panics. -/
theorem freeproc_panics_of_build {file : Executable} {argv : List (List UInt8)} {root sz sp : Addr}
    {s₁ : Memory} (hlife : Life K p s)
    (hbuild : run (exec K) (execBuild K p.tf file argv) s = .done (.ok (root, sz, sp)) s₁)
    (hnone : s₁.entry K root TRAMPOLINE = none) :
    ∃ p' s' message, run (exec K) (execImage K p file argv) s = .done (some p') s' ∧
      run (exec K) (freeproc p') s' = .panic message ∧
      (message = "uvmunmap: walk" ∨ message = "uvmunmap: not mapped") := by
  obtain ⟨halive, htrap⟩ := hlife.alive
  have hsame : ∀ a, Table s.heap p.pagetable a → s.part (Owned s p) a = s.heap a := fun a ha =>
    part_of (.inl ha)
  -- The new image beside the old one.
  have hsafe : (spec K True fun _ => True).Safe _ (execBuild K p.tf file argv) noPages :=
    execBuild_safe trivial trivial
  have hframed := safe_frame hsafe (noPages_disjoint (h := s.part (Owned s p)))
  have hends := halive.ends hframed
  rw [hbuild] at hends
  obtain ⟨_, free₁, ⟨h₁, hbuilt, hdisjoint, rfl⟩, hin₁, hfree₁, hapart₁⟩ := hends
  -- The old image is freed.
  have hcommit : (spec K True fun _ => False).Safe _ (execCommit p file.entry root sz sp)
      (h₁.union (s.part (Owned s p))) :=
    execCommit_safe hbuilt halive.part hdisjoint (.inl (htrap.congr (lookup_of_agree hsame)))
  obtain ⟨_, s', hrun, h', free', ⟨rfl, hsub, hspace⟩, hin, hfree, hapart, _⟩ :=
    (ends_run_of_safe hcommit hin₁ hfree₁ hapart₁).exists_done
  -- The entry for the trampoline is still missing.
  have hsub₁ : h₁.Sub s₁.heap := fun a page ha => hin₁.sub a page (Heap.union_of_left ha)
  have hsame₁ := agree_of_sub hbuilt.tree hsub₁
  have htrampoline : TRAMPOLINE = pageAt trampolinePage := by decide
  have hmissing : lookup h' root trampolinePage = none := by
    rw [lookup_of_agree (agree_of_sub hbuilt.tree hsub), ← lookup_of_agree hsame₁,
      ← entry_pageAt (hbuilt.tree.of_agree hsame₁) (by decide), ← htrampoline, hnone]
  have hpanic := ends_run_of_safe (freeproc_stops hspace hmissing) hin hfree hapart
  have himage : run (exec K) (execImage K p file argv) s =
      .done (some { p with pagetable := root, sz := sz }) s' := by
    rwa [execImage, run_bind, hbuild]
  obtain ⟨message, hfinal, hmessage⟩ := (hpanic.mono fun _ _ hpost => by
    obtain ⟨_, _, hfalse, _⟩ := hpost
    exact hfalse).exists_panic
  exact ⟨_, s', message, himage, hfinal, hmessage⟩

/-- A file without segments. -/
def sampleFile : Executable := ⟨0, [], fun _ _ => ⟨true, 0, fun _ => 0⟩⟩

/-- Map the trap pages, and return the results of `mappages`. -/
def mapTraps (K : Kernel) (root tf : Addr) : Code (Int × Int) := do
  let r ← mappages root TRAMPOLINE 4096#64 K.trampoline (PTE_R ||| PTE_X)
  let r' ← mappages root TRAPFRAME 4096#64 tf (PTE_R ||| PTE_W)
  pure (r, r')

theorem life_of_mapTraps {root tf : Addr} {page : Page}
    (hempty : ∀ i, child h root i = none) (hroot : Freeable K root) (howned : h root ≠ none)
    (htf : Freeable K tf) (hpage : h tf = some page) (hne : tf ≠ root) (hin : h.In s)
    (hfree : FreePages K s free) (hunused : ∀ a ∈ free, h a = none)
    (hrun : run (exec K) (mapTraps K root tf) s = .done (0, 0) s') : Life K ⟨root, 0, tf⟩ s' := by
  have hnone := lookup_of_empty hempty
  have hspace : UserSpace K h root 0 := by
    refine ⟨Image.of_empty hempty howned hroot, ?_⟩
    intro n w _ hw
    rw [hnone] at hw
    cases hw
  have hapart : ¬ Table h root tf := by
    rwa [table_of_empty hempty]
  have hsafe : (spec K True fun _ => False).Safe
      (fun r h' => r = (0, 0) → Space K h' ⟨root, 0, tf⟩ ∧ TrapMapped h' root)
        (mapTraps K root tf) h := by
    refine safe_mapTraps hspace hnone ?_
    intro r r' h' hspace' hgrown htrap
    refine Safe.ret ?_
    intro hr
    obtain ⟨hr, hr'⟩ := Prod.mk.inj hr
    obtain ⟨hkept, htable⟩ := hgrown.keeps hpage hapart
    have hsize : pagesOf 0 = 0 := rfl
    have huser : UserSpace K h' root (pagesOf 0) := hspace'
    refine ⟨⟨huser, htf, by simp [hkept], htable, ?_⟩, htrap hr hr'⟩
    rintro ⟨n, w, _, hn, _⟩
    dsimp only at hn
    omega
  have hends := ends_run_of_safe hsafe hin hfree hunused
  rw [hrun] at hends
  obtain ⟨h', free', hpost, hin', hfree', hapart', _⟩ := hends
  obtain ⟨hspace', htrap⟩ := hpost rfl
  exact .start (alive_of_heap hspace' hin' hfree' hapart')
    (htrap.congr (lookup_heap hspace'.user.tree hin'))

/-- A process gets its trap pages and a page of user memory. Then `exec` builds an image for it,
while its second allocation finds no page. It returns whether the image has a trampoline. -/
def sampleBuild : Outcome Memory Bool :=
  (run (exec sampleKernel) (mapTraps sampleKernel 0x80030000#64 0x80040000#64) sampleMemory).andThen
    fun r s =>
      if r = (0, 0) then
        (run (exec sampleKernel) (sysSbrk ⟨0x80030000#64, 0, 0x80040000#64⟩ 4096#32) s).andThen
          fun r s =>
            (run (exec sampleKernel) (execBuild sampleKernel r.2.tf sampleFile [])
              { s with short := [false, true] }).andThen fun r s =>
              match r with
              | .error _ => .blocked
              | .ok (root, _, _) => .done (s.entry sampleKernel root TRAMPOLINE).isSome s
      else .blocked

theorem life_of_sampleTraps (hrun : run (exec sampleKernel)
      (mapTraps sampleKernel 0x80030000#64 0x80040000#64) sampleMemory = .done (0, 0) s) :
    Life sampleKernel ⟨0x80030000#64, 0, 0x80040000#64⟩ s := by
  obtain ⟨free, hfree, hunused⟩ := sampleProc_inMemory.free
  exact life_of_mapTraps sampleHeap_empty (by decide) (by simp [sampleHeap_root]) (by decide)
    sampleHeap_child (by decide) sampleProc_inMemory.here hfree hunused hrun

theorem sampleBuild_life : ∃ p s, Life sampleKernel p s ∧ ∃ root sz sp s₁,
    run (exec sampleKernel) (execBuild sampleKernel p.tf sampleFile []) s =
      .done (.ok (root, sz, sp)) s₁ ∧ s₁.entry sampleKernel root TRAMPOLINE = none := by
  have heval : sampleBuild.result? = some false := by decide +kernel
  obtain ⟨r, s₁, hrun₁, heval⟩ := Outcome.exists_of_andThen heval
  split at heval
  next hr =>
    subst hr
    obtain ⟨⟨v, p⟩, s₂, hrun₂, heval⟩ := Outcome.exists_of_andThen heval
    obtain ⟨r, s₃, hrun₃, heval⟩ := Outcome.exists_of_andThen heval
    have hlife : Life sampleKernel p s₂ := .sbrk (life_of_sampleTraps hrun₁) hrun₂
    obtain ⟨free, hfree, hapart⟩ := hlife.alive.1.free
    have hshort : Life sampleKernel p { s₂ with short := [false, true] } :=
      .between hlife (fun _ _ => rfl) ⟨hfree.1, hfree.2, hfree.3⟩ hapart
    refine ⟨p, _, hshort, ?_⟩
    match r with
    | .error _ => simp [Outcome.result?] at heval
    | .ok (root, sz, sp) =>
      have hnone := isSome_eq_false_iff.mp (some.inj heval)
      exact ⟨root, sz, sp, s₃, hrun₃, isNone_iff_eq_none.mp hnone⟩
  next => simp [Outcome.result?] at heval

/-- A process of one page is freed. -/
theorem break_describes_memory_sample :
    ∃ p s, Life sampleKernel p s ∧ ∃ s', run (exec sampleKernel) (freeproc p) s = .done () s' := by
  obtain ⟨p, s, hlife, _⟩ := sampleBuild_life
  exact ⟨p, s, hlife, (break_describes_memory hlife).2.2.2⟩

/-- One failing allocation in `proc_pagetable`, while `exec` builds an image: `exec` succeeds, and
when the process is freed, `uvmunmap` panics. -/
theorem exec_without_trampoline_panics :
    ∃ (p p' : Proc) (s s' : Memory) (message : String), Life sampleKernel p s ∧
      run (exec sampleKernel) (execImage sampleKernel p sampleFile []) s = .done (some p') s' ∧
      run (exec sampleKernel) (freeproc p') s' = .panic message ∧
      (message = "uvmunmap: walk" ∨ message = "uvmunmap: not mapped") := by
  obtain ⟨p, s, hlife, root, sz, sp, s₁, hbuild, hnone⟩ := sampleBuild_life
  obtain ⟨p', s', message, himage, hpanic, hmessage⟩ := freeproc_panics_of_build hlife hbuild hnone
  exact ⟨p, p', s, s', message, hlife, himage, hpanic, hmessage⟩

end Xv6.Vm
