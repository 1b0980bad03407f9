import Xv6.Vm.FiniteMap

/-!
# The page allocator and its clients

`kinit` frees the pages between the kernel and the end of memory. For this code they are a heap that
it owns and gives away page by page. Afterwards the clients take pages, give pages back and write
what they like to those they hold. The free list is linked through the free pages, so all of this
has to leave their first words alone; `Agrees` says that it does.
-/

namespace Xv6.Vm

open Interleave BitVec

/-! ### The code -/

/-- The loop of `freerange` from `p` on. -/
def freerangeFrom (paEnd : Addr) : (fuel : Nat) → (p : Addr) → Code Unit
  | 0, _ => pure ()
  | fuel + 1, p =>
    if p + 4096#64 ≤ paEnd then do
      kfree p
      freerangeFrom paEnd fuel (p + 4096#64)
    else pure ()

attribute [irreducible] freerangeFrom

/-- Free the pages of a range. Every page but the first ends a page further below `paEnd`. -/
def freerange (paStart paEnd : Addr) : Code Unit :=
  freerangeFrom paEnd (paEnd.toNat / PGSIZE + 1) (PGROUNDUP paStart)

def kinit (K : Kernel) : Code Unit := freerange K.kend PHYSTOP

/-- The memory, and the pages handed out with what their holders have left in them, after `kinit`
and any calls. A page is freed only by its holder, and a holder writes to its pages at any time. -/
inductive Served (K : Kernel) (start : Memory) : Memory → Heap → Prop
  | kinit {s : Memory} (hrun : run (exec K) (kinit K) start = .done () s) :
    Served K start s fun _ => none
  | kalloc {s : Memory} {held : Heap} (h : Served K start s held) :
    Served K start s.take.2
      (if s.take.1 = 0 then held else held.set s.take.1 (s.take.2.page s.take.1))
  | kfree {s s' : Memory} {held : Heap} {pa : Addr} (h : Served K start s held)
      (hheld : held pa ≠ none) (hrun : run (exec K) (kfree pa) s = .done () s') :
    Served K start s' (held.erase pa)
  | write {s : Memory} {held : Heap} {pa : Addr} (h : Served K start s held)
      (hheld : held pa ≠ none) (page : Page) : Served K start (s.setPage pa page) (held.set pa page)

/-! ### The pages of the range -/

/-- `a` is a whole page of the range from `first` to `last`. -/
def Whole (first last a : Addr) : Prop :=
  a.toNat % PGSIZE = 0 ∧ first ≤ a ∧ a.toNat + PGSIZE ≤ last.toNat

/-- The pages between the kernel and the end of memory. -/
abbrev Managed (K : Kernel) : Addr → Prop := Whole (PGROUNDUP K.kend) PHYSTOP

variable {K : Kernel} {h held : Heap} {s start : Memory} {a last : Addr}

theorem part_ne_none {p : Addr → Prop} (a : Addr) : start.part p a ≠ none ↔ p a := by
  by_cases ha : p a
  · simp [part_of ha, ha, Memory.heap]
  · simp [part_of_not ha, ha]

variable {allowed : String → Prop}

/-- The loop gives away the pages from `p` on, which are all that it owns. -/
theorem freerangeFrom_safe {fuel : Nat} {p : Addr}
    (hfuel : last.toNat ≤ p.toNat + fuel * 4096) (hp : p.toNat % 4096 = 0)
    (hroom : p.toNat + 4096 < 2 ^ 64) (hlast : last.toNat + 4096 < 2 ^ 64)
    (hfree : ∀ a, Whole p last a → Freeable K a) (hown : ∀ a, h a ≠ none ↔ Whole p last a) :
    Safe K allowed (fun _ h' => h' = fun _ => none) (freerangeFrom last fuel p) h := by
  -- no page is left once the next one would end after the range
  have hdone : ∀ {p : Addr} {h : Heap}, (∀ a, h a ≠ none ↔ Whole p last a) →
      last.toNat < p.toNat + 4096 → h = fun _ => none := by
    intro p h hown hpast
    funext a
    by_contra hne
    obtain ⟨-, hfirst, hend⟩ := (hown a).mp hne
    rw [le_def] at hfirst
    exact absurd hend (by show ¬ a.toNat + 4096 ≤ _; omega)
  induction fuel generalizing p h with
  | zero =>
    rw [freerangeFrom]
    exact hdone hown (by omega)
  | succ fuel ih =>
    have hsum : (p + 4096#64).toNat = p.toNat + 4096 := by
      rw [toNat_add, show (4096#64).toNat = 4096 from rfl]
      omega
    by_cases hnext : p + 4096#64 ≤ last
    · rw [freerangeFrom, if_pos hnext]
      rw [BitVec.le_def, hsum] at hnext
      have hwhole : Whole p last p := ⟨hp, BitVec.le_refl p, hnext⟩
      have hrest : ∀ a, Whole (p + 4096#64) last a ↔ Whole p last a ∧ a ≠ p := by
        intro a
        show a.toNat % 4096 = 0 ∧ _ ∧ _ ↔ (a.toNat % 4096 = 0 ∧ _ ∧ _) ∧ _
        rw [le_def, le_def, ne_eq, ← toNat_inj]
        omega
      refine safe_kfree (fun _ => (hown p).mpr hwhole) (hfree p hwhole) ?_
      refine ih (by omega) (by omega) (by omega) (fun a ha => hfree a ((hrest a).mp ha).1)
        fun a => ?_
      rw [hrest, ← hown]
      rcases eq_or_ne a p with rfl | hne
      · simp
      · simp [Heap.erase_of_ne hne, hne]
    · rw [freerangeFrom, if_neg hnext]
      rw [le_def, hsum] at hnext
      exact hdone hown (by omega)

theorem freerange_safe {paStart : Addr} (hle : paStart ≤ last)
    (hlast : last.toNat + 8192 < 2 ^ 64) (hfree : ∀ a, Whole (PGROUNDUP paStart) last a →
      Freeable K a) :
    Safe K allowed (fun _ h' => h' = fun _ => none) (freerange paStart last)
      (start.part (Whole (PGROUNDUP paStart) last)) := by
  rw [le_def] at hle
  have hfirst : (PGROUNDUP paStart).toNat = (paStart.toNat + 4095) / 4096 * 4096 :=
    toNat_roundUp (by omega)
  refine freerangeFrom_safe ?_ (by omega) (by omega) (by omega) hfree part_ne_none
  show last.toNat ≤ _ + (last.toNat / 4096 + 1) * 4096
  omega

theorem freeable_of_managed (h : Managed K a) (hend : K.kend ≤ PHYSTOP) : Freeable K a := by
  obtain ⟨haligned, hfirst, hlast⟩ := h
  have hstop : PHYSTOP.toNat = 0x88000000 := rfl
  have hsize : PGSIZE = 4096 := rfl
  rw [le_def] at hend hfirst
  rw [toNat_roundUp (by omega)] at hfirst
  refine ⟨haligned, ?_, ?_⟩
  · rw [le_def]
    omega
  · rw [lt_def]
    omega

theorem kinit_ends (hend : K.kend ≤ PHYSTOP) (hempty : start.freelist = 0) :
    (run (exec K) (kinit K) start).Ends (fun _ => False) fun _ s =>
      Agrees K (Managed K) start (fun _ => none) s := by
  have hsafe : (spec K True fun _ => False).Safe _ (kinit K) (start.part _) :=
    freerange_safe hend (by decide) fun a ha => freeable_of_managed ha hend
  have hfree : FreePages K start [] := ⟨hempty, .nil, nofun⟩
  refine (ends_run_of_safe hsafe (part_in start _) hfree nofun).mono ?_
  rintro _ s ⟨_, free, rfl, -, hfree, -, hall, hframe⟩
  have hpages : ∀ a, start.part (Managed K) a ≠ none ↔ Managed K a := part_ne_none
  refine .intro free nofun hfree (fun _ _ => rfl) (fun a => ?_) fun a ha => ?_
  · rw [hall, hpages]
    simp
  · exact hframe a List.not_mem_nil (part_of_not ha)

/-! ### Every history -/

theorem Served.agrees (h : Served K start s held) (hend : K.kend ≤ PHYSTOP)
    (hempty : start.freelist = 0) : Agrees K (Managed K) start held s := by
  have hfreeable : ∀ {s held pa}, Agrees K (Managed K) start held s →
      held pa ≠ none → Freeable K pa := by
    intro s held pa hagrees hheld
    obtain ⟨free, -, hall⟩ := hagrees.free
    exact freeable_of_managed ((hall pa).mpr (.inr hheld)) hend
  induction h with
  | kinit hrun =>
    have hends := kinit_ends hend hempty
    rwa [hrun] at hends
  | @kalloc s held _ ih =>
    rcases ih.take with ⟨hzero, hsame⟩ | ⟨_, hne, _, htaken⟩
    · rwa [if_pos hzero]
    · rwa [if_neg hne, htaken.holds _ _ Heap.set_self]
  | @kfree s s' held pa _ hheld hrun ih =>
    rw [run_kfree (hfreeable ih hheld)] at hrun
    cases hrun
    exact ih.give hheld (hfreeable ih hheld)
  | write _ hheld page ih => exact ih.set hheld page

/-- After `kinit`, whatever pages the clients take, give back and write to: the free list is a
proper list of whole pages of the range, the free pages and those handed out are different pages and
together all of them, and those handed out hold what their holders left there. `kalloc` fails only
if every page is handed out, and freeing a page that is handed out does not panic. -/
theorem page_allocator_sound (hend : K.kend ≤ PHYSTOP) (hempty : start.freelist = 0) :
    (∃ s, run (exec K) (kinit K) start = .done () s) ∧
    ∀ s held, Served K start s held → held.In s ∧
      (∃ free, Linked s.page s.freelist free ∧ free.Nodup ∧
        (∀ a ∈ free, Managed K a ∧ held a = none) ∧
        ∀ a, Managed K a ↔ a ∈ free ∨ held a ≠ none) ∧
      (s.take.1 = 0 → ∀ a, Managed K a → held a ≠ none) ∧
      ∀ pa, held pa ≠ none → ∃ s', run (exec K) (kfree pa) s = .done () s' := by
  constructor
  · obtain ⟨_, s, hrun, -⟩ := (kinit_ends hend hempty).exists_done
    exact ⟨s, hrun⟩
  · intro s held hserved
    have hagrees := hserved.agrees hend hempty
    obtain ⟨free, hfree, hall⟩ := hagrees.free
    refine ⟨hagrees.holds, ⟨free, hfree.linked, hfree.nodup, fun a ha => ?_, hall⟩, ?_, ?_⟩
    · exact ⟨(hall a).mpr (.inl ha), hagrees.apart free hfree a ha⟩
    · intro hzero a ha
      -- the head of the list is what `kalloc` returns
      have hnull : s.freelist = 0 := by
        by_contra hne
        rw [Memory.take, if_neg hne] at hzero
        exact hne hzero
      obtain rfl : free = [] := hfree.linked.unique hnull
      exact ((hall a).mp ha).resolve_left List.not_mem_nil
    · intro pa hheld
      exact ⟨s.put pa, run_kfree (freeable_of_managed ((hall pa).mpr (.inr hheld)) hend)⟩

/-- After `kinit`, a client takes a page, writes to it and gives it back. -/
theorem page_allocator_sound_sample : ∃ pa s s',
    Served sampleKernel ⟨fun _ => .zeros, 0, []⟩ s (Heap.set (fun _ => none) pa (.fill 7)) ∧
      s.page pa = .fill 7 ∧ run (exec sampleKernel) (kfree pa) s = .done () s' ∧
      ∃ free, Linked s'.page s'.freelist free ∧ pa ∈ free := by
  have hempty : (⟨fun _ => .zeros, 0, []⟩ : Memory).freelist = 0 := rfl
  obtain ⟨⟨s, hrun⟩, hsound⟩ := page_allocator_sound (K := sampleKernel) (by decide) hempty
  have hinit : Served sampleKernel _ s _ := .kinit hrun
  have hne : s.take.1 ≠ 0 := fun hzero =>
    (hsound s _ hinit).2.2.1 hzero 0x80020000#64 ⟨by decide, by decide, by decide⟩ rfl
  have htaken := hinit.kalloc
  rw [if_neg hne] at htaken
  have hgiven : Heap.set (fun _ => none) s.take.1 (s.take.2.page s.take.1) s.take.1 ≠ none := by
    simp
  have hwritten := htaken.write hgiven (.fill 7)
  rw [Heap.set_set] at hwritten
  obtain ⟨hin, ⟨_, _, _, _, hmanaged⟩, _, hfree⟩ := hsound _ _ hwritten
  have hheld : Heap.set (fun _ => none) s.take.1 (.fill 7) s.take.1 ≠ none := by simp
  obtain ⟨s', hrun'⟩ := hfree _ hheld
  obtain ⟨_, ⟨free, hlinked, _, _, hall⟩, _⟩ := hsound _ _ (hwritten.kfree hheld hrun')
  refine ⟨_, _, s', hwritten, hin _ _ Heap.set_self, hrun', free, hlinked, ?_⟩
  exact ((hall _).mp ((hmanaged _).mpr (.inr hheld))).resolve_right fun h => h Heap.erase_self

end Xv6.Vm
