import Xv6.Vm.Break

/-!
# Giving pages back

`proc_freepagetable` and `freeproc` put the pages of a process onto the free list.
`proc_freepagetable` calls `uvmfree` only for a size above 0, so that the tables of an address space
without user memory stay allocated, as those of a child whose memory `fork` could not copy.
-/

namespace Xv6.Vm

open Interleave Bytes Radix LocalSpec

variable {K : Kernel} {s : Memory} {p : Proc}

/-- `prog` does not panic, and afterwards the free pages are those from before and `pages`, each of
them on the free list once. -/
def GivesBack (K : Kernel) (s : Memory) (prog : Code Unit) (pages : Addr → Prop) : Prop :=
  ∀ free, FreePages K s free → ∃ s' free', run (exec K) prog s = .done () s' ∧
    FreePages K s' free' ∧ ∀ a, a ∈ free' ↔ a ∈ free ∨ pages a

/-- What remains of the pages of an address space: none, or at least the root of its tables. -/
def Remains (root sz : Addr) (h' : Heap) : Prop := if 0 < sz then h' = noPages else h' root ≠ none

theorem givesBack_iff {prog : Code Unit} {pages : Addr → Prop} {root sz : Addr}
    (hfree : ∃ free, FreePages K s free ∧ ∀ a ∈ free, ¬ pages a)
    (hsafe : ∀ allowed : String → Prop, TrapMapped s.heap root ∨
        allowed "uvmunmap: walk" ∧ allowed "uvmunmap: not mapped" →
      Safe K allowed (fun _ h' => TrapMapped s.heap root ∧ Remains root sz h') prog (s.part pages))
    (hroot : pages root) : GivesBack K s prog pages ↔ TrapMapped s.heap root ∧ 0 < sz := by
  obtain ⟨free, hfree, hunused⟩ := hfree
  have hapart : ∀ a ∈ free, s.part pages a = none := fun a ha => part_of_not (hunused a ha)
  constructor
  · intro hgives
    obtain ⟨s', free', hrun, hfree', hall⟩ := hgives free hfree
    have hends := ends_run_of_safe (hsafe (fun _ => True) (.inr ⟨trivial, trivial⟩)) (part_in s _)
      hfree hapart
    rw [hrun] at hends
    obtain ⟨h', free'', ⟨htrap, hleft⟩, _, hfree'', hapart', _⟩ := hends
    refine ⟨htrap, ?_⟩
    by_contra hpos
    -- The root of the tables is not on the free list.
    rw [Remains, if_neg hpos] at hleft
    rw [hfree'.linked.unique hfree''.linked] at hall
    exact hleft (hapart' root ((hall root).mpr (.inr hroot)))
  · rintro ⟨htrap, hpos⟩ free₁ hfree₁
    rw [hfree₁.linked.unique hfree.linked]
    obtain ⟨_, s', hrun, h', free', ⟨_, hleft⟩, _, hfree', _, hall, _⟩ :=
      (ends_run_of_safe (hsafe (fun _ => False) (.inl htrap))
        (part_in s _) hfree hapart).exists_done
    rw [Remains, if_pos hpos] at hleft
    refine ⟨s', free', hrun, hfree', fun a => ?_⟩
    have ha := hall a
    rw [hleft] at ha
    by_cases hpage : pages a
    · simpa [noPages, part_of hpage, Memory.heap, hpage] using ha
    · simpa [noPages, part_of_not hpage, hpage] using ha

theorem Alive.freepagetable {allowed : String → Prop} (halive : Alive K p s)
    (htrap : TrapMapped s.heap p.pagetable ∨
      allowed "uvmunmap: walk" ∧ allowed "uvmunmap: not mapped") :
    Safe K allowed (fun _ h' => TrapMapped s.heap p.pagetable ∧ Remains p.pagetable p.sz h')
      (procFreepagetable p.pagetable p.sz)
        (s.part (SpacePages s.heap p.pagetable (pagesOf p.sz))) := by
  have hsame : ∀ a, Table s.heap p.pagetable a →
      s.part (SpacePages s.heap p.pagetable (pagesOf p.sz)) a = s.heap a := fun a ha =>
        part_of (.inl ha)
  have huser := halive.space.user.congr hsame fun a ha => by
    rw [part_of (.inr ha)]
    exact (halive.space.user.frame ha).2.2
  have hlookup := lookup_of_agree hsame
  refine (procFreepagetable_safe huser (.inr rfl) (htrap.imp_left fun h => h.congr hlookup)).mono ?_
  intro _ h' ⟨htrap', hleft⟩
  refine ⟨htrap'.congr fun n => (hlookup n).symm, ?_⟩
  unfold Left at hleft
  unfold Remains
  split at hleft
  next hpos =>
    rw [if_pos hpos, hleft]
    funext a
    by_cases ha : SpacePages s.heap p.pagetable (pagesOf p.sz) a
    · refine Heap.without_of ?_
      rwa [SpacePages, table_of_agree hsame, frames_of_agree hsame]
    · unfold Heap.without
      rw [part_of_not ha, ite_self]
      rfl
  next hpos =>
    rw [if_neg hpos]
    exact hleft.tree.owned _ node_root

theorem Alive.givesBack_space (halive : Alive K p s) :
    GivesBack K s (procFreepagetable p.pagetable p.sz)
      (SpacePages s.heap p.pagetable (pagesOf p.sz)) ↔ TrapMapped s.heap p.pagetable ∧
        0 < p.sz := by
  obtain ⟨free, hfree, hunused⟩ := halive.free
  refine givesBack_iff ⟨free, hfree, ?_⟩ (fun _ => halive.freepagetable) (.inl node_root)
  exact fun a ha hpage => hunused a ha (hpage.imp_right .inl)

/-- The pages of a process are pages that `kfree` accepts. -/
theorem Alive.freeable {a : Addr} (halive : Alive K p s) (ha : Owned s p a) : Freeable K a := by
  rcases ha with htable | hframe | rfl
  · exact halive.space.user.proper.freeable a htable
  · exact (halive.space.user.frame hframe).1
  · exact halive.space.freeable

/-- A process gives back its address space, and `freeproc` all its pages, exactly if both trap pages
are mapped and the size is not 0. The trap frame is no page of the address space, and the trampoline
page, which is inside the kernel, is no page of the process: it is not freed. -/
theorem gives_back_pages_iff (halive : Alive K p s) :
    (GivesBack K s (procFreepagetable p.pagetable p.sz)
      (SpacePages s.heap p.pagetable (pagesOf p.sz)) ↔ TrapMapped s.heap p.pagetable ∧ 0 < p.sz) ∧
    (GivesBack K s (freeproc p) (Owned s p) ↔ TrapMapped s.heap p.pagetable ∧ 0 < p.sz) ∧
    ¬ SpacePages s.heap p.pagetable (pagesOf p.sz) p.tf ∧ ¬ Owned s p K.trampoline := by
  have hnot : ¬ SpacePages s.heap p.pagetable (pagesOf p.sz) p.tf :=
    not_or_intro halive.space.notTable halive.space.notFrame
  have hinside : ¬ Owned s p K.trampoline := fun howned =>
    absurd K.inside (BitVec.not_lt.mpr (halive.freeable howned).2.1)
  refine ⟨halive.givesBack_space, ?_, hnot, hinside⟩
  refine givesBack_iff halive.free (fun allowed htrap => ?_) (.inl node_root)
  refine safe_kfree (fun _ => halive.part.owned) halive.space.freeable ?_
  -- Without the trap frame, the address space is left.
  have hrest : (s.part (Owned s p)).erase p.tf =
      s.part (SpacePages s.heap p.pagetable (pagesOf p.sz)) := by
    funext a
    rcases eq_or_ne a p.tf with rfl | hne
    · rw [Heap.erase_self, part_of_not hnot]
    · rw [Heap.erase_of_ne hne]
      by_cases ha : SpacePages s.heap p.pagetable (pagesOf p.sz) a
      · rw [part_of ha, part_of (ha.imp_right .inl)]
      · rw [part_of_not ha, part_of_not]
        exact fun howned => ha (howned.imp_right fun h => h.resolve_right hne)
  rw [hrest]
  exact halive.freepagetable htrap

theorem sampleTraps_life : ∃ s, Life sampleKernel ⟨0x80030000#64, 0, 0x80040000#64⟩ s := by
  have heval : (run (exec sampleKernel) (mapTraps sampleKernel 0x80030000#64 0x80040000#64)
      sampleMemory).result? = some (0, 0) := by decide +kernel
  obtain ⟨s, hrun⟩ := Outcome.exists_done_of_result heval
  exact ⟨s, life_of_sampleTraps hrun⟩

/-- A process of one page gives all its pages back. -/
theorem gives_back_pages_sample : ∃ p s, p.sz = 4096#64 ∧ Alive sampleKernel p s ∧
    GivesBack sampleKernel s (freeproc p) (Owned s p) := by
  have heval : ((run (exec sampleKernel) (mapTraps sampleKernel 0x80030000#64 0x80040000#64)
      sampleMemory).andThen fun r s => (run (exec sampleKernel)
        (sysSbrk ⟨0x80030000#64, 0, 0x80040000#64⟩ 4096#32) s).andThen fun r' s =>
          .done (r, r'.2.sz) s).result? = some ((0, 0), 4096#64) := by decide +kernel
  obtain ⟨r, s₁, hrun₁, heval⟩ := Outcome.exists_of_andThen heval
  obtain ⟨⟨v, p⟩, s, hrun, heval⟩ := Outcome.exists_of_andThen heval
  obtain ⟨rfl, hsz⟩ := Prod.mk.inj (Option.some.inj heval)
  obtain ⟨halive, htrap⟩ := (Life.sbrk (life_of_sampleTraps hrun₁) hrun).alive
  have hpos : 0 < p.sz := by
    rw [show p.sz = 4096#64 from hsz]
    decide
  exact ⟨p, s, hsz, halive, (gives_back_pages_iff halive).2.1.mpr ⟨htrap, hpos⟩⟩

/-- The tables of an address space without user memory are not freed. -/
theorem tables_not_given_back : ∃ s, Alive sampleKernel ⟨0x80030000#64, 0, 0x80040000#64⟩ s ∧
    TrapMapped s.heap 0x80030000#64 ∧
    ¬ GivesBack sampleKernel s (procFreepagetable 0x80030000#64 0)
      (SpacePages s.heap 0x80030000#64 0) := by
  obtain ⟨s, hlife⟩ := sampleTraps_life
  obtain ⟨halive, htrap⟩ := hlife.alive
  exact ⟨s, halive, htrap, fun hgives => absurd (halive.givesBack_space.mp hgives).2 (by decide)⟩

end Xv6.Vm
