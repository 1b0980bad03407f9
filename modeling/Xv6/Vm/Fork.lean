import Xv6.Vm.Freewalk
import Xv6.Vm.Uvmcopy

/-!
# The memory of new processes

The page tables that `proc_pagetable` makes, the memory that `fork` gives to a child, and
`freeproc`. Where pages run out, `proc_pagetable` leaves the trap pages unmapped without a word.
-/

namespace Xv6.Vm

open Interleave Bytes Radix LocalSpec Option Heap

variable {K : Kernel} {root : Addr} {allowed : String → Prop} {h h' : Heap}

/-- The heap without pages. -/
def noPages : Heap := fun _ => none

theorem noPages_disjoint : noPages.Disjoint h := fun _ => .inl rfl

/-! ### proc_pagetable -/

theorem and_user (w : Pte) : w &&& PTE_U = PTE_FLAGS w &&& PTE_U := by
  have hmask : 0x3FF#64 &&& PTE_U = PTE_U := by decide
  rw [PTE_FLAGS, BitVec.and_assoc, hmask]

theorem mapTrap_safe {pages n : Nat} {pa : Addr} {perm : Pte} (hspace : UserSpace K h root pages)
    (hn : USERPAGES ≤ n) (hn' : n < NPAGES) (hnone : lookup h root n = none)
    (hperm : perm.toNat < 1024) (hleaf : perm ||| PTE_V ≠ PTE_V)
    (huser : (perm ||| PTE_V) &&& PTE_U = 0) :
    Safe K allowed (fun r h' => UserSpace K h' root pages ∧ Grown K root h h' ∧
        (∀ m, m ≠ n → lookup h' root m = lookup h root m) ∧ (r = 0 → lookup h' root n ≠ none))
      (mappages root (pageAt n) 4096#64 pa perm) h := by
  obtain ⟨hrange, hfirst, hlast, hcount⟩ := inRange_page hn'
  refine (mappages_safe trivial hspace.tree hrange ?_).mono ?_
  · intro m hm hm'
    obtain rfl : m = n := by omega
    exact hnone
  · intro r h' hmapped
    rw [hfirst, hcount] at hmapped
    have hlookup : ∀ m, lookup h' root m = lookup h root m ∨
        m = n ∧ lookup h' root m = some (newEntry (pa + pageAt (m - n)) perm) := by
      intro m
      rcases hmapped.result with ⟨_, hall⟩ | ⟨_, part, hpart, hall⟩
      · rw [hall, mapRange]
        split
        · exact .inr ⟨by omega, rfl⟩
        · exact .inl rfl
      · obtain rfl : part = 0 := by omega
        rw [hall, mapRange_zero]
        exact .inl rfl
    have hother : ∀ m, m ≠ n → lookup h' root m = lookup h root m := fun m hm =>
      (hlookup m).resolve_right fun hnew => hm hnew.1
    refine ⟨⟨hspace.toImage.grown hmapped.grown fun m hm => hother m (by omega), ?_⟩, hmapped.grown,
      hother, ?_⟩
    · intro m w hm hw
      rcases hlookup m with hold | ⟨_, hnew⟩
      · rw [hold] at hw
        exact hspace.trap m w hm hw
      · have hflags : PTE_FLAGS w = perm ||| PTE_V := by
          rw [← some.inj (hnew.symm.trans hw), newEntry, BitVec.or_assoc,
            flags_or _ (or_valid_lt hperm)]
        rw [and_user, hflags]
        exact ⟨hleaf, huser⟩
    · intro hr
      rcases hmapped.result with ⟨_, hall⟩ | ⟨hminus, _⟩
      · rw [hall, mapRange, if_pos (by omega)]
        simp
      · rw [hr] at hminus
        cases hminus

theorem uvmcreate_safe (hallowed : allowed "uvmcreate: out of memory") : Safe K allowed
      (fun root h' => UserSpace K h' root 0 ∧ ∀ n, lookup h' root n = none) uvmcreate noPages := by
  refine safe_kalloc trivial ?_ ?_
  · rw [if_pos rfl]
    exact safe_stop hallowed
  · intro pa hpa hne _
    rw [if_neg hne]
    refine safe_modify set_self (Safe.ret ?_)
    rw [set_set, Page.fill_zero]
    have hroot : (noPages.set pa .zeros) pa = some .zeros := set_self
    have hempty : ∀ i, child (noPages.set pa .zeros) pa i = none := fun i =>
      child_of_invalid hroot (by rw [Page.pte_zeros]; rfl)
    have hnone := lookup_of_empty hempty
    refine ⟨⟨Image.of_empty hempty (by rw [hroot]; simp) hpa, ?_⟩, hnone⟩
    intro n w _ hw
    rw [hnone] at hw
    cases hw

theorem safe_mapTraps {tf : Addr} {α : Type} {post : α → Heap → Prop} {rest : Int → Int → Code α}
    (hspace : UserSpace K h root 0) (hnone : ∀ n, lookup h root n = none)
    (hrest : ∀ r r' h', UserSpace K h' root 0 → Grown K root h h' →
      (r = 0 → r' = 0 → TrapMapped h' root) → Safe K allowed post (rest r r') h') :
    Safe K allowed post (do
        let r ← mappages root TRAMPOLINE 4096#64 K.trampoline (PTE_R ||| PTE_X)
        let r' ← mappages root TRAPFRAME 4096#64 tf (PTE_R ||| PTE_W)
        rest r r') h := by
  have hpages := npages_eq
  have htop : trampolinePage = 67108863 := rfl
  have hframe : trapframePage = 67108862 := rfl
  have huser : USERPAGES = 67108862 := rfl
  have htrampoline : TRAMPOLINE = pageAt trampolinePage := by decide
  have htrapframe : TRAPFRAME = pageAt trapframePage := by decide
  rw [htrampoline, htrapframe]
  refine (mapTrap_safe hspace (by omega) (by omega) (hnone _) (by decide) (by decide)
    (by decide)).andThen ?_
  rintro r h₂ ⟨hspace₂, hgrown₂, hother₂, hmapped₂⟩
  have hnone₂ : lookup h₂ root trapframePage = none := by
    rw [hother₂ _ (by omega), hnone]
  refine (mapTrap_safe hspace₂ (by omega) (by omega) hnone₂ (by decide) (by decide)
    (by decide)).andThen ?_
  rintro r' h₃ ⟨hspace₃, hgrown₃, hother₃, hmapped₃⟩
  refine hrest r r' h₃ hspace₃ (hgrown₂.trans hgrown₃) ?_
  intro hr₂ hr₃
  refine ⟨?_, hmapped₃ hr₃⟩
  rw [hother₃ _ (by omega)]
  exact hmapped₂ hr₂

theorem procPagetable_safe {tf : Addr} (hallowed : allowed "uvmcreate: out of memory") :
    Safe K allowed (fun root h' => UserSpace K h' root 0) (procPagetable K tf) noPages := by
  refine (uvmcreate_safe hallowed).andThen ?_
  rintro root h₁ ⟨hspace₁, hnone⟩
  -- The results of `mappages` are not looked at.
  refine safe_mapTraps hspace₁ hnone ?_
  intro _ _ h₂ hspace₂ _ _
  exact Safe.ret hspace₂

/-! ### Processes -/

/-- The memory of a process: its address space, and the page of its trap frame. -/
structure Space (K : Kernel) (h : Heap) (p : Proc) : Prop where
  user : UserSpace K h p.pagetable (pagesOf p.sz)
  freeable : Freeable K p.tf
  owned : h p.tf ≠ none
  notTable : ¬ Table h p.pagetable p.tf
  notFrame : ¬ Frames h p.pagetable 0 (pagesOf p.sz) p.tf

/-- An address space and a page for the trap frame that is not one of its pages. -/
theorem space_of_user {h₁ : Heap} {sz tf : Addr} (huser : UserSpace K h₁ root (pagesOf sz))
    (hsub : h₁.Sub h) (hfreeable : Freeable K tf) (hnone : h₁ tf = none) (howned : h tf ≠ none) :
    Space K h ⟨root, sz, tf⟩ := by
  have hsame := agree_of_sub huser.tree hsub
  refine ⟨huser.mono hsub, hfreeable, howned, ?_, ?_⟩
  · intro htable
    rw [table_of_agree hsame] at htable
    exact huser.tree.owned tf htable hnone
  · intro hframe
    rw [frames_of_agree hsame] at hframe
    exact (huser.frame hframe).2.2 hnone

theorem allocproc_safe (hallowed : allowed "uvmcreate: out of memory") :
    Safe K allowed (fun r h' => ∀ np, r = some np → np.sz = 0 ∧ Space K h' np)
      (allocproc K) noPages := by
  refine safe_kalloc trivial ?_ ?_
  · rw [if_pos rfl]
    exact Safe.ret nofun
  · intro tf htf hne _
    rw [if_neg hne]
    have hnew : Safe K allowed _ (procPagetable K tf) noPages := procPagetable_safe hallowed
    have hframed := safe_frame hnew (noPages_disjoint (h := noPages.set tf (.fill 5)))
    refine hframed.andThen ?_
    rintro root h' ⟨h₁, hspace, hdisjoint, rfl⟩
    refine Safe.ret ?_
    rintro np hnp
    obtain rfl := some.inj hnp
    have hpage : (noPages.set tf (.fill 5)) tf = some (.fill 5) := set_self
    have hfree : h₁ tf = none := (hdisjoint tf).resolve_right (by rw [hpage]; simp)
    refine ⟨rfl, space_of_user hspace sub_union_left htf hfree ?_⟩
    rw [sub_union_right hdisjoint tf _ hpage]
    simp

variable {p : Proc}

section

variable (hspace : Space K h p)
include hspace

theorem Space.eraseTrapframe : UserSpace K (h.erase p.tf) p.pagetable (pagesOf p.sz) ∧
      ∀ n, lookup (h.erase p.tf) p.pagetable n = lookup h p.pagetable n := by
  have htables : ∀ a, Table h p.pagetable a → h.erase p.tf a = h a := by
    intro a ha
    refine erase_of_ne ?_
    rintro rfl
    exact hspace.notTable ha
  refine ⟨hspace.user.congr htables ?_, lookup_of_agree htables⟩
  intro a ha
  rw [erase_of_ne]
  · exact (hspace.user.frame ha).2.2
  · rintro rfl
    exact hspace.notFrame ha

theorem freeproc_safe
    (htrap : TrapMapped h p.pagetable ∨ allowed "uvmunmap: walk" ∧ allowed "uvmunmap: not mapped") :
    Safe K allowed (fun _ _ => True) (freeproc p) h := by
  obtain ⟨huser, hlookup⟩ := hspace.eraseTrapframe
  refine safe_kfree (fun _ => hspace.owned) hspace.freeable ?_
  exact (procFreepagetable_safe huser (.inr rfl)
    (htrap.imp_left fun hmapped => hmapped.congr hlookup)).mono fun _ _ _ => trivial

theorem freeproc_stops (hnone : lookup h p.pagetable trampolinePage = none) :
    (spec K True fun message => message = "uvmunmap: walk" ∨ message = "uvmunmap: not mapped").Safe
      (fun _ _ => False) (freeproc p) h := by
  have hpages := npages_eq
  have htop : trampolinePage = 67108863 := rfl
  have hpage : pageOf (pageAt trampolinePage) = trampolinePage := pageOf_pageAt (by omega)
  obtain ⟨huser, hlookup⟩ := hspace.eraseTrapframe
  refine safe_kfree (fun _ => hspace.owned) hspace.freeable ?_
  have hstop : (spec K True fun message => message = "uvmunmap: walk" ∨
      message = "uvmunmap: not mapped").Safe (fun _ _ => False)
      (uvmunmap p.pagetable (pageAt trampolinePage) 4096#64 false) (h.erase p.tf) := by
    refine uvmunmap_stops huser.tree (by omega) ?_ (.inl rfl) (.inr rfl)
    rw [hpage, hlookup, hnone]
  exact hstop.andThen fun _ _ hfalse => hfalse.elim

end

/-! ### fork -/

theorem uvmcopy_safe {old new sz : Addr} (hcopy : Copyable h old new (pagesOf sz))
    (hpages : pagesOf sz ≤ NPAGES) (hwalk : allowed "uvmunmap: walk")
    (hnot : allowed "uvmunmap: not mapped") :
    Safe K allowed (fun r h' => r = 0 ∧ CopiedPages K old new h 0 (pagesOf sz) h h' ∨
        r = -1 ∧ SameMap K new h h')
      (uvmcopy old new sz) h := by
  have hsize : PGSIZE = 4096 := rfl
  have hnothing : CopiedPages K old new h 0 0 h h := .of_same (.refl hcopy.child)
  have hzero : (0 : Addr) = pageAt 0 := rfl
  unfold uvmcopy uvmcopyFrom
  by_cases hpos : 0 < pagesOf sz
  · have hlt : 0 < sz := by
      exact (pageAt_lt_iff (by decide)).mpr hpos
    rw [if_pos hlt]
    refine (hcopy.page_safe hpos hpages hnothing).andThen ?_
    rintro ok h₁ (⟨rfl, hnext⟩ | ⟨rfl, hback⟩)
    · rw [if_pos rfl, hzero, pageAt_succ]
      exact hcopy.from_safe hpages Nat.one_pos hpos (by rw [hsize]; unfold pagesOf; omega) hnext
    · have hnone : lookup h₁ new 0 = none := by
        rw [hback.lookup 0 (by omega)]
        exact hcopy.empty 0 hpos
      have hstop : Safe K allowed (fun _ _ => False) (uvmunmap new 0 0 true) h₁ :=
        uvmunmap_stops hback.tree (by decide) hnone hwalk hnot
      exact hstop.andThen fun _ _ hfalse => hfalse.elim
  · have hnlt : ¬ 0 < sz := by
      rw [hzero]
      exact mt (pageAt_lt_iff (by decide)).mp hpos
    have hnone : pagesOf sz = 0 := by omega
    rw [if_neg hnlt, hnone]
    exact Safe.ret (.inl ⟨rfl, hnothing⟩)

theorem copyable_of_disjoint {p np : Proc} {h₁ : Heap} (hparent : Space K h p)
    (hchild : UserSpace K h₁ np.pagetable 0) (hdisjoint : h₁.Disjoint h) :
    Copyable (h₁.union h) p.pagetable np.pagetable (pagesOf p.sz) := by
  have hsame := agree_of_sub hparent.user.tree (sub_union_right hdisjoint)
  have hsub : h₁.Sub (h₁.union h) := sub_union_left
  have hsame₁ := agree_of_sub hchild.tree hsub
  have hother : ∀ a, h a ≠ none → ¬ Table (h₁.union h) np.pagetable a := by
    intro a ha htable
    rw [table_of_agree hsame₁] at htable
    exact hchild.tree.owned a htable ((hdisjoint a).resolve_right ha)
  refine ⟨hparent.user.tree.of_agree hsame, hchild.tree.of_agree hsame₁, ?_, ?_, ?_⟩
  · intro a ha
    rw [table_of_agree hsame] at ha
    exact hother a (hparent.user.tree.owned a ha)
  · intro n hn
    obtain ⟨w, page, huser⟩ := hparent.user.mapped n hn
    refine ⟨w, page, ?_, huser.leaf, sub_union_right hdisjoint _ _ huser.page, ?_⟩
    · rw [lookup_of_agree hsame, huser.lookup]
    · exact hother _ (by simp [huser.page])
  · intro n hn
    have hlt := hparent.user.pages_lt
    rw [lookup_of_agree hsame₁]
    exact hchild.unmapped n (Nat.zero_le n) (by omega)

variable {np : Proc}

section

variable (hspace : Space K h np)
include hspace

theorem Space.extend {sz : Addr} {flags : Nat → Pte} {content : Nat → Page}
    (hle : pagesOf np.sz ≤ pagesOf sz)
    (hext : Extended K np.pagetable flags content (pagesOf np.sz) (pagesOf sz) h h') :
    Space K h' { np with sz } := by
  obtain ⟨page, hpage⟩ := ne_none_iff_exists'.mp hspace.owned
  obtain ⟨hkept, hapart⟩ := hext.keeps hpage hspace.notTable
  refine ⟨hspace.user.extend hle hext, hspace.freeable, ?_, hapart, ?_⟩
  · show h' np.tf ≠ none
    rw [hkept]
    simp
  · rintro ⟨n, w, hlo, hn, hw, hpa⟩
    by_cases hold : n < pagesOf np.sz
    · rw [hext.lookup n (by omega)] at hw
      exact hspace.notFrame ⟨n, w, hlo, hold, hw, hpa⟩
    · have hnone := (hext.frame ⟨n, w, by omega, hn, hw, rfl⟩).2.1
      rw [hpa, hpage] at hnone
      cases hnone

theorem Space.same (hsame : SameMap K np.pagetable h h') : Space K h' np := by
  have hext : Extended K np.pagetable (fun _ => 0) (fun _ => .zeros) (pagesOf np.sz) (pagesOf np.sz)
      h h' := .of_same hsame
  exact hspace.extend le_rfl hext

/-- The memory of a process depends only on its tables and on which pages there are. -/
theorem Space.congr (htables : ∀ a, Table h np.pagetable a → h' a = h a)
    (hframes : ∀ a, Frames h np.pagetable 0 (pagesOf np.sz) a → h' a ≠ none)
    (htf : h' np.tf ≠ none) : Space K h' np := by
  refine ⟨hspace.user.congr htables hframes, hspace.freeable, htf, ?_, ?_⟩
  · rw [table_of_agree htables]
    exact hspace.notTable
  · rw [frames_of_agree htables]
    exact hspace.notFrame

theorem Space.setTrapframe (page : Page) : Space K (h.set np.tf page) np := by
  refine hspace.congr ?_ ?_ (by simp [set_self])
  · intro a ha
    refine set_of_ne ?_
    rintro rfl
    exact hspace.notTable ha
  · intro a ha
    rw [set_of_ne]
    · exact (hspace.user.frame ha).2.2
    · rintro rfl
      exact hspace.notFrame ha

theorem Space.mono (hsub : h.Sub h') : Space K h' np := by
  have howned : ∀ a, h a ≠ none → h' a ≠ none := by
    intro a ha
    obtain ⟨page, hpage⟩ := ne_none_iff_exists'.mp ha
    rw [hsub a page hpage]
    simp
  exact hspace.congr (agree_of_sub hspace.user.tree hsub)
    (fun a ha => howned a (hspace.user.frame ha).2.2) (howned _ hspace.owned)

end

/-- `fork` makes a child with an address space of its own. It can panic only where an allocation
failed: in `uvmcreate`, or in `uvmunmap` when it cleans up. -/
theorem fork_safe (hspace : Space K h p) (hcreate : allowed "uvmcreate: out of memory")
    (hwalk : allowed "uvmunmap: walk") (hnot : allowed "uvmunmap: not mapped") :
    Safe K allowed (fun r h' => ∀ np, r = some np → np.sz = p.sz ∧ Space K h' np) (fork K p) h := by
  have hlimit : USERPAGES < NPAGES := by decide
  have hpages := hspace.user.pages_lt
  have halloc : Safe K allowed _ (allocproc K) noPages := allocproc_safe hcreate
  have hframed := safe_frame halloc (noPages_disjoint (h := h))
  refine hframed.andThen ?_
  rintro r h' ⟨h₁, hnew, hdisjoint, rfl⟩
  cases r with
  | none => exact Safe.ret nofun
  | some np =>
    obtain ⟨hsz, hchild⟩ := hnew np rfl
    have hzero : pagesOf np.sz = 0 := by rw [hsz]; rfl
    have hempty := hchild.user
    rw [hzero] at hempty
    have hcopy := copyable_of_disjoint hspace hempty hdisjoint
    have hchild := hchild.mono (sub_union_left (f := h))
    refine (uvmcopy_safe hcopy (by omega) hwalk hnot).andThen ?_
    rintro r h₂ (⟨rfl, hcopied⟩ | ⟨rfl, hback⟩)
    · rw [if_neg (by decide)]
      -- The trap frame of the parent is a page that the child does not have.
      obtain ⟨tf, htf⟩ := ne_none_iff_exists'.mp hspace.owned
      have hnotTable : ¬ Table (h₁.union h) np.pagetable p.tf := by
        rw [table_of_agree (agree_of_sub hempty.tree sub_union_left)]
        intro htable
        exact hempty.tree.owned _ htable ((hdisjoint _).resolve_right hspace.owned)
      have htf₂ := (hcopied.keeps (sub_union_right hdisjoint _ _ htf) hnotTable).1
      rw [← hzero] at hcopied
      have hspace₂ : Space K h₂ { np with sz := p.sz } := hchild.extend (by omega) hcopied
      obtain ⟨page, hpage⟩ := ne_none_iff_exists'.mp hspace₂.owned
      refine safe_read htf₂ ?_
      refine safe_modify hpage (Safe.ret ?_)
      rintro child ⟨⟩
      exact ⟨rfl, hspace₂.setTrapframe _⟩
    · rw [if_pos (by decide)]
      refine (freeproc_safe (hchild.same hback) (.inr ⟨hwalk, hnot⟩)).andThen ?_
      intro _ h₃ _
      exact Safe.ret nofun

end Xv6.Vm
