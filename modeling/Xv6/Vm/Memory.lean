import Xv6.Vm.Code
import Xv6.Interleave.Local

/-!
# The pages that code owns

A `Heap` is a part of physical memory: the pages that some code owns, with their contents. `spec`
says what the operations on memory do to it: `kalloc` finds no page, or brings a page that was not
owned, whichever it may be; `kfree` gives a page away; the other operations need to own the page
they access. `ends_run_of_safe` connects this to the allocator: where the free list is a proper list
of pages that nobody owns, code that is safe on its heap runs that way, the pages that leave the
heap are on the free list again, and the rest of memory stays as it is.
-/

namespace Xv6.Vm

open Interleave Bytes Function List Option

/-- A part of physical memory. -/
abbrev Heap := Addr → Option Page

namespace Heap

/-- Change or add a page. -/
def set (h : Heap) (pa : Addr) (page : Page) : Heap := update h pa (some page)

/-- Give a page away. -/
def erase (h : Heap) (pa : Addr) : Heap := update h pa none

/-- The pages of a heap are in memory. -/
def In (h : Heap) (s : Memory) : Prop := ∀ a page, h a = some page → s.page a = page

variable {h : Heap} {a pa : Addr} {page : Page}

@[simp] theorem set_self : (h.set pa page) pa = some page := update_self _ _ _

theorem set_of_ne (hne : a ≠ pa) : (h.set pa page) a = h a := update_of_ne hne _ _

@[simp] theorem erase_self : (h.erase pa) pa = none := update_self _ _ _

theorem erase_of_ne (hne : a ≠ pa) : (h.erase pa) a = h a := update_of_ne hne _ _

theorem set_set {page' : Page} : (h.set pa page).set pa page' = h.set pa page' := update_idem _ _ _

/-- A page is changed in the heap and in memory. -/
theorem In.set {s s' : Memory} (hin : h.In s) (hpage : s'.page = update s.page pa page) :
    (h.set pa page).In s' := by
  intro a page' ha
  rw [hpage]
  rcases eq_or_ne a pa with rfl | hne
  · rw [set_self] at ha
    rw [update_self]
    exact some.inj ha
  · rw [set_of_ne hne] at ha
    rw [update_of_ne hne]
    exact hin a page' ha

/-- A page that is given away may change in memory. -/
theorem In.erase {s s' : Memory} (hin : h.In s) (hpage : s'.page = update s.page pa page) :
    (h.erase pa).In s' := by
  intro a page' ha
  have hne : a ≠ pa := by
    rintro rfl
    simp at ha
  rw [erase_of_ne hne] at ha
  rw [hpage, update_of_ne hne]
  exact hin a page' ha

/-- The pages of two heaps. -/
def union (h f : Heap) : Heap := fun a => (h a).or (f a)

/-- Two heaps without a page in common. -/
def Disjoint (h f : Heap) : Prop := ∀ a, h a = none ∨ f a = none

/-- All pages of `h` are pages of `h'`. -/
def Sub (h h' : Heap) : Prop := ∀ a page, h a = some page → h' a = some page

variable {f : Heap}

theorem union_of_left (ha : h a = some page) : h.union f a = some page := by rw [union, ha]; rfl

theorem union_of_right (ha : h a = none) : h.union f a = f a := by rw [union, ha]; rfl

theorem sub_union_left : h.Sub (h.union f) := fun _ _ ha => union_of_left ha

theorem sub_union_right (hdisjoint : h.Disjoint f) : f.Sub (h.union f) := by
  intro a page ha
  rw [union_of_right ((hdisjoint a).resolve_right (by simp [ha])), ha]

theorem union_eq_none : h.union f a = none ↔ h a = none ∧ f a = none := or_eq_none_iff

theorem set_union : (h.union f).set pa page = (h.set pa page).union f := by
  funext a
  rcases eq_or_ne a pa with rfl | hne
  · rw [set_self, union_of_left set_self]
  · rw [set_of_ne hne, union, union, set_of_ne hne]

theorem erase_union (hpa : f pa = none) : (h.union f).erase pa = (h.erase pa).union f := by
  funext a
  rcases eq_or_ne a pa with rfl | hne
  · rw [erase_self, union_of_right erase_self, hpa]
  · rw [erase_of_ne hne, union, union, erase_of_ne hne]

section

variable (hdisjoint : h.Disjoint f)
include hdisjoint

theorem Disjoint.set (hpa : f pa = none) : (h.set pa page).Disjoint f := by
  intro a
  rcases eq_or_ne a pa with rfl | hne
  · exact .inr hpa
  · rw [set_of_ne hne]
    exact hdisjoint a

theorem Disjoint.erase : (h.erase pa).Disjoint f := by
  intro a
  rcases eq_or_ne a pa with rfl | hne
  · exact .inl erase_self
  · rw [erase_of_ne hne]
    exact hdisjoint a

theorem Disjoint.of_some (ha : h a = some page) : f a = none :=
  (hdisjoint a).resolve_left (by simp [ha])

end

end Heap

/-! ### The operations on a heap -/

/-- What an operation needs of a heap and what it leaves. With `owning`, pages are allocated, and
only own pages are freed. -/
def localWp (K : Kernel) (owning : Prop) (allowed : String → Prop) :
    (o : Op) → (Res o → Heap → Prop) → Heap → Prop
  | .kalloc, post, h =>
    owning ∧ post (0 : Addr) h ∧
      ∀ pa : Addr, Freeable K pa → pa ≠ 0 → h pa = none → post pa (h.set pa (.fill 5))
  | .kfree pa, post, h =>
    (owning → h pa ≠ none) ∧ (¬ Freeable K pa → allowed "kfree") ∧
      (Freeable K pa → post () (h.erase pa))
  | .read pa, post, h => ∃ page, h pa = some page ∧ post page h
  | .modify pa f, post, h => ∃ page, h pa = some page ∧ post () (h.set pa (f page))
  | .panic message, _, _ => allowed message

/-- The operations as predicate transformers. -/
def spec (K : Kernel) (owning : Prop) (allowed : String → Prop) : LocalSpec Op Res Heap where
  wp := localWp K owning allowed
  mono := by
    intro o post post' h hpost hwp
    cases o with
    | kalloc =>
      obtain ⟨hown, hnone, hpage⟩ := hwp
      exact ⟨hown, hpost _ _ hnone, fun pa hpa hne hh => hpost _ _ (hpage pa hpa hne hh)⟩
    | kfree pa =>
      obtain ⟨hown, hbad, hgood⟩ := hwp
      exact ⟨hown, hbad, fun hpa => hpost _ _ (hgood hpa)⟩
    | read pa =>
      obtain ⟨page, hh, hnext⟩ := hwp
      exact ⟨page, hh, hpost _ _ hnext⟩
    | modify pa f =>
      obtain ⟨page, hh, hnext⟩ := hwp
      exact ⟨page, hh, hpost _ _ hnext⟩
    | panic message => exact hwp

/-- Code that owns its pages runs on `h` without a panic but those allowed. -/
abbrev Safe (K : Kernel) (allowed : String → Prop) {α : Type} (post : α → Heap → Prop)
    (prog : Code α) (h : Heap) : Prop :=
  (spec K True allowed).Safe post prog h

section Rules

variable {K : Kernel} {owning : Prop} {allowed : String → Prop} {h : Heap} {α : Type}
  {post : α → Heap → Prop}

theorem safe_kalloc {rest : Addr → Code α} (howning : owning)
    (hnone : (spec K owning allowed).Safe post (rest 0) h)
    (hpage : ∀ pa, Freeable K pa → pa ≠ 0 → h pa = none →
      (spec K owning allowed).Safe post (rest pa) (h.set pa (.fill 5))) :
    (spec K owning allowed).Safe post (kalloc >>= rest) h :=
  ⟨howning, hnone, hpage⟩

variable {rest : Unit → Code α} {pa : Addr}

theorem safe_kfree (hown : owning → h pa ≠ none)
    (hpa : Freeable K pa) (hrest : (spec K owning allowed).Safe post (rest ()) (h.erase pa)) :
    (spec K owning allowed).Safe post (kfree pa >>= rest) h :=
  ⟨hown, fun hbad => absurd hpa hbad, fun _ => hrest⟩

variable {page : Page}

theorem safe_read {rest : Page → Code α} (hh : h pa = some page)
    (hrest : (spec K owning allowed).Safe post (rest page) h) :
    (spec K owning allowed).Safe post (Prog.perform (Op.read pa) >>= rest) h :=
  ⟨page, hh, hrest⟩

theorem safe_modify {f : Page → Page} (hh : h pa = some page)
    (hrest : (spec K owning allowed).Safe post (rest ()) (h.set pa (f page))) :
    (spec K owning allowed).Safe post (Prog.perform (Op.modify pa f) >>= rest) h :=
  ⟨page, hh, hrest⟩

theorem safe_load {rest : Pte → Code α} {ptr : PtePtr} (hh : h ptr.table = some page)
    (hrest : (spec K owning allowed).Safe post (rest (page.pte ptr.index)) h) :
    (spec K owning allowed).Safe post (load ptr >>= rest) h :=
  safe_read hh hrest

theorem safe_store {ptr : PtePtr} {value : Pte} (hh : h ptr.table = some page)
    (hrest : (spec K owning allowed).Safe post (rest ())
      (h.set ptr.table (page.setPte ptr.index value))) :
    (spec K owning allowed).Safe post (store ptr value >>= rest) h :=
  safe_modify hh hrest

theorem safe_stop {message : String} (hallowed : allowed message) :
    (spec K owning allowed).Safe post (stop message) h := hallowed

/-- The frame rule: code leaves the pages alone that it does not own. -/
theorem safe_frame {f : Heap} {prog : Code α} (hsafe : Safe K allowed post prog h)
    (hdisjoint : h.Disjoint f) :
    Safe K allowed (fun r h' => ∃ h₁, post r h₁ ∧ h₁.Disjoint f ∧ h' = h₁.union f) prog
      (h.union f) := by
  induction prog generalizing h with
  | ret value => exact ⟨h, hsafe, hdisjoint, rfl⟩
  | op o next ih =>
    cases o with
    | kalloc =>
      obtain ⟨_, hnone, hpage⟩ := hsafe
      refine ⟨trivial, ih _ hnone hdisjoint, ?_⟩
      intro pa hpa hne hfresh
      obtain ⟨hh, hf⟩ := Heap.union_eq_none.mp hfresh
      rw [Heap.set_union]
      exact ih _ (hpage pa hpa hne hh) (hdisjoint.set hf)
    | kfree pa =>
      obtain ⟨hown, hbad, hgood⟩ := hsafe
      obtain ⟨page, hpage⟩ := ne_none_iff_exists'.mp (hown trivial)
      refine ⟨fun _ => ?_, hbad, fun hpa => ?_⟩
      · rw [Heap.union_of_left hpage]
        simp
      · rw [Heap.erase_union (hdisjoint.of_some hpage)]
        exact ih _ (hgood hpa) hdisjoint.erase
    | read pa =>
      obtain ⟨page, hpage, hnext⟩ := hsafe
      exact ⟨page, Heap.union_of_left hpage, ih _ hnext hdisjoint⟩
    | modify pa g =>
      obtain ⟨page, hpage, hnext⟩ := hsafe
      refine ⟨page, Heap.union_of_left hpage, ?_⟩
      rw [Heap.set_union]
      exact ih _ hnext (hdisjoint.set (hdisjoint.of_some hpage))
    | panic message => exact hsafe

end Rules

/-! ### The free list -/

/-- The pages of a list are linked through their first words. -/
def Linked (page : Addr → Page) : Addr → List Addr → Prop
  | head, [] => head = 0
  | head, a :: rest => head = a ∧ a ≠ 0 ∧ Linked page (page a).next rest

variable {free : List Addr}

theorem Linked.congr {page page' : Addr → Page} {head : Addr}
    (h : Linked page head free) (heq : ∀ a ∈ free, page' a = page a) :
    Linked page' head free := by
  induction free generalizing head with
  | nil => exact h
  | cons a rest ih =>
    obtain ⟨rfl, hne, hrest⟩ := h
    refine ⟨rfl, hne, ?_⟩
    rw [heq head (mem_cons_self ..)]
    exact ih hrest fun b hb => heq b (mem_cons_of_mem _ hb)

/-- The free list of a memory consists of these pages. -/
structure FreePages (K : Kernel) (s : Memory) (free : List Addr) : Prop where
  linked : Linked s.page s.freelist free
  nodup : free.Nodup
  freeable : ∀ a ∈ free, Freeable K a

theorem Page.next_setNext (page : Page) (next : Addr) : (page.setNext next).next = next := by
  have hword : next.toNat % 256 ^ 8 = next.toNat := Nat.mod_eq_of_lt next.isLt
  rw [Page.next, Page.setNext, Buffer.readLE_writeLE_same _ _ (by decide), hword,
    BitVec.ofNat_toNat]
  exact BitVec.setWidth_eq next

section

variable {K : Kernel} {s : Memory} {pa : Addr}

theorem run_kfree (hpa : Freeable K pa) : run (exec K) (kfree pa) s = .done () (s.put pa) := by
  simp only [run, kfree, Prog.perform, exec, if_pos hpa]

/-- The free list stays as it is while a page that is not free is written. -/
theorem FreePages.setPage (h : FreePages K s free) (hnotin : pa ∉ free) (page : Page) :
    FreePages K (s.setPage pa page) free := by
  refine ⟨h.linked.congr fun a ha => update_of_ne ?_ _ _, h.nodup, h.freeable⟩
  rintro rfl
  exact hnotin ha

/-- The first free page is taken. -/
theorem FreePages.pop {rest : List Addr} (h : FreePages K s (pa :: rest)) :
    s.take = (pa, { s.setPage pa (.fill 5) with freelist := (s.page pa).next }) ∧
      FreePages K s.take.2 rest := by
  obtain ⟨hhead, hne, hrest⟩ := h.linked
  obtain ⟨hnotin, hnodup⟩ := nodup_cons.mp h.nodup
  have htake : s.take = (pa, { s.setPage pa (.fill 5) with freelist := (s.page pa).next }) := by
    rw [← hhead] at hne ⊢
    exact if_neg hne
  refine ⟨htake, ?_⟩
  rw [htake]
  refine ⟨hrest.congr fun a ha => update_of_ne ?_ _ _, hnodup,
    fun a ha => h.freeable a (mem_cons_of_mem _ ha)⟩
  rintro rfl
  exact hnotin ha

/-- A page is put onto the free list. -/
theorem FreePages.push (h : FreePages K s free)
    (pa : Addr) (hpa : Freeable K pa) (hnotin : pa ∉ free) :
    FreePages K (s.put pa) (pa :: free) := by
  refine ⟨⟨rfl, hpa.ne_zero, ?_⟩, nodup_cons.mpr ⟨hnotin, h.nodup⟩, ?_⟩
  · show Linked _ (Page.next (update s.page pa _ pa)) free
    rw [update_self, Page.next_setNext]
    refine h.linked.congr fun a ha => update_of_ne ?_ _ _
    rintro rfl
    exact hnotin ha
  · exact forall_mem_cons.mpr ⟨hpa, h.freeable⟩

end

/-- What code that owns a heap keeps: its pages are in memory, the free pages are those of `all`
that it does not own, and the pages outside `all` are those of `s₀`. -/
structure Agrees (K : Kernel) (all : Addr → Prop) (s₀ : Memory) (h : Heap) (s : Memory) : Prop where
  holds : h.In s
  free : ∃ free, FreePages K s free ∧ ∀ a, all a ↔ a ∈ free ∨ h a ≠ none
  apart : ∀ free, FreePages K s free → ∀ a ∈ free, h a = none
  frame : ∀ a, ¬ all a → s.page a = s₀.page a

theorem Linked.unique {page : Addr → Page} {head : Addr} {free free' : List Addr}
    (h : Linked page head free) (h' : Linked page head free') : free = free' := by
  induction free generalizing head free' with
  | nil =>
    cases free' with
    | nil => rfl
    | cons a rest => exact absurd (h'.1.symm.trans h) h'.2.1
  | cons a rest ih =>
    cases free' with
    | nil => exact absurd (h.1.symm.trans h') h.2.1
    | cons b rest' =>
      obtain ⟨rfl, _, hrest⟩ := h
      obtain ⟨rfl, _, hrest'⟩ := h'
      rw [ih hrest hrest']

section Agreement

variable {K : Kernel} {all : Addr → Prop} {s₀ s : Memory} {h : Heap}

theorem Agrees.intro (free : List Addr) (hholds : h.In s) (hfree : FreePages K s free)
    (hapart : ∀ a ∈ free, h a = none) (hall : ∀ a, all a ↔ a ∈ free ∨ h a ≠ none)
    (hframe : ∀ a, ¬ all a → s.page a = s₀.page a) : Agrees K all s₀ h s where
  holds := hholds
  free := ⟨free, hfree, hall⟩
  apart _ hfree' a ha := hapart a (hfree.linked.unique hfree'.linked ▸ ha)
  frame := hframe

section

variable (hagrees : Agrees K all s₀ h s)
include hagrees

theorem Agrees.short (short : List Bool) : Agrees K all s₀ h { s with short := short } where
  holds := hagrees.holds
  free := by
    obtain ⟨free, hfree, hall⟩ := hagrees.free
    exact ⟨free, ⟨hfree.linked, hfree.nodup, hfree.freeable⟩, hall⟩
  apart free hfree := hagrees.apart free ⟨hfree.linked, hfree.nodup, hfree.freeable⟩
  frame := hagrees.frame

theorem Agrees.set {pa : Addr} (hown : h pa ≠ none)
    (page : Page) : Agrees K all s₀ (h.set pa page) (s.setPage pa page) := by
  obtain ⟨free, hfree, hall⟩ := hagrees.free
  have hpa : all pa := (hall pa).mpr (.inr hown)
  have hnotin : pa ∉ free := fun hmem => hown (hagrees.apart free hfree pa hmem)
  refine .intro free (hagrees.holds.set rfl) (hfree.setPage hnotin page) ?_ ?_ ?_
  · intro a ha
    have hne : a ≠ pa := ne_of_mem_of_not_mem ha hnotin
    rw [Heap.set_of_ne hne]
    exact hagrees.apart free hfree a ha
  · intro a
    rw [hall]
    rcases eq_or_ne a pa with rfl | hne
    · simp [hown]
    · rw [Heap.set_of_ne hne]
  · intro a ha
    have hne : a ≠ pa := by
      rintro rfl
      exact ha hpa
    rw [← hagrees.frame a ha]
    exact update_of_ne hne _ _

theorem Agrees.take : s.take.1 = 0 ∧ Agrees K all s₀ h s.take.2 ∨
      Freeable K s.take.1 ∧ s.take.1 ≠ 0 ∧ h s.take.1 = none ∧
        Agrees K all s₀ (h.set s.take.1 (.fill 5)) s.take.2 := by
  obtain ⟨free, hfree, hall⟩ := hagrees.free
  cases free with
  | nil =>
    have htake : s.take = (0, s) := if_pos hfree.linked
    rw [htake]
    exact .inl ⟨rfl, hagrees⟩
  | cons r rest =>
    right
    have hnotin : r ∉ rest := (nodup_cons.mp hfree.nodup).1
    have hr : all r := (hall r).mpr (.inl (mem_cons_self ..))
    obtain ⟨htake, hrest⟩ := hfree.pop
    rw [htake] at hrest ⊢
    refine ⟨hfree.freeable r (mem_cons_self ..), hfree.linked.2.1,
      hagrees.apart _ hfree r (mem_cons_self ..), ?_⟩
    refine .intro rest (hagrees.holds.set rfl) hrest ?_ ?_ ?_
    · intro a ha
      have har : a ≠ r := ne_of_mem_of_not_mem ha hnotin
      rw [Heap.set_of_ne har]
      exact hagrees.apart _ hfree a (mem_cons_of_mem _ ha)
    · intro a
      rw [hall, mem_cons]
      rcases eq_or_ne a r with rfl | har
      · simp
      · rw [Heap.set_of_ne har]
        simp [har]
    · intro a ha
      have har : a ≠ r := by
        rintro rfl
        exact ha hr
      rw [← hagrees.frame a ha]
      exact update_of_ne har _ _

theorem Agrees.give {pa : Addr} (hown : h pa ≠ none) (hpa : Freeable K pa) :
    Agrees K all s₀ (h.erase pa) (s.put pa) := by
  obtain ⟨free, hfree, hall⟩ := hagrees.free
  have hnotin : pa ∉ free := fun hmem => hown (hagrees.apart free hfree pa hmem)
  refine .intro (pa :: free) (hagrees.holds.erase rfl) (hfree.push pa hpa hnotin) ?_ ?_ ?_
  · intro a ha
    rcases mem_cons.mp ha with rfl | hmem
    · exact Heap.erase_self
    · have hne : a ≠ pa := ne_of_mem_of_not_mem hmem hnotin
      rw [Heap.erase_of_ne hne]
      exact hagrees.apart free hfree a hmem
  · intro a
    rw [hall, mem_cons]
    rcases eq_or_ne a pa with rfl | hne
    · simp [hown]
    · rw [Heap.erase_of_ne hne]
      simp [hne]
  · intro a ha
    have hne : a ≠ pa := by
      rintro rfl
      exact ha ((hall a).mpr (.inr hown))
    rw [← hagrees.frame a ha]
    exact update_of_ne hne _ _

end

variable {allowed : String → Prop} {α : Type} {post : α → Heap → Prop} {prog : Code α}

theorem Agrees.step (o : Op) (post : Res o → Heap → Prop) (h : Heap) (s : Memory)
    (hwp : (spec K True allowed).wp o post h) (hagrees : Agrees K all s₀ h s) :
    (exec K o s).Ends allowed fun r s' => ∃ h', post r h' ∧ Agrees K all s₀ h' s' := by
  cases o with
  | kalloc =>
    obtain ⟨_, hnone, hpage⟩ := hwp
    have htake : ∃ h', post s.take.1 h' ∧ Agrees K all s₀ h' s.take.2 := by
      rcases hagrees.take with ⟨hzero, hsame⟩ | ⟨hpa, hne, hfresh, htaken⟩
      · rw [hzero]
        exact ⟨h, hnone, hsame⟩
      · exact ⟨_, hpage _ hpa hne hfresh, htaken⟩
    simp only [exec]
    cases s.short with
    | nil => exact htake
    | cons fails rest =>
      cases fails with
      | false =>
        obtain ⟨h', hpost, hagrees'⟩ := htake
        exact ⟨h', hpost, hagrees'.short rest⟩
      | true => exact ⟨h, hnone, hagrees.short rest⟩
  | kfree pa =>
    obtain ⟨hown, hbad, hgood⟩ := hwp
    simp only [exec]
    split
    next hpa => exact ⟨_, hgood hpa, hagrees.give (hown trivial) hpa⟩
    next hpa => exact hbad hpa
  | read pa =>
    obtain ⟨page, hh, hpost⟩ := hwp
    refine ⟨h, ?_, hagrees⟩
    rwa [hagrees.holds pa page hh]
  | modify pa f =>
    obtain ⟨page, hh, hpost⟩ := hwp
    refine ⟨_, hpost, ?_⟩
    rw [hagrees.holds pa page hh]
    exact hagrees.set (by simp [hh]) (f page)
  | panic message => exact hwp

/-- Code that is safe on its heap runs that way. The pages it owns and the free pages stay the same
pages, and the rest of memory does not change. -/
theorem ends_run_of_safe (hsafe : Safe K allowed post prog h)
    (hholds : h.In s) (hfree : FreePages K s free) (hapart : ∀ a ∈ free, h a = none) :
    (run (exec K) prog s).Ends allowed fun value s' => ∃ h' free', post value h' ∧ h'.In s' ∧
      FreePages K s' free' ∧ (∀ a ∈ free', h' a = none) ∧
      (∀ a, a ∈ free' ∨ h' a ≠ none ↔ a ∈ free ∨ h a ≠ none) ∧
      ∀ a, a ∉ free → h a = none → s'.page a = s.page a := by
  have hagrees : Agrees K (fun a => a ∈ free ∨ h a ≠ none) s h s :=
    .intro free hholds hfree hapart (fun _ => Iff.rfl) fun _ _ => rfl
  refine (LocalSpec.ends_run Agrees.step hsafe hagrees).mono ?_
  rintro value s' ⟨h', hpost, hagrees'⟩
  obtain ⟨free', hfree', hall⟩ := hagrees'.free
  refine ⟨h', free', hpost, hagrees'.holds, hfree', hagrees'.apart free' hfree',
    fun a => (hall a).symm, ?_⟩
  intro a hnotin hnone
  exact hagrees'.frame a (by simp [hnotin, hnone])

/-- Code that allocates nothing and is safe on its heap runs that way, whatever pages it frees. -/
theorem ends_run_of_safe_freeing (hsafe : (spec K False allowed).Safe post prog h)
    (hholds : h.In s) :
    (run (exec K) prog s).Ends allowed fun value s' => ∃ h', post value h' ∧ h'.In s' := by
  refine LocalSpec.ends_run ?_ hsafe hholds
  intro o post h s hwp hholds
  cases o with
  | kalloc => exact hwp.1.elim
  | kfree pa =>
    obtain ⟨_, hbad, hgood⟩ := hwp
    simp only [exec]
    split
    next hpa => exact ⟨_, hgood hpa, hholds.erase rfl⟩
    next hpa => exact hbad hpa
  | read pa =>
    obtain ⟨page, hh, hpost⟩ := hwp
    refine ⟨h, ?_, hholds⟩
    rwa [hholds pa page hh]
  | modify pa f =>
    obtain ⟨page, hh, hpost⟩ := hwp
    refine ⟨_, hpost, hholds.set ?_⟩
    rw [← hholds pa page hh]
    rfl
  | panic message => exact hwp

end Agreement

end Xv6.Vm
