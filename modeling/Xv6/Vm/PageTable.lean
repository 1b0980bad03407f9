import Xv6.Vm.Memory
import Xv6.Radix.Tree

/-!
# Page tables as finite maps

A page table is a tree of three levels of tables (`Tree`), and it stands for the finite map `lookup`
from page numbers to valid entries. `walk` adds tables to the tree and leaves the map as it is;
`mappages` adds a range of entries to the map or, if it runs out of pages, a part of it; `uvmunmap`
removes a range. All this happens on the heap of the tables: `Grown` says what else stays the same.
-/

namespace Xv6.Vm

open Interleave Bytes Radix LocalSpec Option BitVec Heap

/-! ### Tables -/

/-- The table that an entry of a table leads to. -/
def child (h : Heap) (a : Addr) (i : Fin 512) : Option Addr :=
  (h a).bind fun page => if page.pte i &&& PTE_V ≠ 0 then some (PTE2PA (page.pte i)) else none

/-- A page-table page of the page table at `root`. -/
def Table (h : Heap) (root a : Addr) : Prop := Node (child h) root 2 a

/-- The page-table pages are pages of the heap, and none is reached by two paths. -/
structure Tree (h : Heap) (root : Addr) : Prop where
  owned : ∀ a, Table h root a → h a ≠ none
  unshared : Unshared (child h) root 2

/-- The path to the last table for page `n`. -/
def pathOf (n : Nat) : List (Fin 512) := [index 2 n, index 1 n]

/-- The valid entry `i` of a table. -/
def validEntry (page : Page) (i : Fin 512) : Option Pte :=
  if page.pte i &&& PTE_V ≠ 0 then some (page.pte i) else none

/-- The valid entry for page `n`. -/
def lookup (h : Heap) (root : Addr) (n : Nat) : Option Pte :=
  if n < NPAGES then
    (follow (child h) root (pathOf n)).bind fun t => (h t).bind fun page =>
      validEntry page (index 0 n)
  else none

/-- Page tables as the kernel makes them: their tables can be freed, the entries of the upper levels
only lead to tables, and nothing is above `MAXVA`. -/
structure Proper (K : Kernel) (h : Heap) (root : Addr) : Prop where
  freeable : ∀ a, Table h root a → Freeable K a
  interior : ∀ path t page i, path.length < 2 → follow (child h) root path = some t →
    h t = some page → page.pte i &&& PTE_V ≠ 0 → page.pte i &&& (PTE_R ||| PTE_W ||| PTE_X) = 0
  low : ∀ i : Fin 512, 256 ≤ i.val → child h root i = none

variable {h h' h'' : Heap} {root : Addr} {K : Kernel} {a t : Addr} {i : Fin 512}

theorem child_of_valid {page : Page} (hpage : h a = some page)
    (hvalid : page.pte i &&& PTE_V ≠ 0) : child h a i = some (PTE2PA (page.pte i)) := by
  rw [child, hpage]
  exact if_pos hvalid

theorem child_of_invalid {page : Page} (hpage : h a = some page)
    (hvalid : page.pte i &&& PTE_V = 0) : child h a i = none := by
  rw [child, hpage]
  exact if_neg (not_not.mpr hvalid)

variable {path : List (Fin 512)}

theorem Tree.page (htree : Tree h root) {t : Addr}
    (hpath : path.length ≤ 2) (hfollow : follow (child h) root path = some t) :
    ∃ page, h t = some page :=
  ne_none_iff_exists'.mp (htree.owned t ⟨path, hpath, hfollow⟩)

variable {n : Nat} {page : Page}

theorem lookup_of_follow (hn : n < NPAGES)
    (hfollow : follow (child h) root (pathOf n) = some t) (hpage : h t = some page) :
    lookup h root n = validEntry page (index 0 n) := by
  rw [lookup, if_pos hn, hfollow, bind_some, hpage, bind_some]

theorem lookup_of_follow_none (hfollow : follow (child h) root (pathOf n) = none) :
    lookup h root n = none := by
  unfold lookup
  rw [hfollow]
  split <;> rfl

/-- A page with a valid entry has a last table with that entry. -/
theorem exists_of_lookup {w : Pte} (hlookup : lookup h root n = some w) :
    n < NPAGES ∧ w &&& PTE_V ≠ 0 ∧ ∃ t page, follow (child h) root (pathOf n) = some t ∧
      h t = some page ∧ page.pte (index 0 n) = w := by
  unfold lookup at hlookup
  split at hlookup
  next hn =>
    obtain ⟨t, hfollow, hlookup⟩ := bind_eq_some_iff.mp hlookup
    obtain ⟨page, hpage, hlookup⟩ := bind_eq_some_iff.mp hlookup
    unfold validEntry at hlookup
    split at hlookup
    next hvalid =>
      obtain rfl := some.inj hlookup
      exact ⟨hn, hvalid, t, page, hfollow, hpage, rfl⟩
    next => cases hlookup
  next => cases hlookup

theorem pathOf_inj {n m : Nat} (hn : n < NPAGES) (hm : m < NPAGES) (hpath : pathOf n = pathOf m)
    (hindex : index 0 n = index 0 m) : n = m := by
  injection hpath with h₂ hpath
  injection hpath with h₁ _
  exact eq_of_index hn hm h₂ h₁ hindex

/-! ### Empty page tables -/

section Empty

variable (hempty : ∀ i, child h root i = none)
include hempty

theorem follow_of_empty (hpath : path ≠ []) : follow (child h) root path = none := by
  cases path with
  | nil => exact absurd rfl hpath
  | cons i path => rw [follow_cons, hempty i]; rfl

theorem lookup_of_empty (n : Nat) : lookup h root n = none :=
  lookup_of_follow_none (follow_of_empty hempty (by simp [pathOf]))

theorem path_of_empty (hfollow : follow (child h) root path = some a) : path = [] ∧ a = root := by
  by_cases hpath : path = []
  · subst hpath
    exact ⟨rfl, (some.inj hfollow).symm⟩
  · rw [follow_of_empty hempty hpath] at hfollow
    cases hfollow

theorem table_of_empty (a : Addr) : Table h root a ↔ a = root := by
  constructor
  · rintro ⟨path, _, hfollow⟩
    exact (path_of_empty hempty hfollow).2
  · rintro rfl
    exact node_root

theorem tree_of_empty (hroot : h root ≠ none) : Tree h root where
  owned a ha := by rwa [(table_of_empty hempty a).mp ha]
  unshared p q a _ _ hp hq := by
    rw [(path_of_empty hempty hp).1, (path_of_empty hempty hq).1]

theorem proper_of_empty (hroot : Freeable K root) : Proper K h root where
  freeable a ha := by rwa [(table_of_empty hempty a).mp ha]
  interior path t page i _ hfollow hpage hvalid := by
    obtain ⟨_, rfl⟩ := path_of_empty hempty hfollow
    have hchild := child_of_valid hpage hvalid
    rw [hempty i] at hchild
    cases hchild
  low i _ := hempty i

end Empty

/-! ### Heaps with the same tables -/

section Agreeing

variable (hsame : ∀ a, Table h root a → h' a = h a)
include hsame

theorem follow_of_agree (hpath : path.length ≤ 2) :
    follow (child h') root path = follow (child h) root path := by
  refine follow_congr ?_ hpath
  intro p a hp hfollow
  unfold child
  rw [hsame a ⟨p, by omega, hfollow⟩]

theorem table_of_agree (a : Addr) : Table h' root a ↔ Table h root a :=
  node_congr (fun _ hpath => follow_of_agree hsame hpath) a

theorem Tree.of_agree (htree : Tree h root) : Tree h' root where
  owned a ha := by
    have ha := (table_of_agree hsame a).mp ha
    rw [hsame a ha]
    exact htree.owned a ha
  unshared := htree.unshared.congr fun _ hpath => follow_of_agree hsame hpath

theorem lookup_of_agree (n : Nat) : lookup h' root n = lookup h root n := by
  have hfollow : follow (child h') root (pathOf n) = follow (child h) root (pathOf n) :=
    follow_of_agree hsame (le_refl 2)
  unfold lookup
  rw [hfollow]
  split
  · cases hcase : follow (child h) root (pathOf n) with
    | none => rfl
    | some t => rw [bind_some, bind_some, hsame t ⟨pathOf n, le_refl 2, hcase⟩]
  · rfl

theorem Proper.of_agree (hproper : Proper K h root) : Proper K h' root where
  freeable a ha := hproper.freeable a ((table_of_agree hsame a).mp ha)
  interior path t page i hpath hfollow hpage hvalid := by
    rw [follow_of_agree hsame (by omega)] at hfollow
    rw [hsame t ⟨path, by omega, hfollow⟩] at hpage
    exact hproper.interior path t page i hpath hfollow hpage hvalid
  low i hi := by
    have hchild := hproper.low i hi
    unfold child at hchild ⊢
    rwa [hsame root node_root]

end Agreeing

theorem agree_of_sub (htree : Tree h root) (hsub : h.Sub h') (a : Addr) (ha : Table h root a) :
    h' a = h a := by
  obtain ⟨page, hpage⟩ := ne_none_iff_exists'.mp (htree.owned a ha)
  rw [hsub a page hpage, hpage]

/-! ### Changes of the tables -/

/-- The heap changed only in page-table pages of `root`, some of which may be new. -/
structure Grown (K : Kernel) (root : Addr) (h h' : Heap) : Prop where
  tree : Tree h' root
  tables : ∀ a, Table h root a → Table h' root a
  new : ∀ a, Table h' root a → Table h root a ∨ h a = none
  kept : ∀ a, ¬ Table h' root a → h' a = h a
  proper : Proper K h root → Proper K h' root

namespace Grown

theorem refl (htree : Tree h root) : Grown K root h h where
  tree := htree
  tables _ ha := ha
  new _ ha := .inl ha
  kept _ _ := rfl
  proper hproper := hproper

theorem trans (hgrown : Grown K root h h') (hgrown' : Grown K root h' h'') :
    Grown K root h h'' where
  tree := hgrown'.tree
  tables a ha := hgrown'.tables a (hgrown.tables a ha)
  new a ha := by
    by_cases hmid : Table h' root a
    · exact hgrown.new a hmid
    · rw [← hgrown.kept a hmid]
      exact (hgrown'.new a ha).imp_left fun htable => absurd htable hmid
  kept a ha := by
    have hmid : ¬ Table h' root a := fun htable => ha (hgrown'.tables a htable)
    rw [hgrown'.kept a ha, hgrown.kept a hmid]
  proper hproper := hgrown'.proper (hgrown.proper hproper)

theorem keeps (hgrown : Grown K root h h') (hpage : h a = some page)
    (ha : ¬ Table h root a) : h' a = some page ∧ ¬ Table h' root a := by
  have htable : ¬ Table h' root a := by
    intro htable
    rcases hgrown.new a htable with hold | hnone
    · exact ha hold
    · rw [hpage] at hnone
      cases hnone
  exact ⟨by rw [hgrown.kept a htable, hpage], htable⟩

end Grown

/-- A new entry of an upper level only leads to a table. -/
theorem pointer_flags (pa : Addr) : (PA2PTE pa ||| PTE_V) &&& (PTE_R ||| PTE_W ||| PTE_X) = 0 := by
  have hflags : ∀ i : Fin 64,
      (PTE_R ||| PTE_W ||| PTE_X).getLsbD i = decide (i.val = 1 ∨ i.val = 2 ∨ i.val = 3) := by
    decide
  have hvalid : ∀ i : Fin 64, PTE_V.getLsbD i = decide (i.val = 0) := by decide
  apply eq_of_getLsbD_eq
  intro i hi
  rw [getLsbD_and, getLsbD_or, hflags ⟨i, hi⟩, hvalid ⟨i, hi⟩, PA2PTE, getLsbD_shiftLeft]
  simp
  omega

section Changes

/-- The heap after `walk` put a new table into an entry. -/
def graftTable (h : Heap) (t : Addr) (page : Page) (i : Fin 512) (c : Addr) : Heap :=
  (h.set c .zeros).set t (page.setPte i (PA2PTE c ||| PTE_V))

variable {c : Addr}

theorem pte2pa_pointer (hc : Freeable K c) : PTE2PA (PA2PTE c ||| PTE_V) = c := by
  rw [pte2pa_or c (by decide), roundDown_of_aligned hc.1]

section

variable (htree : Tree h root) (hpath : path.length < 2)
  (hfollow : follow (child h) root path = some t) (hpage : h t = some page)
  (hinvalid : page.pte i &&& PTE_V = 0) (hc : Freeable K c) (hfresh : h c = none)

include hpage hfresh in
theorem graftTable_new : graftTable h t page i c c = some .zeros := by
  have hct : c ≠ t := by
    rintro rfl
    rw [hpage] at hfresh
    cases hfresh
  rw [graftTable, set_of_ne hct, set_self]

include htree hpath hfollow hpage hinvalid hc hfresh

theorem graft_graftTable : Graft (child h) (child (graftTable h t page i c)) root 2 path t i c := by
  have ht : (graftTable h t page i c) t = some (page.setPte i (PA2PTE c ||| PTE_V)) := set_self
  have hcz := graftTable_new (i := i) hpage hfresh
  refine ⟨hfollow, hpath, child_of_invalid hpage hinvalid, ?_, ?_, ?_, ?_, ?_⟩
  · intro hnode
    exact htree.owned c hnode hfresh
  · have hnew : (page.setPte i (PA2PTE c ||| PTE_V)).pte i = PA2PTE c ||| PTE_V := by
      rw [Page.pte_setPte, if_pos rfl]
    rw [child_of_valid ht (by rw [hnew]; exact valid_or _), hnew, pte2pa_pointer hc]
  · intro j hj
    unfold child
    rw [ht, hpage, bind_some, bind_some, Page.pte_setPte, if_neg hj]
  · intro j
    exact child_of_invalid hcz (by rw [Page.pte_zeros]; rfl)
  · intro a hat hac
    unfold child
    rw [graftTable, set_of_ne hat, set_of_ne hac]

theorem grown_graftTable (hlow : path = [] → i.val < 256) :
    Grown K root h (graftTable h t page i c) ∧
      ∀ n, lookup (graftTable h t page i c) root n = lookup h root n := by
  have hgraft := graft_graftTable htree hpath hfollow hpage hinvalid hc hfresh
  have hnode := hgraft.node_iff htree.unshared
  have ht : (graftTable h t page i c) t = some (page.setPte i (PA2PTE c ||| PTE_V)) := set_self
  have hcz := graftTable_new (i := i) hpage hfresh
  have hother : ∀ a, a ≠ t → a ≠ c → (graftTable h t page i c) a = h a := by
    intro a hat hac
    rw [graftTable, set_of_ne hat, set_of_ne hac]
  have htnode : Table h root t := ⟨path, by omega, hfollow⟩
  refine ⟨⟨⟨?_, hgraft.unshared htree.unshared⟩, ?_, ?_, ?_, ?_⟩, ?_⟩
  · intro a ha
    rcases eq_or_ne a t with rfl | hat
    · rw [ht]
      simp
    rcases eq_or_ne a c with rfl | hac
    · rw [hcz]
      simp
    · rw [hother a hat hac]
      exact htree.owned a (((hnode a).mp ha).resolve_right hac)
  · exact fun a ha => (hnode a).mpr (.inl ha)
  · intro a ha
    rcases (hnode a).mp ha with hold | rfl
    · exact .inl hold
    · exact .inr hfresh
  · intro a ha
    have hat : a ≠ t := by
      rintro rfl
      exact ha ((hnode a).mpr (.inl htnode))
    have hac : a ≠ c := by
      rintro rfl
      exact ha ((hnode a).mpr (.inr rfl))
    exact hother a hat hac
  · intro hproper
    refine ⟨?_, ?_, ?_⟩
    · intro a ha
      rcases (hnode a).mp ha with hold | rfl
      · exact hproper.freeable a hold
      · exact hc
    · intro p u page' j hp hfollow' hpage' hvalid
      rw [hgraft.follow_eq htree.unshared (by omega)] at hfollow'
      split at hfollow'
      · cases hfollow'
        rw [hcz] at hpage'
        cases hpage'
        rw [Page.pte_zeros] at hvalid
        exact absurd rfl hvalid
      · rcases eq_or_ne u t with rfl | hut
        · rw [ht] at hpage'
          cases hpage'
          rw [Page.pte_setPte] at hvalid ⊢
          split
          · exact pointer_flags c
          · next hji =>
            rw [if_neg hji] at hvalid
            exact hproper.interior p u page j hp hfollow' hpage hvalid
        · have huc : u ≠ c := by
            rintro rfl
            exact hgraft.fresh ⟨p, by omega, hfollow'⟩
          rw [hother u hut huc] at hpage'
          exact hproper.interior p u page' j hp hfollow' hpage' hvalid
    · intro j hj
      have hold := hproper.low j hj
      rcases eq_or_ne root t with rfl | hrt
      · have hnil : path = [] := htree.unshared path [] root (by omega) (by simp) hfollow rfl
        have hji : j ≠ i := by
          rintro rfl
          have := hlow hnil
          omega
        rwa [hgraft.beside j hji]
      · have hrc : root ≠ c := by
          rintro rfl
          exact hgraft.fresh node_root
        rwa [hgraft.elsewhere root hrt hrc]
  · intro n
    have hfollow' := hgraft.follow_eq htree.unshared (q := pathOf n) (le_refl 2)
    by_cases hn : n < NPAGES
    swap
    · rw [lookup, lookup, if_neg hn, if_neg hn]
    split at hfollow'
    · next heq =>
      -- The new last table is empty, as its place was.
      have hnone : follow (child h) root (pathOf n) = none := by
        rw [heq, follow_concat, hfollow]
        exact hgraft.empty
      rw [lookup_of_follow hn hfollow' hcz, lookup_of_follow_none hnone, validEntry, if_neg]
      rw [Page.pte_zeros]
      exact not_not.mpr rfl
    · cases hcase : follow (child h) root (pathOf n) with
      | none => rw [lookup_of_follow_none hcase, lookup_of_follow_none (hfollow'.trans hcase)]
      | some u =>
        have hut : u ≠ t := by
          rintro rfl
          have hlen := htree.unshared _ _ u (le_refl 2) (by omega) hcase hfollow
          rw [← hlen] at hpath
          exact absurd hpath (lt_irrefl 2)
        have huc : u ≠ c := by
          rintro rfl
          exact hgraft.fresh ⟨pathOf n, le_refl 2, hcase⟩
        obtain ⟨page', hpage'⟩ := htree.page (le_refl 2) hcase
        rw [lookup_of_follow hn hcase hpage', lookup_of_follow hn (hfollow'.trans hcase)
          ((hother u hut huc).trans hpage')]

end

variable (K) in
theorem grown_setLeaf (htree : Tree h root) (hn : n < NPAGES)
    (hfollow : follow (child h) root (pathOf n) = some t) (hpage : h t = some page) (w : Pte) :
    Grown K root h (h.set t (page.setPte (index 0 n) w)) ∧
      (∀ a, Table (h.set t (page.setPte (index 0 n) w)) root a ↔ Table h root a) ∧
      ∀ m, lookup (h.set t (page.setPte (index 0 n) w)) root m =
        if m = n then (if w &&& PTE_V ≠ 0 then some w else none) else lookup h root m := by
  have hshort : ∀ p, p.length < 2 → follow (child h) root p ≠ some t := by
    intro p hp hpt
    rw [htree.unshared p (pathOf n) t (by omega) (le_refl 2) hpt hfollow] at hp
    exact absurd hp (lt_irrefl 2)
  have hpaths : ∀ p : List (Fin 512), p.length ≤ 2 →
      follow (child (h.set t (page.setPte (index 0 n) w))) root p = follow (child h) root p := by
    intro p hp
    refine follow_congr ?_ hp
    intro q a hq hqa
    have hat : a ≠ t := by
      rintro rfl
      exact hshort q hq hqa
    unfold child
    rw [set_of_ne hat]
  have hnode : ∀ a, Table (h.set t (page.setPte (index 0 n) w)) root a ↔ Table h root a :=
    fun a => node_congr hpaths a
  refine ⟨⟨⟨?_, htree.unshared.congr hpaths⟩, fun a ha => (hnode a).mpr ha,
    fun a ha => .inl ((hnode a).mp ha), ?_, ?_⟩, hnode, ?_⟩
  · intro a ha
    rcases eq_or_ne a t with rfl | hat
    · rw [set_self]
      simp
    · rw [set_of_ne hat]
      exact htree.owned a ((hnode a).mp ha)
  · intro a ha
    refine set_of_ne ?_
    rintro rfl
    exact ha ((hnode a).mpr ⟨pathOf n, le_refl 2, hfollow⟩)
  · intro hproper
    refine ⟨fun a ha => hproper.freeable a ((hnode a).mp ha), ?_, ?_⟩
    · intro p u page' j hp hpu hpage' hvalid
      rw [hpaths p (by omega)] at hpu
      have hut : u ≠ t := by
        rintro rfl
        exact hshort p hp hpu
      rw [set_of_ne hut] at hpage'
      exact hproper.interior p u page' j hp hpu hpage' hvalid
    · intro j hj
      have hrt : root ≠ t := by
        rintro rfl
        exact hshort [] (by decide) rfl
      have hold := hproper.low j hj
      unfold child at hold ⊢
      rwa [set_of_ne hrt]
  · intro m
    by_cases hm : m < NPAGES
    swap
    · have hmn : m ≠ n := by
        rintro rfl
        exact hm hn
      rw [lookup, lookup, if_neg hm, if_neg hm, if_neg hmn]
    have hpathm := hpaths (pathOf m) (le_refl 2)
    cases hcase : follow (child h) root (pathOf m) with
    | none =>
      have hmn : m ≠ n := by
        rintro rfl
        rw [hfollow] at hcase
        cases hcase
      rw [lookup_of_follow_none hcase, lookup_of_follow_none (hpathm.trans hcase), if_neg hmn]
    | some u =>
      obtain ⟨page', hpage'⟩ := htree.page (le_refl 2) hcase
      rcases eq_or_ne u t with rfl | hut
      · rw [lookup_of_follow hm (hpathm.trans hcase) set_self, validEntry, Page.pte_setPte,
          lookup_of_follow hm hcase hpage, validEntry]
        have hpath := htree.unshared _ _ u (le_refl 2) (le_refl 2) hcase hfollow
        by_cases hmn : m = n
        · subst hmn
          rw [if_pos rfl, if_pos rfl]
        · have hindex : index 0 m ≠ index 0 n := fun hindex =>
            hmn (pathOf_inj hm hn hpath hindex)
          rw [if_neg hindex, if_neg hmn]
      · have hmn : m ≠ n := by
          rintro rfl
          rw [hfollow] at hcase
          exact hut (some.inj hcase).symm
        rw [lookup_of_follow hm (hpathm.trans hcase) ((set_of_ne hut).trans hpage'),
          lookup_of_follow hm hcase hpage', if_neg hmn]

end Changes

end Xv6.Vm
