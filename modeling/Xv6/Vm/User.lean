import Xv6.Vm.Mapping
import Mathlib.Data.Fintype.Card

/-!
# Growing and shrinking user memory

`Image` is a page table whose first pages are user memory: each of them has a page of its own. The
loop of `uvmalloc` adds such pages one after the other (`Extended`), and `uvmdealloc` removes pages
at the end (`Shrunk`), also those that `uvmalloc` has added before it ran out of pages. There are
never more user pages than pages of physical memory, so user memory does not reach the trap frame.
-/

namespace Xv6.Vm

open Interleave Bytes Radix LocalSpec Option Heap

variable {K : Kernel} {root : Addr} {owning : Prop} {allowed : String → Prop} {h h₁ h₂ h' : Heap}

/-! ### Changes of a part of the map -/

/-- The tables may have grown, and the map is the same. -/
structure SameMap (K : Kernel) (root : Addr) (h h' : Heap) : Prop where
  grown : Grown K root h h'
  lookup : ∀ n, lookup h' root n = lookup h root n

namespace SameMap

theorem refl (htree : Tree h root) : SameMap K root h h := ⟨.refl htree, fun _ => rfl⟩

end SameMap

/-- The pages of the entries from `lo` to below `hi`. -/
def Frames (h : Heap) (root : Addr) (lo hi : Nat) (a : Addr) : Prop :=
  ∃ n w, lo ≤ n ∧ n < hi ∧ lookup h root n = some w ∧ PTE2PA w = a

theorem framed_eq_frames (first last : Nat) :
    Framed h root first last = Frames h root first (last + 1) := by
  unfold Framed Frames
  simp only [Nat.lt_succ_iff]

variable {lo hi : Nat}

theorem frames_congr (hlookup : ∀ n, n < hi → lookup h' root n = lookup h root n) :
    Frames h' root lo hi = Frames h root lo hi := by
  funext a
  refine propext (exists_congr fun n => exists_congr fun w => and_congr_right fun _ => ?_)
  exact and_congr_right fun hn => by rw [hlookup n hn]

theorem frames_of_agree (hsame : ∀ a, Table h root a → h' a = h a) :
    Frames h' root lo hi = Frames h root lo hi := frames_congr fun n _ => lookup_of_agree hsame n

/-- A page of user memory: a leaf for a page of its own. -/
structure UserPage (K : Kernel) (h : Heap) (root : Addr) (n : Nat) (w : Pte) (page : Page) :
    Prop where
  lookup : lookup h root n = some w
  leaf : PTE_FLAGS w ≠ PTE_V
  freeable : Freeable K (PTE2PA w)
  apart : ¬ Table h root (PTE2PA w)
  page : h (PTE2PA w) = some page

variable {n : Nat} {page : Page}

theorem UserPage.congr {w : Pte} (huser : UserPage K h root n w page)
    (hlookup : Vm.lookup h' root n = Vm.lookup h root n) (hpage : h' (PTE2PA w) = some page)
    (hapart : ¬ Table h' root (PTE2PA w)) : UserPage K h' root n w page :=
  ⟨hlookup.trans huser.lookup, huser.leaf, huser.freeable, hapart, hpage⟩

/-- Pages from `lo` to below `hi` were added: page `n` has the flags `flags n` and the contents
`content n`, and it was not a page of the heap before. -/
structure Extended (K : Kernel) (root : Addr) (flags : Nat → Pte) (content : Nat → Page)
    (lo hi : Nat)
    (h h' : Heap) : Prop where
  grown : Grown K root h (h'.without (Frames h' root lo hi))
  lookup : ∀ n, ¬ (lo ≤ n ∧ n < hi) → lookup h' root n = lookup h root n
  added : ∀ n, lo ≤ n → n < hi → ∃ w, UserPage K h' root n w (content n) ∧
    PTE_FLAGS w = flags n ∧ h (PTE2PA w) = none
  distinct : ∀ n m w w', lo ≤ n → n < hi → lo ≤ m → m < hi → Vm.lookup h' root n = some w →
    Vm.lookup h' root m = some w' → PTE2PA w = PTE2PA w' → n = m

namespace Extended

variable {flags : Nat → Pte} {content : Nat → Page} {lo mid hi : Nat}

section

variable (hext : Extended K root flags content lo hi h h')
include hext

variable {a : Addr}

theorem frame (ha : Frames h' root lo hi a) : ¬ Table h' root a ∧ h a = none ∧ h' a ≠ none := by
  obtain ⟨n, w, hlo, hhi, hw, rfl⟩ := ha
  obtain ⟨w', huser, _, hnone⟩ := hext.added n hlo hhi
  obtain rfl : w = w' := some.inj (hw.symm.trans huser.lookup)
  exact ⟨huser.apart, hnone, by simp [huser.page]⟩

theorem tree : Tree h' root := hext.grown.tree.of_agree (agree_of_without hext.grown.tree)

theorem proper (hproper : Proper K h root) : Proper K h' root :=
  (hext.grown.proper hproper).of_agree (agree_of_without hext.grown.tree)

theorem table (ha : Table h root a) : Table h' root a :=
  (table_of_agree (agree_of_without hext.grown.tree) a).mpr (hext.grown.tables a ha)

theorem keeps
    (hpage : h a = some page) (ha : ¬ Table h root a) : h' a = some page ∧ ¬ Table h' root a := by
  obtain ⟨hkept, htable⟩ := hext.grown.keeps hpage ha
  have hframe : ¬ Frames h' root lo hi a := fun hf => by
    rw [without_of hf] at hkept
    cases hkept
  rw [without_of_not hframe] at hkept
  exact ⟨hkept, fun htable' =>
    htable ((table_of_agree (agree_of_without hext.grown.tree) a).mp htable')⟩

end

theorem of_same (hsame : SameMap K root h h') : Extended K root flags content lo lo h h' where
  grown := by
    have hnone : h'.without (Frames h' root lo lo) = h' := by
      funext a
      refine without_of_not ?_
      rintro ⟨n, _, hlo, hhi, _⟩
      omega
    rw [hnone]
    exact hsame.grown
  lookup n _ := hsame.lookup n
  added n hlo hhi := absurd hhi (by omega)
  distinct n _ _ _ hlo hhi := absurd hhi (by omega)

theorem trans (hext : Extended K root flags content lo mid h h₁)
    (hext' : Extended K root flags content mid hi h₁ h₂) (hlo : lo ≤ mid) (hhi : mid ≤ hi) :
    Extended K root flags content lo hi h h₂ := by
  have hold : ∀ n, n < mid → Vm.lookup h₂ root n = Vm.lookup h₁ root n := fun n hn =>
    hext'.lookup n (by omega)
  have hframes : ∀ a, Frames h₂ root lo hi a ↔ Frames h₁ root lo mid a ∨
      Frames h₂ root mid hi a := by
    intro a
    constructor
    · rintro ⟨n, w, hn, hn', hw, hpa⟩
      by_cases hmid : n < mid
      · exact .inl ⟨n, w, hn, hmid, by rw [← hold n hmid, hw], hpa⟩
      · exact .inr ⟨n, w, by omega, hn', hw, hpa⟩
    · rintro (⟨n, w, hn, hn', hw, hpa⟩ | ⟨n, w, hn, hn', hw, hpa⟩)
      · exact ⟨n, w, hn, by omega, by rw [hold n hn', hw], hpa⟩
      · exact ⟨n, w, by omega, hn', hw, hpa⟩
  have huser : ∀ n, lo ≤ n → n < mid → ∃ w, UserPage K h₂ root n w (content n) ∧
      PTE_FLAGS w = flags n ∧ h (PTE2PA w) = none ∧ h₁ (PTE2PA w) ≠ none := by
    intro n hn hn'
    obtain ⟨w, huser, hflags, hnone⟩ := hext.added n hn hn'
    obtain ⟨hkept, hapart⟩ := hext'.keeps huser.page huser.apart
    exact ⟨w, huser.congr (hold n hn') hkept hapart, hflags, hnone, by simp [huser.page]⟩
  refine ⟨?_, ?_, ?_, ?_⟩
  · have hgone : h₂.without (Frames h₂ root lo hi) =
        (h₂.without (Frames h₂ root mid hi)).without (Frames h₁ root lo mid) := by
      rw [without_without]
      congr 1
      funext a
      rw [hframes, or_comm]
    rw [hgone]
    refine hext.grown.trans (hext'.grown.without ?_)
    intro a ha htable
    obtain ⟨hapart, _, hown⟩ := hext.frame ha
    rcases hext'.grown.new a htable with hold | hnone
    · exact hapart hold
    · exact hown hnone
  · intro n hn
    rw [hext'.lookup n (by omega), hext.lookup n (by omega)]
  · intro n hn hn'
    by_cases hmid : n < mid
    · obtain ⟨w, huser, hflags, hnone, _⟩ := huser n hn hmid
      exact ⟨w, huser, hflags, hnone⟩
    · obtain ⟨w, huser', hflags, hnone⟩ := hext'.added n (by omega) hn'
      refine ⟨w, huser', hflags, ?_⟩
      -- A page that is new to `h₁` was not in `h`, whose pages stay.
      by_contra hsome
      obtain ⟨page, hpage⟩ := ne_none_iff_exists'.mp hsome
      by_cases htable : Table h root (PTE2PA w)
      · exact hext.tree.owned _ (hext.table htable) hnone
      · rw [(hext.keeps hpage htable).1] at hnone
        cases hnone
  · intro n m w w' hn hn' hm hm' hw hw' heq
    by_cases hnmid : n < mid
    · by_cases hmmid : m < mid
      · rw [hold n hnmid] at hw
        rw [hold m hmmid] at hw'
        exact hext.distinct n m w w' hn hnmid hm hmmid hw hw' heq
      · have hfresh := (hext'.frame ⟨m, w', by omega, hm', hw', rfl⟩).2.1
        rw [hold n hnmid] at hw
        exact absurd (heq ▸ hfresh) (hext.frame ⟨n, w, hn, hnmid, hw, rfl⟩).2.2
    · by_cases hmmid : m < mid
      · have hfresh := (hext'.frame ⟨n, w, by omega, hn', hw, rfl⟩).2.1
        rw [hold m hmmid] at hw'
        exact absurd (heq ▸ hfresh) (hext.frame ⟨m, w', hm, hmmid, hw', rfl⟩).2.2
      · exact hext'.distinct n m w w' (by omega) hn' (by omega) hm' hw hw' heq

end Extended

/-! ### One page -/

variable {mem : Addr} {page : Page}

theorem Grown.erase (hgrown : Grown K root (h.set mem page) h')
    (hfresh : h mem = none) (htable : ¬ Table h' root mem) : Grown K root h (h'.erase mem) := by
  have herase : (h.set mem page).without (· = mem) = h := by
    rw [← erase_eq_without]
    funext a
    rcases eq_or_ne a mem with rfl | hne
    · rw [erase_self, hfresh]
    · rw [erase_of_ne hne, set_of_ne hne]
  have hgone : Grown K root ((h.set mem page).without (· = mem)) (h'.without (· = mem)) :=
    hgrown.without (by rintro a rfl; exact htable)
  rwa [herase, ← erase_eq_without] at hgone

theorem inRange_page (hn : n < NPAGES) : InRange (pageAt n) 4096#64 ∧
    pageOf (pageAt n) = n ∧ lastPage (pageAt n) 4096#64 = n ∧ pageCount (pageAt n) 4096#64 = 1 := by
  have hpages := npages_eq
  have hsize : PGSIZE = 4096 := rfl
  have hmax : MAXVA.toNat = 274877906944 := rfl
  have hnat : (pageAt n).toNat = n * 4096 := toNat_pageAt (by omega)
  have hpage : pageOf (pageAt n) = n := pageOf_pageAt (by omega)
  have hlast : lastPage (pageAt n) 4096#64 = n := by
    rw [lastPage, hnat, hsize, BitVec.toNat_ofNat]
    omega
  refine ⟨⟨by decide, ?_⟩, hpage, hlast, ?_⟩
  · rw [hnat, hmax, BitVec.toNat_ofNat]
    omega
  · rw [pageCount, hlast, hpage]
    omega

section

variable {perm : Pte} (htree : Tree h root) (hn : n < NPAGES) (hnone : lookup h root n = none)
  (hmem : Freeable K mem) (hfresh : h mem = none) (hperm : perm.toNat < 1024)
  (hleaf : perm ||| PTE_V ≠ PTE_V)
include htree hfresh

theorem agree_set (a : Addr) (ha : Table h root a) : (h.set mem page) a = h a := by
  refine set_of_ne ?_
  rintro rfl
  exact htree.owned a ha hfresh

include hmem hperm hleaf

/-- A page that is not in the heap yet joins it and is mapped at page `n`. -/
theorem extended_of_mapped (hgrown : Grown K root (h.set mem page) h')
    (hlookup : ∀ m, lookup h' root m = mapRange (lookup (h.set mem page) root) n 1 mem perm m) :
    Extended K root (fun _ => perm ||| PTE_V) (fun _ => page) n (n + 1) h h' := by
  have hnotable : ¬ Table h root mem := fun htable => htree.owned mem htable hfresh
  have hsame : ∀ a, Table h root a → (h.set mem page) a = h a := agree_set htree hfresh
  have hlt : (perm ||| PTE_V).toNat < 1024 := or_valid_lt hperm
  obtain ⟨w, hw⟩ : ∃ w, w = newEntry mem perm := ⟨_, rfl⟩
  have hpa : PTE2PA w = mem := by
    rw [hw, newEntry, BitVec.or_assoc, pte2pa_or _ hlt, roundDown_of_aligned hmem.1]
  have hflags : PTE_FLAGS w = perm ||| PTE_V := by
    rw [hw, newEntry, BitVec.or_assoc, flags_or _ hlt]
  have hmap : ∀ m, lookup h' root m = if m = n then some w else lookup h root m := by
    intro m
    rw [hlookup, mapRange, lookup_of_agree hsame]
    by_cases hm : m = n
    · subst hm
      rw [if_pos (by omega), if_pos rfl, Nat.sub_self, hw]
      show some (newEntry (mem + 0#64) perm) = _
      rw [BitVec.add_zero]
    · rw [if_neg (by omega), if_neg hm]
  obtain ⟨hpage, htable⟩ := hgrown.keeps set_self fun htable =>
    hnotable ((table_of_agree hsame mem).mp htable)
  have hframes : Frames h' root n (n + 1) = (· = mem) := by
    funext a
    rw [eq_iff_iff]
    constructor
    · rintro ⟨m, v, hm, hm', hv, rfl⟩
      obtain rfl : m = n := by omega
      rw [hmap, if_pos rfl] at hv
      rw [← some.inj hv, hpa]
    · rintro rfl
      exact ⟨n, w, le_refl _, by omega, by rw [hmap, if_pos rfl], hpa⟩
  refine ⟨?_, ?_, ?_, ?_⟩
  · rw [hframes, ← erase_eq_without]
    exact hgrown.erase hfresh htable
  · intro m hm
    rw [hmap, if_neg (by omega)]
  · intro m hm hm'
    obtain rfl : m = n := by omega
    refine ⟨w,
      ⟨by rw [hmap, if_pos rfl], by rwa [hflags], by rwa [hpa], by rwa [hpa], by rwa [hpa]⟩,
      hflags, by rw [hpa, hfresh]⟩
  · intro m m' _ _ hm hm' hk hk' _ _ _
    omega

include hn hnone

/-- The end of a round of `uvmalloc` or `uvmcopy`: the new page is mapped, or freed again. -/
theorem mapNew_safe : Safe K allowed (fun ok h' => ok = true ∧
          Extended K root (fun _ => perm ||| PTE_V) (fun _ => page) n (n + 1) h h' ∨
        ok = false ∧ SameMap K root h h')
      (do
        let r ← mappages root (pageAt n) 4096#64 mem perm
        if r ≠ 0 then
          kfree mem
          pure false
        else pure true)
      (h.set mem page) := by
  obtain ⟨hrange, hpage, hlast, hcount⟩ := inRange_page hn
  have hsame : ∀ a, Table h root a → (h.set mem page) a = h a := agree_set htree hfresh
  have hnotable : ¬ Table (h.set mem page) root mem := fun htable =>
    htree.owned mem ((table_of_agree hsame mem).mp htable) hfresh
  refine (mappages_safe trivial (htree.of_agree hsame) hrange ?_).andThen ?_
  · intro m hm hm'
    obtain rfl : m = n := by omega
    rw [lookup_of_agree hsame, hnone]
  · intro r h' hmapped
    rw [hpage, hcount] at hmapped
    rcases hmapped.result with ⟨rfl, hall⟩ | ⟨rfl, part, hpart, hsome⟩
    · exact Safe.ret (.inl ⟨rfl, extended_of_mapped htree hmem hfresh hperm hleaf
        hmapped.grown hall⟩)
    · obtain rfl : part = 0 := by omega
      obtain ⟨hkept, htable⟩ := hmapped.grown.keeps set_self hnotable
      have hown : h' mem ≠ none := by
        rw [hkept]
        simp
      refine safe_kfree (fun _ => hown) hmem (Safe.ret (.inr ⟨rfl, ?_⟩))
      have hgrown := hmapped.grown.erase hfresh htable
      refine ⟨hgrown, fun m => ?_⟩
      have hagree : ∀ a, Table h' root a → (h'.erase mem) a = h' a := by
        intro a ha
        refine erase_of_ne ?_
        rintro rfl
        exact htable ha
      rw [lookup_of_agree hagree, hsome, mapRange_zero, lookup_of_agree hsame]

end

/-- The flags of the entries that `uvmalloc` makes. -/
def heapFlags : Pte := userFlags ||| PTE_V

theorem uvmallocPage_safe (htree : Tree h root) (hn : n < NPAGES) (hnone : lookup h root n = none) :
    Safe K allowed (fun ok h' => ok = true ∧
          Extended K root (fun _ => heapFlags) (fun _ => .zeros) n (n + 1) h h' ∨
        ok = false ∧ SameMap K root h h')
      (uvmallocPage root (pageAt n)) h := by
  refine safe_kalloc trivial ?_ ?_
  · rw [if_pos rfl]
    exact Safe.ret (.inr ⟨rfl, .refl htree⟩)
  · intro mem hmem hne hfresh
    rw [if_neg hne]
    refine safe_modify set_self ?_
    rw [set_set]
    exact mapNew_safe htree hn hnone hmem hfresh (by decide) (by decide)

/-! ### Images -/

/-- The number of pages below the trap frame. -/
def USERPAGES : Nat := NPAGES - 2

/-- The number of pages that `sz` bytes take. -/
def pagesOf (sz : Addr) : Nat := (sz.toNat + 4095) / 4096

/-- A page table with `pages` pages of user memory, each of them on a page of its own, and nothing
else below the trap frame. -/
structure Image (K : Kernel) (h : Heap) (root : Addr) (pages : Nat) : Prop where
  tree : Tree h root
  proper : Proper K h root
  mapped : ∀ n, n < pages → ∃ w page, UserPage K h root n w page
  unmapped : ∀ n, pages ≤ n → n < USERPAGES → lookup h root n = none
  distinct : ∀ n m w w', n < pages → m < pages → lookup h root n = some w →
    lookup h root m = some w' → PTE2PA w = PTE2PA w' → n = m

namespace Image

variable {pages : Nat}

section

variable (himage : Image K h root pages)
include himage

theorem pages_le : pages ≤ 32768 := by
  choose entry content huser using fun n : Fin pages => himage.mapped n n.isLt
  have hram : ∀ n, (PTE2PA (entry n)).toNat / 4096 - 0x80000 < 32768 ∧
      0x80000000 ≤ (PTE2PA (entry n)).toNat := by
    intro n
    have hfree := (huser n).freeable
    have hbase : 0x80000000 ≤ K.kend.toNat := K.loaded
    have hlow : K.kend.toNat ≤ (PTE2PA (entry n)).toNat := hfree.2.1
    have hhigh : (PTE2PA (entry n)).toNat < 0x88000000 := hfree.2.2
    omega
  obtain ⟨frame, hframe⟩ : ∃ frame : Fin pages → Fin 32768,
      ∀ n, (frame n).val = (PTE2PA (entry n)).toNat / 4096 - 0x80000 :=
    ⟨fun n => ⟨_, (hram n).1⟩, fun _ => rfl⟩
  have hinj : Function.Injective frame := by
    intro n m heq
    have hval : (PTE2PA (entry n)).toNat / 4096 - 0x80000 =
        (PTE2PA (entry m)).toNat / 4096 - 0x80000 := by
      rw [← hframe n, heq, hframe m]
    have hsize : PGSIZE = 4096 := rfl
    have hn := (huser n).freeable.1
    have hm := (huser m).freeable.1
    have hbn := (hram n).2
    have hbm := (hram m).2
    rw [hsize] at hn hm
    have hnat : (PTE2PA (entry n)).toNat = (PTE2PA (entry m)).toNat := by omega
    have hsame : PTE2PA (entry n) = PTE2PA (entry m) := BitVec.eq_of_toNat_eq hnat
    exact Fin.ext (himage.distinct n m _ _ n.isLt m.isLt (huser n).lookup (huser m).lookup hsame)
  have hcard := Fintype.card_le_of_injective _ hinj
  rwa [Fintype.card_fin, Fintype.card_fin] at hcard

theorem extend {flags : Nat → Pte} {content : Nat → Page} {pages' : Nat} (hle : pages ≤ pages')
    (hext : Extended K root flags content pages pages' h h') : Image K h' root pages' where
  tree := hext.tree
  proper := hext.proper himage.proper
  mapped n hn := by
    by_cases hold : n < pages
    · obtain ⟨w, page, huser⟩ := himage.mapped n hold
      obtain ⟨hkept, hapart⟩ := hext.keeps huser.page huser.apart
      exact ⟨w, page, huser.congr (hext.lookup n (by omega)) hkept hapart⟩
    · obtain ⟨w, huser, _⟩ := hext.added n (by omega) hn
      exact ⟨w, content n, huser⟩
  unmapped n hn hn' := by
    rw [hext.lookup n (by omega)]
    exact himage.unmapped n (by omega) hn'
  distinct n m w w' hn hm hw hw' heq := by
    -- A page that is new is none of the old ones, which are pages of the heap.
    have hold : ∀ k v, k < pages → lookup h' root k = some v → h (PTE2PA v) ≠ none := by
      intro k v hk hv
      obtain ⟨v', page, huser⟩ := himage.mapped k hk
      rw [hext.lookup k (by omega), huser.lookup] at hv
      rw [← some.inj hv, huser.page]
      simp
    by_cases hnold : n < pages
    · by_cases hmold : m < pages
      · rw [hext.lookup n (by omega)] at hw
        rw [hext.lookup m (by omega)] at hw'
        exact himage.distinct n m w w' hnold hmold hw hw' heq
      · have hnone := (hext.frame ⟨m, w', by omega, hm, hw', rfl⟩).2.1
        exact absurd (heq ▸ hnone) (hold n w hnold hw)
    · by_cases hmold : m < pages
      · have hnone := (hext.frame ⟨n, w, by omega, hn, hw, rfl⟩).2.1
        exact absurd (heq ▸ hnone) (hold m w' hmold hw')
      · exact hext.distinct n m w w' (by omega) hn (by omega) hm hw hw' heq

/-- The tables may grow, and the entries above user memory may change. -/
theorem grown (hgrown : Grown K root h h')
    (hlookup : ∀ n, n < USERPAGES → lookup h' root n = lookup h root n) :
    Image K h' root pages := by
  have hlimit : 32768 ≤ USERPAGES := by decide
  have hpages : pages ≤ USERPAGES := le_trans himage.pages_le hlimit
  refine ⟨hgrown.tree, hgrown.proper himage.proper, ?_, ?_, ?_⟩
  · intro n hn
    obtain ⟨w, page, huser⟩ := himage.mapped n hn
    obtain ⟨hkept, hapart⟩ := hgrown.keeps huser.page huser.apart
    exact ⟨w, page, huser.congr (hlookup n (by omega)) hkept hapart⟩
  · intro n hn hn'
    rw [hlookup n hn']
    exact himage.unmapped n hn hn'
  · intro n m w w' hn hm hw hw' heq
    rw [hlookup n (by omega)] at hw
    rw [hlookup m (by omega)] at hw'
    exact himage.distinct n m w w' hn hm hw hw' heq

theorem same (hsame : SameMap K root h h') :
    Image K h' root pages := himage.grown hsame.grown fun n _ => hsame.lookup n

end

theorem of_empty (hempty : ∀ i, child h root i = none) (howned : h root ≠ none)
    (hroot : Freeable K root) : Image K h root 0 where
  tree := tree_of_empty hempty howned
  proper := proper_of_empty hempty hroot
  mapped n hn := by omega
  unmapped n _ _ := lookup_of_empty hempty n
  distinct n _ _ _ hn := by omega

end Image

/-! ### Fewer pages -/

/-- The pages from `lo` to below `hi` are user memory, each on a page of its own. -/
structure Users (K : Kernel) (h : Heap) (root : Addr) (lo hi : Nat) : Prop where
  mapped : ∀ n, lo ≤ n → n < hi → ∃ w page, UserPage K h root n w page
  distinct : ∀ n m w w', lo ≤ n → n < hi → lo ≤ m → m < hi → lookup h root n = some w →
    lookup h root m = some w' → PTE2PA w = PTE2PA w' → n = m

theorem Image.users (himage : Image K h root hi) : Users K h root lo hi where
  mapped n _ hn := himage.mapped n hn
  distinct n m w w' _ hn _ hm := himage.distinct n m w w' hn hm

theorem Extended.users {flags : Nat → Pte} {content : Nat → Page}
    (hext : Extended K root flags content lo hi h h') : Users K h' root lo hi where
  mapped n hlo hhi := by
    obtain ⟨w, huser, _⟩ := hext.added n hlo hhi
    exact ⟨w, _, huser⟩
  distinct := hext.distinct

/-- The pages from `lo` to below `hi` are gone. -/
structure Shrunk (K : Kernel) (root : Addr) (lo hi : Nat) (h h' : Heap) : Prop where
  grown : Grown K root (h.without (Frames h root lo hi)) h'
  lookup : ∀ n, lookup h' root n = if lo ≤ n ∧ n < hi then none else lookup h root n

namespace Shrunk

variable {lo hi : Nat}

theorem refl (htree : Tree h root) : Shrunk K root lo lo h h where
  grown := by
    have hnone : h.without (Frames h root lo lo) = h := by
      funext a
      refine without_of_not ?_
      rintro ⟨n, _, hlo, hhi, _⟩
      omega
    rw [hnone]
    exact .refl htree
  lookup n := by rw [if_neg (by omega)]

/-- A page that is neither a table nor removed stays what it is. -/
theorem keeps (hshrunk : Shrunk K root lo hi h h') {a : Addr}
    (hpage : h a = some page) (htable : ¬ Table h root a) (hframe : ¬ Frames h root lo hi a)
    (hfreed : ∀ b, Frames h root lo hi b → ¬ Table h root b) :
    h' a = some page ∧ ¬ Table h' root a := by
  have hsame : ∀ b, Table h root b → h.without (Frames h root lo hi) b = h b := fun b hb =>
    without_of_not fun hf => hfreed b hf hb
  refine hshrunk.grown.keeps ?_ fun htab => htable ((table_of_agree hsame a).mp htab)
  rw [without_of_not hframe, hpage]

end Shrunk

theorem Extended.undo {flags : Nat → Pte} {content : Nat → Page}
    (hext : Extended K root flags content lo hi h h₁) (hshrunk : Shrunk K root lo hi h₁ h₂)
    (hnone : ∀ n, lo ≤ n → n < hi → Vm.lookup h root n = none) : SameMap K root h h₂ := by
  refine ⟨hext.grown.trans hshrunk.grown, fun n => ?_⟩
  rw [hshrunk.lookup]
  split
  · next hn => exact (hnone n hn.1 hn.2).symm
  · next hn => exact hext.lookup n hn

theorem Extended.congr {flags flags' : Nat → Pte} {content content' : Nat → Page}
    (hext : Extended K root flags content lo hi h h')
    (hsame : ∀ n, lo ≤ n → n < hi → flags' n = flags n ∧ content' n = content n) :
    Extended K root flags' content' lo hi h h' where
  grown := hext.grown
  lookup := hext.lookup
  added n hlo hhi := by
    obtain ⟨hflags, hcontent⟩ := hsame n hlo hhi
    rw [hflags, hcontent]
    exact hext.added n hlo hhi
  distinct := hext.distinct

theorem Image.frame_not_table (himage : Image K h root hi) (b : Addr)
    (hb : Frames h root lo hi b) : ¬ Table h root b := by
  obtain ⟨n, w, _, hn, hw, rfl⟩ := hb
  obtain ⟨w', page, huser⟩ := himage.mapped n hn
  rw [huser.lookup] at hw
  rw [← some.inj hw]
  exact huser.apart

theorem UserPage.shrink {lo hi n : Nat} {w : Pte} (huser : UserPage K h root n w page)
    (himage : Image K h root hi) (hshrunk : Shrunk K root lo hi h h') (hn : n < lo)
    (hle : lo ≤ hi) :
    UserPage K h' root n w page := by
  have hother : ¬ Frames h root lo hi (PTE2PA w) := by
    rintro ⟨m, w', hm, hm', hw', heq⟩
    have := himage.distinct m n w' w hm' (by omega) hw' huser.lookup heq
    omega
  obtain ⟨hkept, hapart⟩ := hshrunk.keeps huser.page huser.apart hother himage.frame_not_table
  exact huser.congr (by rw [hshrunk.lookup, if_neg (by omega)]) hkept hapart

theorem Image.shrink (himage : Image K h root hi) (hle : lo ≤ hi)
    (hshrunk : Shrunk K root lo hi h h') : Image K h' root lo := by
  have hsame : ∀ b, Table h root b → h.without (Frames h root lo hi) b = h b := fun b hb =>
    without_of_not fun hf => himage.frame_not_table b hf hb
  have hold : ∀ n, n < lo → lookup h' root n = lookup h root n := fun n hn => by
    rw [hshrunk.lookup, if_neg (by omega)]
  refine ⟨hshrunk.grown.tree, hshrunk.grown.proper (himage.proper.of_agree hsame), ?_, ?_, ?_⟩
  · intro n hn
    obtain ⟨w, page, huser⟩ := himage.mapped n (by omega)
    exact ⟨w, page, huser.shrink himage hshrunk hn hle⟩
  · intro n hn hn'
    rw [hshrunk.lookup]
    split
    · rfl
    · exact himage.unmapped n (by omega) hn'
  · intro n m w w' hn hm hw hw' heq
    rw [hold n hn] at hw
    rw [hold m hm] at hw'
    exact himage.distinct n m w w' (by omega) (by omega) hw hw' heq

theorem pagesOf_pageAt (hn : n < 2 ^ 51) : pagesOf (pageAt n) = n := by
  have hnat : (pageAt n).toNat = n * 4096 := toNat_pageAt (by omega)
  rw [pagesOf, hnat]
  omega

theorem roundUp_pages {sz : Addr} (h : pagesOf sz ≤ NPAGES) :
    PGROUNDUP sz = pageAt (pagesOf sz) := by
  have hpages := npages_eq
  unfold pagesOf at h
  exact roundUp_eq (by omega)

theorem Users.removable (husers : Users K h root lo hi) (hlt : lo < hi) :
    Removable K True h root lo (hi - 1) true where
  leaf n hn hn' := by
    obtain ⟨w, page, huser⟩ := husers.mapped n hn (by omega)
    exact ⟨w, huser.lookup, huser.leaf⟩
  freeable _ a ha := by
    obtain ⟨n, w, hn, hn', hw, rfl⟩ := ha
    obtain ⟨w', page, huser⟩ := husers.mapped n hn (by omega)
    obtain rfl : w = w' := some.inj (hw.symm.trans huser.lookup)
    exact ⟨huser.freeable, huser.apart, fun _ => by simp [huser.page]⟩
  distinct _ _ n m w w' hn hn' hm hm' := husers.distinct n m w w' hn (by omega) hm (by omega)

theorem shrunk_of_unmapped (hlt : lo < hi)
    (hunmapped : Unmapped K root lo (hi - 1) true h h') : Shrunk K root lo hi h h' where
  grown := by
    have hgrown := hunmapped.grown
    simp only [true_and, framed_eq_frames, Nat.sub_add_cancel (Nat.one_le_of_lt hlt)] at hgrown
    exact hgrown
  lookup n := by
    rw [hunmapped.lookup]
    by_cases hn : lo ≤ n ∧ n < hi
    · rw [if_pos hn, if_pos (by omega)]
    · rw [if_neg hn, if_neg (by omega)]

theorem inRange_dealloc {lo : Nat} {oldsz : Addr} (hlt : lo < pagesOf oldsz)
    (hhigh : pagesOf oldsz ≤ NPAGES) :
    InRange (pageAt lo) (oldsz - pageAt lo) ∧ pageOf (pageAt lo) = lo ∧
      lastPage (pageAt lo) (oldsz - pageAt lo) = pagesOf oldsz - 1 := by
  have hpages := npages_eq
  have hmax : MAXVA.toNat = 274877906944 := rfl
  have hsize : PGSIZE = 4096 := rfl
  have hnat : (pageAt lo).toNat = lo * 4096 := toNat_pageAt (by omega)
  unfold pagesOf at hlt hhigh ⊢
  have hsub : (oldsz - pageAt lo).toNat = oldsz.toNat - lo * 4096 := by
    rw [BitVec.toNat_sub, hnat]
    omega
  refine ⟨⟨by omega, by omega⟩, pageOf_pageAt (by omega), ?_⟩
  rw [lastPage, hnat, hsub, hsize]
  omega

theorem uvmdealloc_safe {oldsz newsz : Addr} (htree : Tree h root) (hlt : newsz < oldsz)
    (hhigh : pagesOf oldsz ≤ NPAGES)
    (husers : Users K h root (pagesOf newsz) (pagesOf oldsz)) :
    Safe K allowed (fun r h' => r = newsz ∧ Shrunk K root (pagesOf newsz) (pagesOf oldsz) h h')
      (uvmdealloc root oldsz newsz) h := by
  have hpages := npages_eq
  have hnat : newsz.toNat < oldsz.toNat := hlt
  have hle : pagesOf newsz ≤ pagesOf oldsz := by
    unfold pagesOf
    omega
  unfold uvmdealloc
  rw [if_neg (by rw [BitVec.le_def]; omega), roundUp_pages (by omega), roundUp_pages hhigh]
  have hcond : pageAt (pagesOf newsz) < pageAt (pagesOf oldsz) ↔ pagesOf newsz < pagesOf oldsz := by
    rw [BitVec.lt_def, toNat_pageAt (by omega), toNat_pageAt (by omega)]
    exact Nat.mul_lt_mul_right (by decide)
  by_cases hpage : pagesOf newsz < pagesOf oldsz
  · obtain ⟨hrange, hfirst, hlast⟩ := inRange_dealloc hpage hhigh
    rw [if_pos (hcond.mpr hpage)]
    refine (uvmunmap_safe htree hrange ?_).andThen ?_
    · rw [hfirst, hlast]
      exact husers.removable hpage
    · intro _ h' hunmapped
      rw [hfirst, hlast] at hunmapped
      exact Safe.ret ⟨rfl, shrunk_of_unmapped hpage hunmapped⟩
  · have heq : pagesOf newsz = pagesOf oldsz := by omega
    rw [if_neg (mt hcond.mp hpage), heq]
    exact Safe.ret ⟨rfl, .refl htree⟩

theorem uvmunmapAll_safe {sz : Addr} (htree : Tree h root) (hpos : 0 < pagesOf sz)
    (hhigh : pagesOf sz ≤ NPAGES) (husers : Users K h root 0 (pagesOf sz)) :
    Safe K allowed (fun _ h' => Shrunk K root 0 (pagesOf sz) h h') (uvmunmap root 0 sz true) h := by
  obtain ⟨hrange, hfirst, hlast⟩ := inRange_dealloc hpos hhigh
  have hsub : sz - pageAt 0 = sz := BitVec.sub_zero _
  rw [hsub] at hrange hlast
  refine (uvmunmap_safe htree hrange ?_).mono ?_
  · rw [hfirst, hlast]
    exact husers.removable hpos
  · intro _ h' hunmapped
    rw [hfirst, hlast] at hunmapped
    exact shrunk_of_unmapped hpos hunmapped

end Xv6.Vm
