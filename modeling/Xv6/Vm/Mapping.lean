import Xv6.Vm.PageTable

/-!
# `walk`, `mappages` and `uvmunmap`

What the three functions do to the tree of tables and to the map it stands for, for code that owns
the page-table pages. The loops go over page numbers: a round of `mappages` adds one entry and a
round of `uvmunmap` removes one.
-/

namespace Xv6.Vm

open Interleave Radix LocalSpec BitVec Heap

variable {K : Kernel} {root va size t : Addr} {owning : Prop} {allowed : String → Prop}
  {h h' : Heap}
  {n level : Nat}

/-! ### walk -/

/-- The part above a level of the path to the last table for page `n`. -/
def above (n level : Nat) : List (Fin 512) := (pathOf n).take (2 - level)

theorem above_eq (hlevel : level < 2) :
    above n level = above n (level + 1) ++ [index (level + 1) n] := by
  obtain rfl | rfl : level = 0 ∨ level = 1 := by omega
  · rfl
  · rfl

theorem length_above (n level : Nat) : (above n level).length ≤ 2 - level := by
  exact List.length_take_le _ _

theorem follow_pathOf_none (hfollow : follow (child h) root (above n level) = none) :
    follow (child h) root (pathOf n) = none := by
  rw [← List.take_append_drop (2 - level) (pathOf n), follow_append]
  unfold above at hfollow
  rw [hfollow]
  rfl

/-- The pointer that `walk` returns for page `n`. -/
def pointer (h : Heap) (root : Addr) (n : Nat) : Option PtePtr :=
  (follow (child h) root (pathOf n)).map fun t => ⟨t, index 0 n⟩

theorem walkFrom_find (htree : Tree h root) (hlevel : level ≤ 2)
    (hfollow : follow (child h) root (above (pageOf va) level) = some t) :
    (spec K owning allowed).Safe (fun r h' => h' = h ∧ r = pointer h root (pageOf va))
      (walkFrom false va level t) h := by
  induction level generalizing t with
  | zero =>
    have hfollow : follow (child h) root (pathOf (pageOf va)) = some t := hfollow
    refine Safe.ret ⟨rfl, ?_⟩
    rw [pointer, hfollow, px_eq]
    rfl
  | succ level ih =>
    have hlen := length_above (pageOf va) (level + 1)
    obtain ⟨page, hpage⟩ := htree.page (by omega) hfollow
    have hnext : follow (child h) root (above (pageOf va) level) =
        child h t (index (level + 1) (pageOf va)) := by
      rw [above_eq (by omega), follow_concat, hfollow]
      rfl
    refine safe_load hpage ?_
    rw [px_eq]
    by_cases hvalid : page.pte (index (level + 1) (pageOf va)) &&& PTE_V ≠ 0
    · rw [if_pos hvalid]
      exact ih (by omega) (hnext.trans (child_of_valid hpage hvalid))
    · have hnone := hnext.trans (child_of_invalid hpage (not_not.mp hvalid))
      rw [if_neg hvalid, if_neg (by simp)]
      refine Safe.ret ⟨rfl, ?_⟩
      rw [pointer, follow_pathOf_none hnone]
      rfl

variable {α : Type} {post : α → Heap → Prop} {rest : Option PtePtr → Code α}

/-- `walk` without `alloc` finds the last table if there is one. -/
theorem walk_find (htree : Tree h root) (hva : pageOf va < NPAGES) :
    (spec K owning allowed).Safe (fun r h' => h' = h ∧ r = pointer h root (pageOf va))
      (walk root va false) h := by
  unfold walk
  rw [if_pos (lt_maxva.mpr hva)]
  exact walkFrom_find htree (le_refl 2) rfl

theorem safe_walk_find (htree : Tree h root) (hva : pageOf va < NPAGES)
    (hrest : (spec K owning allowed).Safe post (rest (pointer h root (pageOf va))) h) :
    (spec K owning allowed).Safe post (walk root va false >>= rest) h := by
  refine (walk_find htree hva).andThen ?_
  rintro r h' ⟨rfl, rfl⟩
  exact hrest

/-- The tables grew, the map is the same, and a returned pointer is the one for page `n`. -/
structure Walked (K : Kernel) (root : Addr) (n : Nat) (h : Heap) (r : Option PtePtr)
    (h' : Heap) : Prop where
  grown : Grown K root h h'
  lookup : ∀ m, lookup h' root m = lookup h root m
  found : ∀ ptr, r = some ptr → pointer h' root n = some ptr

theorem walkFrom_alloc (howning : owning) (htree : Tree h root)
    (hlevel : level ≤ 2) (hva : pageOf va < NPAGES)
    (hfollow : follow (child h) root (above (pageOf va) level) = some t) :
    (spec K owning allowed).Safe (Walked K root (pageOf va) h) (walkFrom true va level t) h := by
  induction level generalizing t h with
  | zero =>
    have hfollow : follow (child h) root (pathOf (pageOf va)) = some t := hfollow
    refine Safe.ret ⟨.refl htree, fun _ => rfl, ?_⟩
    rintro ptr hptr
    rw [← hptr, pointer, hfollow, px_eq]
    rfl
  | succ level ih =>
    have hlen := length_above (pageOf va) (level + 1)
    obtain ⟨page, hpage⟩ := htree.page (by omega) hfollow
    have hnext : ∀ g, follow (child g) root (above (pageOf va) (level + 1)) = some t →
        follow (child g) root (above (pageOf va) level) =
          child g t (index (level + 1) (pageOf va)) := by
      intro g hg
      rw [above_eq (by omega), follow_concat, hg]
      rfl
    refine safe_load hpage ?_
    rw [px_eq]
    by_cases hvalid : page.pte (index (level + 1) (pageOf va)) &&& PTE_V ≠ 0
    · rw [if_pos hvalid]
      exact ih htree (by omega) ((hnext h hfollow).trans (child_of_valid hpage hvalid))
    · have hinvalid := not_not.mp hvalid
      rw [if_neg hvalid, if_pos rfl]
      refine safe_kalloc howning ?_ ?_
      · rw [if_pos rfl]
        exact Safe.ret ⟨.refl htree, fun _ => rfl, by simp⟩
      · intro c hc hne hfresh
        have htc : t ≠ c := by
          rintro rfl
          rw [hpage] at hfresh
          cases hfresh
        have hpage₁ : ((h.set c (.fill 5)).set c .zeros) t = some page := by
          rw [set_set, set_of_ne htc, hpage]
        have hlow : above (pageOf va) (level + 1) = [] →
            (index (level + 1) (pageOf va)).val < 256 := by
          intro hnil
          have hpages := npages_eq
          obtain rfl | rfl : level = 0 ∨ level = 1 := by omega
          · simp [above, pathOf] at hnil
          · show pageOf va / 512 ^ 2 % 512 < 256
            omega
        have hgraft := graft_graftTable htree (by omega) hfollow hpage hinvalid hc hfresh
        obtain ⟨hgrown, hlookup⟩ :=
          grown_graftTable htree (by omega) hfollow hpage hinvalid hc hfresh hlow
        have hstill : follow (child (graftTable h t page (index (level + 1) (pageOf va)) c)) root
            (above (pageOf va) (level + 1)) = some t := by
          rw [hgraft.follow_eq htree.unshared (by omega), if_neg, hfollow]
          intro heq
          have := congrArg List.length heq
          simp at this
        rw [if_neg hne]
        refine safe_modify set_self ?_
        refine safe_store hpage₁ ?_
        rw [set_set]
        refine (ih hgrown.tree (by omega) ((hnext _ hstill).trans hgraft.here)).mono ?_
        intro r h' hwalked
        exact ⟨hgrown.trans hwalked.grown, fun m => (hwalked.lookup m).trans (hlookup m),
          hwalked.found⟩

/-- `walk` with `alloc` returns the pointer, with new tables on the way, or finds no page. -/
theorem safe_walk_alloc (howning : owning) (htree : Tree h root) (hva : pageOf va < NPAGES)
    (hrest : ∀ r h', Walked K root (pageOf va) h r h' →
      (spec K owning allowed).Safe post (rest r) h') :
    (spec K owning allowed).Safe post (walk root va true >>= rest) h := by
  unfold walk
  rw [if_pos (lt_maxva.mpr hva)]
  have hwalk : (spec K owning allowed).Safe (Walked K root (pageOf va) h)
      (walkFrom true va 2 root) h :=
    walkFrom_alloc howning htree (le_refl 2) hva rfl
  exact hwalk.andThen hrest

theorem follow_of_pointer {n : Nat} {ptr : PtePtr} (hptr : pointer h root n = some ptr) :
    follow (child h) root (pathOf n) = some ptr.table ∧ ptr.index = index 0 n := by
  obtain ⟨t, hfollow, rfl⟩ := Option.map_eq_some_iff.mp hptr
  exact ⟨hfollow, rfl⟩

/-! ### mappages -/

/-- The entry that `mappages` makes. -/
def newEntry (pa : Addr) (perm : Pte) : Pte := PA2PTE pa ||| perm ||| PTE_V

/-- A map after `count` pages from `first` on were mapped to the pages from `pa` on. -/
def mapRange (map : Nat → Option Pte) (first count : Nat) (pa : Addr) (perm : Pte) (n : Nat) :
    Option Pte :=
  if first ≤ n ∧ n < first + count then some (newEntry (pa + pageAt (n - first)) perm) else map n

theorem mapRange_zero (map : Nat → Option Pte) (first : Nat) (pa : Addr) (perm : Pte) (n : Nat) :
    mapRange map first 0 pa perm n = map n :=
  if_neg (by omega)

variable {perm : Pte}

theorem mapRange_succ {map map' : Nat → Option Pte} {first count : Nat} {pa : Addr}
    (hmap : ∀ n, map' n = if n = first then some (newEntry pa perm) else map n) (n : Nat) :
    mapRange map' (first + 1) count (pa + 4096#64) perm n =
      mapRange map first (count + 1) pa perm n := by
  unfold mapRange
  by_cases hn : first + 1 ≤ n ∧ n < first + 1 + count
  · have hpa : pa + 4096#64 + pageAt (n - (first + 1)) = pa + pageAt (n - first) := by
      rw [show n - first = n - (first + 1) + 1 by omega, ← pageAt_succ, BitVec.add_assoc,
        BitVec.add_comm 4096#64]
    rw [if_pos hn, if_pos (by omega), hpa]
  · rw [if_neg hn, hmap]
    by_cases hfirst : n = first
    · subst hfirst
      rw [if_pos rfl, if_pos (by omega), Nat.sub_self]
      show some (newEntry pa perm) = some (newEntry (pa + 0#64) perm)
      rw [BitVec.add_zero]
    · rw [if_neg hfirst, if_neg (by omega)]

/-- `mappages` maps the whole range and returns 0, or its first part and returns -1. -/
structure Mapped (K : Kernel) (root : Addr) (first count : Nat) (pa : Addr) (perm : Pte)
    (h : Heap) (r : Int)
    (h' : Heap) : Prop where
  grown : Grown K root h h'
  result : r = 0 ∧ (∀ n, lookup h' root n = mapRange (lookup h root) first count pa perm n) ∨
    r = -1 ∧ ∃ part, part < count ∧
      ∀ n, lookup h' root n = mapRange (lookup h root) first part pa perm n

variable {fuel first last : Nat}

theorem mappagesFrom_safe {pa : Addr} (howning : owning)
    (htree : Tree h root) (hle : first ≤ last) (hlast : last < NPAGES) (hfuel : last - first < fuel)
    (hnone : ∀ n, first ≤ n → n ≤ last → lookup h root n = none) :
    (spec K owning allowed).Safe (Mapped K root first (last + 1 - first) pa perm h)
      (mappagesFrom root (pageAt last) perm fuel (pageAt first) pa) h := by
  induction fuel generalizing first pa h with
  | zero => omega
  | succ fuel ih =>
    have hpages := npages_eq
    have hpage : pageOf (pageAt first) = first := pageOf_pageAt (by omega)
    refine safe_walk_alloc howning htree (by omega) ?_
    intro r h₁ hwalked
    rw [hpage] at hwalked
    cases r with
    | none =>
      refine Safe.ret ⟨hwalked.grown, .inr ⟨rfl, 0, by omega, ?_⟩⟩
      intro n
      rw [hwalked.lookup, mapRange_zero]
    | some ptr =>
      obtain ⟨hfollow, hindex⟩ := follow_of_pointer (hwalked.found ptr rfl)
      obtain ⟨page, htable⟩ := hwalked.grown.tree.page (le_refl 2) hfollow
      obtain ⟨hset, _, hlookup⟩ := grown_setLeaf K hwalked.grown.tree (by omega) hfollow
        htable (newEntry pa perm)
      have hvalid : newEntry pa perm &&& PTE_V ≠ 0 := valid_or _
      have hmap : ∀ n, lookup (h₁.set ptr.table (page.setPte ptr.index (newEntry pa perm))) root n =
          if n = first then some (newEntry pa perm) else lookup h root n := by
        intro n
        rw [hindex, hlookup, hwalked.lookup, if_pos hvalid]
      rw [← hindex] at hset
      have hold : page.pte ptr.index &&& PTE_V = 0 := by
        by_contra hvalid'
        have hsome : lookup h₁ root first = some (page.pte ptr.index) := by
          rw [lookup_of_follow (by omega) hfollow htable, validEntry, ← hindex, if_pos hvalid']
        rw [hwalked.lookup, hnone first le_rfl hle] at hsome
        cases hsome
      refine safe_load htable ?_
      rw [if_neg (not_not.mpr hold)]
      refine safe_store htable ?_
      by_cases hend : first = last
      · subst hend
        rw [if_pos rfl]
        refine Safe.ret ⟨hwalked.grown.trans hset, .inl ⟨rfl, ?_⟩⟩
        intro n
        rw [show first + 1 - first = 0 + 1 by omega, ← mapRange_succ hmap, mapRange_zero]
        rfl
      · have hne : pageAt first ≠ pageAt last := by
          rwa [ne_eq, pageAt_inj (by omega) (by omega)]
        rw [if_neg hne, pageAt_succ]
        have hnone' : ∀ n, first + 1 ≤ n → n ≤ last →
            lookup (h₁.set ptr.table (page.setPte ptr.index (newEntry pa perm))) root n = none := by
          intro n hn hn'
          rw [hmap, if_neg (by omega)]
          exact hnone n (by omega) hn'
        refine (ih hset.tree (by omega) (by omega) hnone').mono ?_
        intro r h₂ hmapped
        refine ⟨(hwalked.grown.trans hset).trans hmapped.grown, ?_⟩
        rcases hmapped.result with ⟨hr, hall⟩ | ⟨hr, part, hpart, hsome⟩
        · refine .inl ⟨hr, fun n => ?_⟩
          rw [hall n, mapRange_succ hmap, show last + 1 - (first + 1) + 1 =
            last + 1 - first by omega]
        · refine .inr ⟨hr, part + 1, by omega, fun n => ?_⟩
          rw [hsome n, mapRange_succ hmap]

theorem rounds_pageAt {first last : Nat} (hle : first ≤ last) (hlast : last < NPAGES) :
    last - first < rounds (pageAt first) (pageAt last) := by
  have hpages := npages_eq
  have hsize : PGSIZE = 4096 := rfl
  have hfirst : (pageAt first).toNat = first * 4096 := toNat_pageAt (by omega)
  have hlast' : (pageAt last).toNat = last * 4096 := toNat_pageAt (by omega)
  have hsub : (pageAt last - pageAt first).toNat = (last - first) * 4096 := by
    rw [toNat_sub, hfirst, hlast']
    omega
  rw [rounds, hsub, hsize]
  omega

/-- The last page of a range of bytes. -/
def lastPage (va size : Addr) : Nat := (va.toNat + size.toNat - 1) / PGSIZE

/-- A range of bytes that `mappages` and `uvmunmap` can work on. -/
structure InRange (va size : Addr) : Prop where
  pos : 0 < size.toNat
  high : va.toNat + size.toNat - 1 < MAXVA.toNat

namespace InRange

theorem pageOf_le (h : InRange va size) : pageOf va ≤ lastPage va size :=
  Nat.div_le_div_right (by have := h.pos; omega)

theorem lastPage_lt (h : InRange va size) : lastPage va size < NPAGES := by
  have hhigh := h.high
  exact (Nat.div_lt_iff_lt_mul (by decide)).mpr hhigh

theorem roundDown_last (h : InRange va size) :
    PGROUNDDOWN (va + size - 1#64) = pageAt (lastPage va size) := by
  have hpos := h.pos
  have hhigh := h.high
  have hsum : (va + size - 1#64).toNat = va.toNat + size.toNat - 1 := by
    rw [toNat_sub, toNat_add]
    simp only [toNat_ofNat]
    omega
  rw [roundDown_eq, pageOf, hsum]
  rfl

end InRange

/-- The number of pages of a range of bytes. -/
def pageCount (va size : Addr) : Nat := lastPage va size + 1 - pageOf va

theorem mappages_safe {va size pa : Addr} (howning : owning) (htree : Tree h root)
    (hrange : InRange va size)
    (hnone : ∀ n, pageOf va ≤ n → n ≤ lastPage va size → lookup h root n = none) :
    (spec K owning allowed).Safe (Mapped K root (pageOf va) (pageCount va size) pa perm h)
      (mappages root va size pa perm) h := by
  unfold mappages
  rw [hrange.roundDown_last, roundDown_eq]
  exact mappagesFrom_safe howning htree hrange.pageOf_le hrange.lastPage_lt
    (rounds_pageAt hrange.pageOf_le hrange.lastPage_lt) hnone

/-! ### uvmunmap -/

open Classical in
/-- A heap without some of its pages. -/
noncomputable def Heap.without (h : Heap) (freed : Addr → Prop) : Heap :=
  fun a => if freed a then none else h a

variable {freed : Addr → Prop}

theorem Heap.without_of_not {a : Addr} (ha : ¬ freed a) : h.without freed a = h a := if_neg ha

theorem Heap.without_of {a : Addr} (ha : freed a) : h.without freed a = none := if_pos ha

/-- The pages that the entries of a range lead to. -/
def Framed (h : Heap) (root : Addr) (first last : Nat) (a : Addr) : Prop :=
  ∃ n w, first ≤ n ∧ n ≤ last ∧ lookup h root n = some w ∧ PTE2PA w = a

/-- A range that `uvmunmap` can remove: every page is mapped by a leaf, and where the pages are
freed, they are pages to be freed, none of them twice. -/
structure Removable (K : Kernel) (owning : Prop) (h : Heap) (root : Addr) (first last : Nat)
    (doFree : Bool) : Prop where
  leaf : ∀ n, first ≤ n → n ≤ last → ∃ w, lookup h root n = some w ∧ PTE_FLAGS w ≠ PTE_V
  freeable : doFree = true → ∀ a, Framed h root first last a →
    Freeable K a ∧ ¬ Table h root a ∧ (owning → h a ≠ none)
  distinct : doFree = true → owning → ∀ n m w w', first ≤ n → n ≤ last → first ≤ m → m ≤ last →
    lookup h root n = some w → lookup h root m = some w' → PTE2PA w = PTE2PA w' → n = m

/-- The pages of a range are gone from the map, and with `doFree` from the heap. -/
structure Unmapped (K : Kernel) (root : Addr) (first last : Nat) (doFree : Bool)
    (h h' : Heap) : Prop where
  grown : Grown K root (h.without fun a => doFree = true ∧ Framed h root first last a) h'
  lookup : ∀ n, lookup h' root n = if first ≤ n ∧ n ≤ last then none else lookup h root n

theorem Grown.without (hgrown : Grown K root h h') (hfreed : ∀ a, freed a → ¬ Table h' root a) :
    Grown K root (h.without freed) (h'.without freed) := by
  have hsame : ∀ a, Table h root a → h.without freed a = h a := fun a ha =>
    without_of_not fun hf => hfreed a hf (hgrown.tables a ha)
  have hsame' : ∀ a, Table h' root a → h'.without freed a = h' a := fun a ha =>
    without_of_not fun hf => hfreed a hf ha
  refine ⟨hgrown.tree.of_agree hsame', ?_, ?_, ?_, ?_⟩
  · intro a ha
    rw [table_of_agree hsame] at ha
    rw [table_of_agree hsame']
    exact hgrown.tables a ha
  · intro a ha
    rw [table_of_agree hsame'] at ha
    rw [table_of_agree hsame]
    refine (hgrown.new a ha).imp_right fun hnone => ?_
    by_cases hf : freed a
    · exact without_of hf
    · rw [without_of_not hf, hnone]
  · intro a ha
    rw [table_of_agree hsame'] at ha
    by_cases hf : freed a
    · rw [without_of hf, without_of hf]
    · rw [without_of_not hf, without_of_not hf, hgrown.kept a ha]
  · intro hproper
    have hproper : Proper K h root := hproper.of_agree fun a ha => by
      rw [table_of_agree hsame] at ha
      exact (hsame a ha).symm
    exact (hgrown.proper hproper).of_agree hsame'

theorem Heap.without_without (p q : Addr → Prop) :
    (h.without p).without q = h.without fun a => p a ∨ q a := by
  funext a
  by_cases hq : q a
  · rw [without_of hq, without_of (Or.inr hq)]
  · rw [without_of_not hq]
    by_cases hp : p a
    · rw [without_of hp, without_of (Or.inl hp)]
    · rw [without_of_not hp, without_of_not (not_or_intro hp hq)]

theorem Heap.erase_eq_without (pa : Addr) : h.erase pa = h.without (· = pa) := by
  funext a
  rcases eq_or_ne a pa with rfl | hne
  · rw [erase_self]
    exact (if_pos rfl).symm
  · rw [erase_of_ne hne]
    exact (if_neg hne).symm

theorem Tree.without (htree : Tree h root) (hfreed : ∀ a, freed a → ¬ Table h root a) :
    Tree (h.without freed) root ∧ (∀ n, lookup (h.without freed) root n = lookup h root n) ∧
      ∀ a, Table (h.without freed) root a ↔ Table h root a := by
  have hsame : ∀ a, Table h root a → h.without freed a = h a := fun a ha =>
    without_of_not fun hf => hfreed a hf ha
  exact ⟨htree.of_agree hsame, lookup_of_agree hsame, table_of_agree hsame⟩

/-- The tables of a heap without some pages are those of the whole heap. -/
theorem agree_of_without (htree : Tree (h.without freed) root) (a : Addr)
    (ha : Table (h.without freed) root a) : h a = h.without freed a := by
  refine (without_of_not fun hf => ?_).symm
  exact htree.owned a ha (without_of hf)

/-- What one round of `uvmunmap` does at page `n`: some pages are gone, and so is the entry. -/
structure Round (K : Kernel) (root : Addr) (n : Nat) (freed : Addr → Prop)
    (h h' : Heap) : Prop where
  grown : Grown K root (h.without freed) h'
  tables : ∀ a, Table h' root a ↔ Table h root a
  lookup : ∀ m, lookup h' root m = if m = n then none else lookup h root m

/-- A page with an entry, once some pages are gone: where the entry is, and the heap without it. -/
theorem exists_round {n : Nat} {w : Pte} (htree : Tree h root)
    (hw : lookup h root n = some w) (hfreed : ∀ a, freed a → ¬ Table h root a) :
    ∃ t page, pointer h root n = some ⟨t, index 0 n⟩ ∧ h t = some page ∧
      page.pte (index 0 n) = w ∧ h.without freed t = some page ∧
      Round K root n freed h ((h.without freed).set t (page.setPte (index 0 n) 0)) := by
  obtain ⟨hn, _, t, page, hfollow, htable, hpte⟩ := exists_of_lookup hw
  obtain ⟨htree₁, hlookup₁, htables₁⟩ := htree.without hfreed
  have hsame : ∀ a, Table h root a → h.without freed a = h a := fun a ha =>
    without_of_not fun hf => hfreed a hf ha
  have hfollow₁ : follow (child (h.without freed)) root (pathOf n) = some t := by
    rw [follow_of_agree hsame (le_refl 2), hfollow]
  have htable₁ : h.without freed t = some page := by
    rw [hsame t ⟨pathOf n, le_refl 2, hfollow⟩, htable]
  obtain ⟨hset, htables₂, hlookup₂⟩ := grown_setLeaf K htree₁ hn hfollow₁ htable₁ 0
  refine ⟨t, page, by rw [pointer, hfollow]; rfl, htable, hpte, htable₁, hset, ?_, ?_⟩
  · intro a
    rw [htables₂, htables₁]
  · intro m
    rw [hlookup₂, hlookup₁]
    rfl

variable {doFree : Bool}

section Rounds

variable {w : Pte} {h₁ : Heap} (hrange : Removable K owning h root first last doFree)
  (hw : lookup h root first = some w) (hle : first ≤ last)
  (hround : Round K root first (fun a => doFree = true ∧ a = PTE2PA w) h h₁)
include hw hround

include hle in
/-- The pages of a range are that of the first entry and those of the rest. -/
theorem framed_iff (a : Addr) :
    Framed h root first last a ↔ a = PTE2PA w ∨ Framed h₁ root (first + 1) last a := by
  constructor
  · rintro ⟨n, w', hn, hn', hw', rfl⟩
    rcases Nat.eq_or_lt_of_le hn with rfl | hlt
    · rw [hw] at hw'
      exact .inl (by rw [Option.some.inj hw'])
    · exact .inr ⟨n, w', hlt, hn', by rw [hround.lookup, if_neg (by omega), hw'], rfl⟩
  · rintro (rfl | ⟨n, w', hn, hn', hw', rfl⟩)
    · exact ⟨first, w, le_refl _, hle, hw, rfl⟩
    · rw [hround.lookup, if_neg (by omega)] at hw'
      exact ⟨n, w', by omega, hn', hw', rfl⟩

include hle in
/-- The pages that a whole range frees go away with the first round and then the rest. -/
theorem without_framed : (h.without fun a => doFree = true ∧ Framed h root first last a) =
      (h.without fun a => doFree = true ∧ a = PTE2PA w).without fun a =>
        doFree = true ∧ Framed h₁ root (first + 1) last a := by
  rw [without_without]
  congr 1
  funext a
  rw [framed_iff hw hle hround, and_or_left]

theorem unmapped_last : Unmapped K root first first doFree h h₁ where
  grown := by
    have hgone : (fun a => doFree = true ∧ Framed h root first first a) =
        fun a => doFree = true ∧ a = PTE2PA w := by
      funext a
      rw [framed_iff hw le_rfl hround]
      have hempty : ¬ Framed h₁ root (first + 1) first a := by
        rintro ⟨n, _, hn, hn', _⟩
        omega
      simp [hempty]
    rw [hgone]
    exact hround.grown
  lookup n := by
    rw [hround.lookup]
    by_cases hn : n = first
    · rw [if_pos hn, if_pos (by omega)]
    · rw [if_neg hn, if_neg (by omega)]

include hrange hle

theorem Removable.tail : Removable K owning h₁ root (first + 1) last doFree where
  leaf n hn hn' := by
    rw [hround.lookup, if_neg (by omega)]
    exact hrange.leaf n (by omega) hn'
  freeable hdo a ha := by
    obtain ⟨hfree, hnot, hown⟩ := hrange.freeable hdo a ((framed_iff hw hle hround a).mpr (.inr ha))
    refine ⟨hfree, fun htable => hnot ((hround.tables a).mp htable), fun howning => ?_⟩
    obtain ⟨n, w', hn, hn', hw', rfl⟩ := ha
    rw [hround.lookup, if_neg (by omega)] at hw'
    have hne : PTE2PA w' ≠ PTE2PA w := by
      intro heq
      have := hrange.distinct hdo howning n first w' w (by omega) hn' le_rfl hle hw' hw heq
      omega
    rw [hround.grown.kept _ fun htable => hnot ((hround.tables _).mp htable),
      without_of_not fun hgone => hne hgone.2]
    exact hown howning
  distinct hdo howning n m v v' hn hn' hm hm' hv hv' heq := by
    rw [hround.lookup, if_neg (by omega)] at hv
    rw [hround.lookup, if_neg (by omega)] at hv'
    exact hrange.distinct hdo howning n m v v' (by omega) hn' (by omega) hm' hv hv' heq

theorem unmapped_cons (hrest : Unmapped K root (first + 1) last doFree h₁ h') :
    Unmapped K root first last doFree h h' where
  grown := by
    rw [without_framed hw hle hround]
    refine (hround.grown.without ?_).trans hrest.grown
    intro a ha
    exact ((hrange.tail hw hle hround).freeable ha.1 a ha.2).2.1
  lookup n := by
    rw [hrest.lookup, hround.lookup]
    by_cases hn : first + 1 ≤ n ∧ n ≤ last
    · rw [if_pos hn, if_pos (by omega)]
    · rw [if_neg hn]
      by_cases hfirst : n = first
      · rw [if_pos hfirst, if_pos (by omega)]
      · rw [if_neg hfirst, if_neg (by omega)]

end Rounds

theorem uvmunmapFrom_safe (htree : Tree h root)
    (hle : first ≤ last) (hlast : last < NPAGES) (hfuel : last - first < fuel)
    (hrange : Removable K owning h root first last doFree) :
    (spec K owning allowed).Safe (fun _ h' => Unmapped K root first last doFree h h')
      (uvmunmapFrom root (pageAt last) doFree fuel (pageAt first)) h := by
  induction fuel generalizing first h with
  | zero => omega
  | succ fuel ih =>
    have hpages := npages_eq
    have hpage : pageOf (pageAt first) = first := pageOf_pageAt (by omega)
    obtain ⟨w, hw, hflags⟩ := hrange.leaf first le_rfl hle
    have hvalid := (exists_of_lookup hw).2.1
    have hframed : Framed h root first last (PTE2PA w) := ⟨first, w, le_refl _, hle, hw, rfl⟩
    obtain ⟨t, page, hpointer, htable, hpte, htable₁, hround⟩ : ∃ t page, _ ∧ _ ∧ _ ∧ _ ∧
          Round K root first (fun a => doFree = true ∧ a = PTE2PA w) h _ :=
      exists_round htree hw fun a ha => ha.2 ▸ (hrange.freeable ha.1 _ hframed).2.1
    refine safe_walk_find htree (by omega) ?_
    rw [hpage, hpointer]
    refine safe_load htable ?_
    rw [hpte, if_neg hvalid, if_neg hflags]
    -- Whether the page is freed or not, the heap is the one without the freed page.
    have hstore : (spec K owning allowed).Safe (fun _ h' => Unmapped K root first last doFree h h')
        (do
          store ⟨t, index 0 first⟩ 0
          if pageAt first = pageAt last then pure ()
          else uvmunmapFrom root (pageAt last) doFree fuel (pageAt first + 4096#64))
        (h.without fun a => doFree = true ∧ a = PTE2PA w) := by
      refine safe_store htable₁ ?_
      by_cases hend : first = last
      · subst hend
        rw [if_pos rfl]
        exact Safe.ret (unmapped_last hw hround)
      · have hne : pageAt first ≠ pageAt last := by
          rwa [ne_eq, pageAt_inj (by omega) (by omega)]
        rw [if_neg hne, pageAt_succ]
        refine (ih hround.grown.tree (by omega) (by omega) (hrange.tail hw hle hround)).mono ?_
        intro _ h' hrest
        exact unmapped_cons hrange hw hle hround hrest
    cases doFree with
    | false =>
      have hsame : (h.without fun a => false = true ∧ a = PTE2PA w) = h := by
        funext a
        exact without_of_not (by simp)
      rwa [hsame] at hstore
    | true =>
      obtain ⟨hfree, _, hown⟩ := hrange.freeable rfl _ hframed
      have hsame : (h.without fun a => true = true ∧ a = PTE2PA w) = h.erase (PTE2PA w) := by
        rw [erase_eq_without]
        simp
      rw [hsame] at hstore
      exact safe_kfree hown hfree hstore

theorem uvmunmap_safe (htree : Tree h root) (hrange : InRange va size)
    (hremovable : Removable K owning h root (pageOf va) (lastPage va size) doFree) :
    (spec K owning allowed).Safe
      (fun _ h' => Unmapped K root (pageOf va) (lastPage va size) doFree h h')
      (uvmunmap root va size doFree) h := by
  unfold uvmunmap
  rw [hrange.roundDown_last, roundDown_eq]
  exact uvmunmapFrom_safe htree hrange.pageOf_le hrange.lastPage_lt
    (rounds_pageAt hrange.pageOf_le hrange.lastPage_lt) hremovable

theorem uvmunmap_stops {post : Unit → Heap → Prop}
    (htree : Tree h root) (hva : pageOf va < NPAGES) (hnone : lookup h root (pageOf va) = none)
    (hwalk : allowed "uvmunmap: walk") (hmapped : allowed "uvmunmap: not mapped") :
    (spec K owning allowed).Safe post (uvmunmap root va size doFree) h := by
  have hpages := npages_eq
  have hpage : pageOf (PGROUNDDOWN va) = pageOf va := by
    rw [roundDown_eq, pageOf_pageAt (by omega)]
  refine safe_walk_find htree (by rw [hpage]; exact hva) ?_
  rw [hpage]
  cases hfollow : follow (child h) root (pathOf (pageOf va)) with
  | none =>
    rw [pointer, hfollow]
    exact safe_stop hwalk
  | some t =>
    obtain ⟨page, htable⟩ := htree.page (le_refl 2) hfollow
    rw [lookup_of_follow hva hfollow htable, validEntry] at hnone
    have hinvalid : page.pte (index 0 (pageOf va)) &&& PTE_V = 0 := by
      by_contra hvalid
      rw [if_pos hvalid] at hnone
      cases hnone
    rw [pointer, hfollow]
    refine safe_load htable ?_
    rw [if_pos hinvalid]
    exact safe_stop hmapped

end Xv6.Vm
