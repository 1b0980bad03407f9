import Xv6.Vm.Space

/-!
# Freeing a page table

`freewalk` frees the tables of a page table without leaves, each once. With it `uvmfree` and
`proc_freepagetable` free an address space; what else there is stays as it is.
-/

namespace Xv6.Vm

open Interleave Bytes Radix LocalSpec List Heap

variable {K : Kernel} {root : Addr} {allowed : String → Prop} {h h' : Heap}

/-- The rule for a loop over a list: the invariant speaks of the elements done so far. -/
theorem forEach_safe {β : Type} (inv : List β → Heap → Prop) {items : List β} {body : β → Code Unit}
    (hstep : ∀ done x rest h, items = done ++ x :: rest → inv done h →
      Safe K allowed (fun _ h' => inv (done ++ [x]) h') (body x) h)
    (hstart : inv [] h) :
    Safe K allowed (fun _ h' => inv items h') (forEach items body) h := by
  have hrest : ∀ rest done h, items = done ++ rest → inv done h →
      Safe K allowed (fun _ h' => inv items h') (forEach rest body) h := by
    intro rest
    induction rest with
    | nil =>
      intro done h hitems hdone
      rw [append_nil] at hitems
      rw [hitems, forEach_nil]
      exact Safe.ret hdone
    | cons x rest ih =>
      intro done h hitems hdone
      rw [forEach_cons]
      refine (hstep done x rest h hitems hdone).andThen ?_
      intro _ h' hnext
      exact ih (done ++ [x]) h' (by rw [hitems, append_assoc]; rfl) hnext
  exact hrest items [] h rfl hstart

/-! ### Tables without leaves -/

/-- A table with `d` levels of tables below it and no leaves. -/
structure Clear (K : Kernel) (h : Heap) (d : Nat) (a : Addr) : Prop where
  owned : ∀ b, Node (child h) a d b → h b ≠ none
  freeable : ∀ b, Node (child h) a d b → Freeable K b
  unshared : Unshared (child h) a d
  interior : ∀ path t page i, path.length < d → follow (child h) a path = some t →
    h t = some page → page.pte i &&& PTE_V ≠ 0 → page.pte i &&& (PTE_R ||| PTE_W ||| PTE_X) = 0
  bottom : ∀ path t i, path.length = d → follow (child h) a path = some t → child h t i = none

namespace Clear

variable {d : Nat} {a b : Addr} {i : Fin 512}

theorem below (hclear : Clear K h (d + 1) a) (hb : child h a i = some b) : Clear K h d b := by
  have hnode : ∀ c, Node (child h) b d c → Node (child h) a (d + 1) c := fun c hc =>
    node_succ.mpr (.inr ⟨i, b, hb, hc⟩)
  have hfollow : ∀ path, follow (child h) a (i :: path) = follow (child h) b path := fun path => by
    rw [follow_cons, hb]
    rfl
  constructor
  · exact fun c hc => hclear.owned c (hnode c hc)
  · exact fun c hc => hclear.freeable c (hnode c hc)
  · exact hclear.unshared.subtree hb
  · intro path t page j hpath hpt
    exact hclear.interior (i :: path) t page j (Nat.succ_lt_succ hpath) (by rw [hfollow, hpt])
  · intro path t j hpath hpt
    exact hclear.bottom (i :: path) t j (congrArg Nat.succ hpath) (by rw [hfollow, hpt])

theorem congr (hclear : Clear K h d a) (hsame : ∀ b, Node (child h) a d b → h' b = h b) :
    Clear K h' d a ∧ ∀ b, Node (child h') a d b ↔ Node (child h) a d b := by
  have hchild : ∀ b, Node (child h) a d b → child h' b = child h b := fun b hb => by
    funext j
    unfold child
    rw [hsame b hb]
  have hfollow : ∀ path : List (Fin 512), path.length ≤ d →
      follow (child h') a path = follow (child h) a path := fun path hpath =>
    follow_congr (fun p b hp hb => hchild b ⟨p, hp.le, hb⟩) hpath
  have hnode := node_congr hfollow
  refine ⟨⟨?_, ?_, hclear.unshared.congr hfollow, ?_, ?_⟩, hnode⟩
  · intro b hb
    rw [hsame b ((hnode b).mp hb)]
    exact hclear.owned b ((hnode b).mp hb)
  · exact fun b hb => hclear.freeable b ((hnode b).mp hb)
  · intro path t page j hpath hpt hpage
    rw [hfollow path hpath.le] at hpt
    rw [hsame t ⟨path, hpath.le, hpt⟩] at hpage
    exact hclear.interior path t page j hpath hpt hpage
  · intro path t j hpath hpt
    rw [hfollow path hpath.le] at hpt
    rw [hchild t ⟨path, hpath.le, hpt⟩]
    exact hclear.bottom path t j hpath hpt

end Clear

/-! ### freewalk -/

/-- The tables below the entries `done` of table `a`. -/
def Freed (h : Heap) (d : Nat) (a : Addr) (done : List (Fin 512)) (b : Addr) : Prop :=
  ∃ j ∈ done, ∃ c, child h a j = some c ∧ Node (child h) c d b

/-- After some rounds of the loop of `freewalk`: the tables below the entries that were seen are
free, and the other entries of the table are the old ones. -/
def Walking (h : Heap) (d : Nat) (a : Addr) (page : Page) (done : List (Fin 512))
    (g : Heap) : Prop :=
  ∃ page', g = (h.without (Freed h d a done)).set a page' ∧ ∀ j, j ∉ done → page'.pte j = page.pte j

variable {page : Page} {a : Addr} {done : List (Fin 512)} {i : Fin 512} {d : Nat}

/-- A round of the loop at an empty entry. -/
theorem Walking.skip {g : Heap}
    (hwalking : Walking h d a page done g) (hnone : child h a i = none) :
    Walking h d a page (done ++ [i]) g := by
  obtain ⟨page', rfl, hpte⟩ := hwalking
  have hfreed : Freed h d a (done ++ [i]) = Freed h d a done := by
    funext b
    refine propext ⟨?_, ?_⟩
    · rintro ⟨j, hj, c, hc, hnode⟩
      rcases mem_append.mp hj with hdone | hi
      · exact ⟨j, hdone, c, hc, hnode⟩
      · rw [mem_singleton.mp hi, hnone] at hc
        cases hc
    · rintro ⟨j, hj, hrest⟩
      exact ⟨j, mem_append_left _ hj, hrest⟩
  refine ⟨page', by rw [hfreed], ?_⟩
  intro j hj
  exact hpte j fun hdone => hj (mem_append_left _ hdone)

/-- A round of the loop at an entry with a table, which is freed. -/
theorem Walking.next {a c : Addr} {page page' : Page} (hc : child h a i = some c)
    (hpte : ∀ j, j ∉ done → page'.pte j = page.pte j) :
    Walking h d a page (done ++ [i])
      ((((h.without (Freed h d a done)).set a page').without (Node (child h) c d)).set a
        (page'.setPte i 0)) := by
  refine ⟨page'.setPte i 0, ?_, ?_⟩
  · funext b
    rcases eq_or_ne b a with rfl | hne
    · rw [set_self, set_self]
    · rw [set_of_ne hne, set_of_ne hne]
      by_cases hnode : Node (child h) c d b
      · rw [without_of hnode, without_of]
        exact ⟨i, mem_append_right _ (mem_singleton_self i), c, hc, hnode⟩
      · rw [without_of_not hnode, set_of_ne hne]
        by_cases hfreed : Freed h d a done b
        · rw [without_of hfreed, without_of]
          obtain ⟨j, hj, hrest⟩ := hfreed
          exact ⟨j, mem_append_left _ hj, hrest⟩
        · rw [without_of_not hfreed, without_of_not]
          rintro ⟨j, hj, c', hc', hnode'⟩
          rcases mem_append.mp hj with hdone | hi
          · exact hfreed ⟨j, hdone, c', hc', hnode'⟩
          · rw [mem_singleton.mp hi, hc] at hc'
            exact hnode (Option.some.inj hc' ▸ hnode')
  · intro j hj
    have hji : j ≠ i := fun heq => hj (mem_append_right _ (by rw [heq]; exact mem_singleton_self i))
    rw [Page.pte_setPte, if_neg hji]
    exact hpte j fun hdone => hj (mem_append_left _ hdone)

/-- The loop of `freewalk` has seen every entry, and the table itself is freed. -/
theorem Walking.finish {g : Heap} (hwalking : Walking h d a page (List.finRange 512) g) :
    g.erase a = h.without (Node (child h) a (d + 1)) := by
  obtain ⟨page', rfl, _⟩ := hwalking
  funext b
  rcases eq_or_ne b a with rfl | hne
  · rw [erase_self, without_of node_root]
  · rw [erase_of_ne hne, set_of_ne hne]
    by_cases hfreed : Freed h d a (List.finRange 512) b
    · obtain ⟨j, _, c, hc, hnode⟩ := hfreed
      rw [without_of ⟨j, mem_finRange j, c, hc, hnode⟩,
        without_of (node_succ.mpr (.inr ⟨j, c, hc, hnode⟩))]
    · rw [without_of_not hfreed, without_of_not]
      intro hnode
      obtain ⟨j, c, hc, hnode⟩ := (node_succ.mp hnode).resolve_left hne
      exact hfreed ⟨j, mem_finRange j, c, hc, hnode⟩

variable {below : Addr → Code Unit}

theorem freewalkEntry_skip {post : Unit → Heap → Prop} (hpage : h a = some page)
    (hinvalid : page.pte i &&& PTE_V = 0)
    (hpost : post () h) : Safe K allowed post (freewalkEntry below a i) h := by
  refine safe_load hpage ?_
  rw [if_neg fun hvalid => hvalid.1 hinvalid, if_neg (not_not.mpr hinvalid)]
  exact Safe.ret hpost

/-- The loop of `freewalk`, at a table of an upper level. -/
theorem freewalkLoop_safe (hclear : Clear K h (d + 1) a) (hpage : h a = some page)
    (hbelow : ∀ c g, Clear K g d c →
      Safe K allowed (fun _ g' => g' = g.without (Node (child g) c d)) (below c) g)
    {items : List (Fin 512)} (hnodup : items.Nodup) :
    Safe K allowed (fun _ g => Walking h d a page items g)
      (forEach items (freewalkEntry below a)) h := by
  refine forEach_safe (Walking h d a page) ?_ ⟨page, ?_, fun _ _ => rfl⟩
  · intro done i rest g hitems hwalking
    have hnew : i ∉ done := by
      rw [hitems] at hnodup
      exact fun hi => (nodup_append.mp hnodup).2.2 i hi i (mem_cons_self ..) rfl
    obtain ⟨page', rfl, hpte⟩ := hwalking
    have hpage' : ((h.without (Freed h d a done)).set a page') a = some page' := set_self
    by_cases hvalid : page.pte i &&& PTE_V = 0
    · refine freewalkEntry_skip hpage' (by rw [hpte i hnew, hvalid]) ?_
      exact Walking.skip ⟨page', rfl, hpte⟩ (child_of_invalid hpage hvalid)
    · have hc : child h a i = some (PTE2PA (page.pte i)) := child_of_valid hpage hvalid
      have hroot := hclear.unshared.root_not_node hc
      have hsame : ∀ b, Node (child h) (PTE2PA (page.pte i)) d b →
          ((h.without (Freed h d a done)).set a page') b = h b := by
        intro b hb
        have hne : b ≠ a := by
          rintro rfl
          exact hroot hb
        rw [set_of_ne hne]
        refine without_of_not ?_
        rintro ⟨j, hj, c, hc', hnode⟩
        have hij : i ≠ j := by
          rintro rfl
          exact hnew hj
        exact hclear.unshared.node_disjoint hc hc' hij hb hnode
      obtain ⟨hclear', hnodes⟩ := (hclear.below hc).congr hsame
      refine safe_load hpage' ?_
      rw [hpte i hnew, if_pos ⟨hvalid, hclear.interior [] a page i
        (Nat.succ_pos d) rfl hpage hvalid⟩]
      refine (hbelow _ _ hclear').andThen ?_
      rintro _ g rfl
      have hnodes : Node (child ((h.without (Freed h d a done)).set a page'))
        (PTE2PA (page.pte i)) d =
          Node (child h) (PTE2PA (page.pte i)) d := funext fun b => propext (hnodes b)
      rw [hnodes]
      refine ⟨page', ?_, Walking.next hc hpte⟩
      rw [without_of_not hroot, set_self]
  · funext b
    rcases eq_or_ne b a with rfl | hne
    · rw [set_self, hpage]
    · rw [set_of_ne hne, without_of_not]
      rintro ⟨j, hj, _⟩
      cases hj

/-- `freewalk` frees the tables of a tree without leaves and nothing else. -/
theorem freewalk_safe {depth d : Nat} (hclear : Clear K h d a) (hdepth : d < depth) :
    Safe K allowed (fun _ h' => h' = h.without (Node (child h) a d)) (freewalk depth a) h := by
  induction depth generalizing d a h with
  | zero => omega
  | succ depth ih =>
    obtain ⟨page, hpage⟩ := Option.ne_none_iff_exists'.mp (hclear.owned a node_root)
    have hfreeable : Freeable K a := hclear.freeable a node_root
    cases d with
    | zero =>
      -- A table of the last level has no valid entry.
      have hloop : Safe K allowed (fun _ g => g = h)
          (forEach (List.finRange 512) (freewalkEntry (freewalk depth) a)) h := by
        refine forEach_safe (fun _ g => g = h) ?_ rfl
        rintro done i rest g - rfl
        refine freewalkEntry_skip hpage ?_ rfl
        by_contra hvalid
        have hchild := hclear.bottom [] a i rfl rfl
        rw [child_of_valid hpage hvalid] at hchild
        cases hchild
      refine hloop.andThen ?_
      rintro _ g rfl
      refine safe_kfree (fun _ => by simp [hpage]) hfreeable (Safe.ret ?_)
      rw [erase_eq_without]
      exact congrArg g.without (funext fun b => propext node_zero.symm)
    | succ d =>
      have hloop : Safe K allowed (fun _ g => Walking h d a page (List.finRange 512) g)
          (forEach (List.finRange 512) (freewalkEntry (freewalk depth) a)) h :=
        freewalkLoop_safe hclear hpage (fun c g hc => ih hc (by omega)) (nodup_finRange 512)
      refine hloop.andThen ?_
      intro _ g hwalking
      refine safe_kfree (fun _ => ?_) hfreeable (Safe.ret hwalking.finish)
      obtain ⟨page', rfl, _⟩ := hwalking
      simp

/-! ### Address spaces -/

theorem clear_of_unmapped (htree : Tree h root) (hproper : Proper K h root)
    (hnone : ∀ n, lookup h root n = none) : Clear K h 2 root where
  owned := htree.owned
  freeable := hproper.freeable
  unshared := htree.unshared
  interior := hproper.interior
  bottom := by
    intro path t i hpath hfollow
    obtain ⟨i₂, i₁, rfl⟩ : ∃ i₂ i₁, path = [i₂, i₁] := length_eq_two.mp hpath
    have hlow : i₂.val < 256 := by
      by_contra hhigh
      rw [follow_cons, hproper.low i₂ (by omega)] at hfollow
      cases hfollow
    have hlimit := npages_eq
    -- The page whose entry this would be.
    obtain ⟨n, hn⟩ : ∃ n, n = i₂.val * 262144 + i₁.val * 512 + i.val := ⟨_, rfl⟩
    have hindex₂ : index 2 n = i₂ := Fin.ext (show n / 512 ^ 2 % 512 = i₂.val by omega)
    have hindex₁ : index 1 n = i₁ := Fin.ext (show n / 512 ^ 1 % 512 = i₁.val by omega)
    have hindex₀ : index 0 n = i := Fin.ext (show n / 512 ^ 0 % 512 = i.val by omega)
    have hpathOf : pathOf n = [i₂, i₁] := by rw [pathOf, hindex₂, hindex₁]
    rw [← hpathOf] at hfollow
    obtain ⟨page, hpage⟩ := htree.page (le_refl 2) hfollow
    have hentry := hnone n
    rw [lookup_of_follow (by omega) hfollow hpage, hindex₀, validEntry] at hentry
    refine child_of_invalid hpage ?_
    by_contra hvalid
    rw [if_pos hvalid] at hentry
    cases hentry

/-- The pages of an address space. -/
def SpacePages (h : Heap) (root : Addr) (pages : Nat) (a : Addr) : Prop :=
  Table h root a ∨ Frames h root 0 pages a

theorem Grown.withoutTables (hgrown : Grown K root h h') :
    h'.without (Table h' root) = h.without (Table h root) := by
  funext a
  by_cases htable : Table h' root a
  · rw [without_of htable]
    rcases hgrown.new a htable with hold | hnone
    · rw [without_of hold]
    · by_cases hold : Table h root a
      · rw [without_of hold]
      · rw [without_of_not hold, hnone]
  · rw [without_of_not htable, without_of_not (mt (hgrown.tables a) htable), hgrown.kept a htable]

/-- Nothing but the tables and pages of an address space was touched. -/
def OthersKept (h : Heap) (root : Addr) (pages : Nat) (h' : Heap) : Prop :=
  ∀ a page, h a = some page → ¬ Table h root a → ¬ Frames h root 0 pages a → h' a = some page

variable {sz : Addr}

/-- `uvmfree` frees an address space and nothing else, once the trap pages are unmapped. -/
theorem uvmfree_safe (hspace : UserSpace K h root (pagesOf sz)) (hpos : 0 < pagesOf sz)
    (hnone : ∀ n, USERPAGES ≤ n → lookup h root n = none) :
    Safe K allowed (fun _ h' => h' = h.without (SpacePages h root (pagesOf sz)))
      (uvmfree root sz) h := by
  have hlimit : USERPAGES < NPAGES := by decide
  have hpages := hspace.pages_lt
  refine (uvmunmapAll_safe hspace.tree hpos (by omega) hspace.users).andThen ?_
  intro _ h₁ hshrunk
  have himage : Image K h₁ root 0 := hspace.toImage.shrink (Nat.zero_le _) hshrunk
  have hall : ∀ n, lookup h₁ root n = none := by
    intro n
    rw [hshrunk.lookup]
    split
    · rfl
    · by_cases hn : n < USERPAGES
      · exact hspace.unmapped n (by omega) hn
      · exact hnone n (by omega)
  refine (freewalk_safe (clear_of_unmapped himage.tree himage.proper hall) (by decide)).mono ?_
  rintro _ h₂ rfl
  have htables : ∀ a, Table (h.without (Frames h root 0 (pagesOf sz))) root a ↔ Table h root a :=
    table_of_agree fun a ha => without_of_not fun hf => (hspace.frame hf).2.1 ha
  show h₁.without (Table h₁ root) = _
  rw [hshrunk.grown.withoutTables, funext fun a => propext (htables a), without_without]
  exact congrArg h.without (funext fun a => propext or_comm)

theorem unmapTrap_safe {pages n : Nat} (hspace : UserSpace K h root pages) (hn : USERPAGES ≤ n)
    (hn' : n < NPAGES)
    (hmapped : lookup h root n ≠ none ∨ allowed "uvmunmap: walk" ∧ allowed "uvmunmap: not mapped") :
    Safe K allowed (fun _ h' => UserSpace K h' root pages ∧ Grown K root h h' ∧
        lookup h root n ≠ none ∧ ∀ m, lookup h' root m = if m = n then none else lookup h root m)
      (uvmunmap root (pageAt n) 4096#64 false) h := by
  obtain ⟨hrange, hfirst, hlast, _⟩ := inRange_page hn'
  by_cases hnone : lookup h root n = none
  · obtain ⟨hwalk, hnot⟩ := hmapped.resolve_left (not_not.mpr hnone)
    exact uvmunmap_stops hspace.tree (by rwa [hfirst]) (by rwa [hfirst]) hwalk hnot
  · obtain ⟨w, hw⟩ := Option.ne_none_iff_exists'.mp hnone
    refine (uvmunmap_safe hspace.tree hrange ?_).mono ?_
    · rw [hfirst, hlast]
      refine ⟨?_, nofun, nofun⟩
      intro m hm hm'
      obtain rfl : m = n := by omega
      exact ⟨w, hw, (hspace.trap m w hn hw).1⟩
    · intro _ h' hunmapped
      rw [hfirst, hlast] at hunmapped
      have hkeep : (h.without fun a => false = true ∧ Framed h root n n a) = h := by
        funext a
        exact without_of_not fun hf => absurd hf.1 (by simp)
      have hgrown := hunmapped.grown
      rw [hkeep] at hgrown
      have hlookup : ∀ m, lookup h' root m = if m = n then none else lookup h root m := by
        intro m
        rw [hunmapped.lookup]
        by_cases hm : m = n
        · rw [if_pos hm, if_pos (by omega)]
        · rw [if_neg hm, if_neg (by omega)]
      refine ⟨⟨hspace.toImage.grown hgrown ?_, ?_⟩, hgrown, hnone, hlookup⟩
      · intro m hm
        rw [hlookup, if_neg (by omega)]
      · intro m v hm hv
        rw [hlookup] at hv
        split at hv
        · cases hv
        · exact hspace.trap m v hm hv

/-- The pages of the trampoline and of the trap frame. -/
def trampolinePage : Nat := NPAGES - 1

def trapframePage : Nat := NPAGES - 2

/-- Both trap pages are mapped. -/
def TrapMapped (h : Heap) (root : Addr) : Prop :=
  lookup h root trampolinePage ≠ none ∧ lookup h root trapframePage ≠ none

theorem TrapMapped.congr (htrap : TrapMapped h root)
    (hlookup : ∀ n, lookup h' root n = lookup h root n) : TrapMapped h' root :=
  ⟨(hlookup _).trans_ne htrap.1, (hlookup _).trans_ne htrap.2⟩

/-- What is left of an address space by `proc_freepagetable`: its tables if its size is 0. -/
def Left (K : Kernel) (h : Heap) (root : Addr) (pages : Nat) (sz : Addr) (h' : Heap) : Prop :=
  if 0 < sz then h' = h.without (SpacePages h root pages) else Grown K root h h'

theorem Left.othersKept {pages : Nat} (hleft : Left K h root pages sz h') :
    OthersKept h root pages h' := by
  intro a page hpage htable hframe
  unfold Left at hleft
  split at hleft
  · rw [hleft, without_of_not (not_or_intro htable hframe), hpage]
  · exact (hleft.keeps hpage htable).1

/-- `proc_freepagetable` panics if a trap page is not mapped, and only then. -/
theorem procFreepagetable_safe {pages : Nat} (hspace : UserSpace K h root pages)
    (hsz : sz = 0 ∨ pages = pagesOf sz)
    (htrap : TrapMapped h root ∨ allowed "uvmunmap: walk" ∧ allowed "uvmunmap: not mapped") :
    Safe K allowed (fun _ h' => TrapMapped h root ∧ Left K h root pages sz h')
      (procFreepagetable root sz) h := by
  have hpages := npages_eq
  have htop : trampolinePage = 67108863 := rfl
  have hframe : trapframePage = 67108862 := rfl
  have huser : USERPAGES = 67108862 := rfl
  have htrampoline : TRAMPOLINE = pageAt trampolinePage := by decide
  have htrapframe : TRAPFRAME = pageAt trapframePage := by decide
  unfold procFreepagetable
  rw [htrampoline, htrapframe]
  refine (unmapTrap_safe hspace (by omega) (by omega) (htrap.imp_left And.left)).andThen ?_
  rintro _ h₁ ⟨hspace₁, hgrown₁, hmapped, hlookup₁⟩
  have hsame : lookup h₁ root trapframePage = lookup h root trapframePage := by
    rw [hlookup₁, if_neg (by omega)]
  refine (unmapTrap_safe hspace₁ (by omega) (by omega) ?_).andThen ?_
  · rw [hsame]
    exact htrap.imp_left And.right
  rintro _ h₂ ⟨hspace₂, hgrown₂, hmapped₁, hlookup₂⟩
  rw [hsame] at hmapped₁
  have hgrown : Grown K root h h₂ := hgrown₁.trans hgrown₂
  unfold Left
  by_cases hpos : 0 < sz
  · have hne : sz.toNat ≠ 0 := by
      exact Nat.pos_iff_ne_zero.mp hpos
    obtain rfl : pages = pagesOf sz := hsz.resolve_left fun hzero => hne (by rw [hzero]; rfl)
    simp only [if_pos hpos]
    refine (uvmfree_safe hspace₂ (by unfold pagesOf; omega) ?_).mono ?_
    · intro n hn
      rw [hlookup₂]
      split
      · rfl
      · rw [hlookup₁]
        split
        · rfl
        · unfold lookup
          rw [if_neg (by omega)]
    · rintro _ h₃ rfl
      have hlt := hspace.pages_lt
      have hframes : Frames h₂ root 0 (pagesOf sz) = Frames h root 0 (pagesOf sz) :=
        frames_congr fun n hn => by
          rw [hlookup₂, if_neg (by omega), hlookup₁, if_neg (by omega)]
      refine ⟨⟨hmapped, hmapped₁⟩, ?_⟩
      show h₂.without (fun a => Table h₂ root a ∨ Frames h₂ root 0 (pagesOf sz) a) = _
      rw [hframes, ← without_without, hgrown.withoutTables, without_without]
      rfl
  · simp only [if_neg hpos]
    exact Safe.ret ⟨⟨hmapped, hmapped₁⟩, hgrown⟩

end Xv6.Vm
