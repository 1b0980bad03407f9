import Xv6.Vm.Fork

/-!
# The memory that `exec` builds

If `exec` returns with a new image, the image is an address space of the size that `exec` set, in
pages that are not those of the old one. This holds for every file, whatever the program headers
say, and for all arguments; panics of `exec` are not ruled out here.
-/

namespace Xv6.Vm

open Interleave Bytes Radix LocalSpec BitVec Option Heap

variable {K : Kernel} {root : Addr} {allowed : String → Prop} {h h' : Heap} {pages : Nat}
  {read : BitVec 32 → BitVec 32 → FileRead}

/-! ### Access to user memory -/

section

variable (hspace : UserSpace K h root pages)
include hspace

theorem walkaddr_safe (va : Addr) :
    Safe K allowed (fun r h' => h' = h ∧ (r = 0 ∨ Frames h root 0 pages r))
      (walkaddr root va) h := by
  unfold walkaddr
  by_cases hva : va < MAXVA
  · have hpage : pageOf va < NPAGES := lt_maxva.mp hva
    rw [if_pos hva]
    refine safe_walk_find hspace.tree hpage ?_
    cases hfollow : follow (child h) root (pathOf (pageOf va)) with
    | none =>
      rw [pointer, hfollow]
      exact Safe.ret ⟨rfl, .inl rfl⟩
    | some t =>
      obtain ⟨page, htable⟩ := hspace.tree.page (le_refl 2) hfollow
      have hlookup := lookup_of_follow hpage hfollow htable
      rw [pointer, hfollow]
      refine safe_load htable ?_
      split
      · exact Safe.ret ⟨rfl, .inl rfl⟩
      next hvalid =>
        split
        · exact Safe.ret ⟨rfl, .inl rfl⟩
        next huser =>
          refine Safe.ret ⟨rfl, .inr ⟨pageOf va, _, Nat.zero_le _, ?_, ?_, rfl⟩⟩
          · -- Only user memory has entries with user access.
            rw [validEntry, if_pos hvalid] at hlookup
            by_contra hhigh
            by_cases htrap : pageOf va < USERPAGES
            · rw [hspace.unmapped _ (by omega) htrap] at hlookup
              cases hlookup
            · exact huser (hspace.trap _ _ (by omega) hlookup).2
          · rw [hlookup, validEntry, if_pos hvalid]
  · rw [if_neg hva]
    exact Safe.ret ⟨rfl, .inl rfl⟩

theorem storeFrame_safe {a : Addr}
    (ha : Frames h root 0 pages a) {f : Page → Page} {α : Type} {post : α → Heap → Prop}
    {rest : Unit → Code α}
    (hrest : ∀ h', UserSpace K h' root pages → Safe K allowed post (rest ()) h') :
    Safe K allowed post (Prog.perform (Op.modify a f) >>= rest) h := by
  obtain ⟨page, hpage⟩ := ne_none_iff_exists'.mp (hspace.frame ha).2.2
  exact safe_modify hpage (hrest _ (hspace.store ha _))

variable {bytes : Nat → Nat}

theorem copyoutFrom_safe {len fuel done : Nat} {dstva : Addr} :
    Safe K allowed (fun _ h' => UserSpace K h' root pages)
      (copyoutFrom root bytes len fuel dstva done) h := by
  induction fuel generalizing h dstva done with
  | zero => exact Safe.ret hspace
  | succ fuel ih =>
    unfold copyoutFrom
    split
    · refine (walkaddr_safe hspace _).andThen ?_
      rintro r h' ⟨rfl, hr⟩
      split
      · exact Safe.ret hspace
      next hne => exact storeFrame_safe hspace (hr.resolve_left hne) fun h' hspace' => ih hspace'
    · exact Safe.ret hspace

theorem copyout_safe {len : Nat} {dstva : Addr} :
    Safe K allowed (fun _ h' => UserSpace K h' root pages)
      (copyout root dstva bytes len) h := copyoutFrom_safe hspace

theorem loadsegFrom_safe {va : Addr}
    {offset sz i : BitVec 32} {fuel : Nat} (hallowed : allowed "loadseg: address should exist") :
    Safe K allowed (fun _ h' => UserSpace K h' root pages)
      (loadsegFrom root va read offset sz fuel i) h := by
  induction fuel generalizing h i with
  | zero => exact Safe.ret hspace
  | succ fuel ih =>
    unfold loadsegFrom
    split
    · refine (walkaddr_safe hspace _).andThen ?_
      rintro r h' ⟨rfl, hr⟩
      split
      · exact safe_stop hallowed
      next hne =>
        generalize (if sz - i < 4096#32 then sz - i else 4096#32) = n
        refine storeFrame_safe hspace (hr.resolve_left hne) ?_
        intro h' hspace'
        split
        · exact ih hspace'
        · exact Safe.ret hspace'
    · exact Safe.ret hspace

end

/-! ### The guard page -/

theorem pte2pa_clearUser (w : Pte) : PTE2PA (w &&& ~~~PTE_U) = PTE2PA w := by
  have huser : ∀ i : Fin 64, (~~~PTE_U).getLsbD i = decide (i.val ≠ 4) := by decide
  apply eq_of_getLsbD_eq
  intro i hi
  rw [PTE2PA, PTE2PA, getLsbD_shiftLeft, getLsbD_shiftLeft, getLsbD_ushiftRight,
    getLsbD_ushiftRight, getLsbD_and]
  by_cases hlow : i < 12
  · simp [hlow]
  · by_cases hbit : 10 + (i - 12) < 64
    · rw [huser ⟨10 + (i - 12), hbit⟩]
      have hne : 10 + (i - 12) ≠ 4 := by omega
      simp [hne]
    · rw [getLsbD_of_ge w _ (by omega), Bool.false_and]

theorem UserSpace.reflag (hspace : UserSpace K h root pages) {n : Nat} {w w' : Pte} (hn : n < pages)
    (hw : lookup h root n = some w) (hleaf : PTE_FLAGS w' ≠ PTE_V) (hpa : PTE2PA w' = PTE2PA w)
    (hgrown : Grown K root h h')
    (hlookup : ∀ m, lookup h' root m = if m = n then some w' else lookup h root m) :
    UserSpace K h' root pages := by
  have hlt := hspace.pages_lt
  -- The page of an entry is the one it was.
  have hpage : ∀ m v, lookup h' root m = some v →
      ∃ v', lookup h root m = some v' ∧ PTE2PA v = PTE2PA v' := by
    intro m v hv
    rw [hlookup] at hv
    split at hv
    next hm => exact ⟨w, by rw [hm, hw], by rw [← some.inj hv, hpa]⟩
    next => exact ⟨v, hv, rfl⟩
  refine ⟨⟨hgrown.tree, hgrown.proper hspace.proper, ?_, ?_, ?_⟩, ?_⟩
  · intro m hm
    obtain ⟨v, page, huser⟩ := hspace.mapped m hm
    obtain ⟨hkept, hapart⟩ := hgrown.keeps huser.page huser.apart
    by_cases hmn : m = n
    · subst hmn
      obtain rfl : w = v := some.inj (hw.symm.trans huser.lookup)
      refine ⟨w', page, by rw [hlookup, if_pos rfl], hleaf, ?_, ?_, ?_⟩
      · rw [hpa]
        exact huser.freeable
      · rwa [hpa]
      · rwa [hpa]
    · exact ⟨v, page, huser.congr (by rw [hlookup, if_neg hmn]) hkept hapart⟩
  · intro m hm hm'
    rw [hlookup, if_neg (by omega)]
    exact hspace.unmapped m hm hm'
  · intro m m' v v' hm hm' hv hv' heq
    obtain ⟨u, hu, hpu⟩ := hpage m v hv
    obtain ⟨u', hu', hpu'⟩ := hpage m' v' hv'
    exact hspace.distinct m m' u u' hm hm' hu hu' (by rw [← hpu, heq, hpu'])
  · intro m v hm hv
    rw [hlookup, if_neg (by omega)] at hv
    exact hspace.trap m v hm hv

theorem uvmclear_safe (hspace : UserSpace K h root pages) {n : Nat} {w : Pte} (hn : n < pages)
    (hw : lookup h root n = some w) (hflags : PTE_FLAGS w = heapFlags) :
    Safe K allowed (fun _ h' => UserSpace K h' root pages) (uvmclear root (pageAt n)) h := by
  have hpages := npages_eq
  obtain ⟨hlt, hvalid, t, page, hfollow, htable, hpte⟩ := exists_of_lookup hw
  have hpage : pageOf (pageAt n) = n := pageOf_pageAt (by omega)
  obtain ⟨hgrown, _, hlookup⟩ := grown_setLeaf K hspace.tree hlt hfollow htable (w &&& ~~~PTE_U)
  have hvalid' : (w &&& ~~~PTE_U) &&& PTE_V ≠ 0 := by
    have hmask : ~~~PTE_U &&& PTE_V = PTE_V := by decide
    rwa [BitVec.and_assoc, hmask]
  have hleaf : PTE_FLAGS (w &&& ~~~PTE_U) ≠ PTE_V := by
    have hclear : PTE_FLAGS (w &&& ~~~PTE_U) = heapFlags &&& ~~~PTE_U := by
      rw [← hflags, PTE_FLAGS, PTE_FLAGS, BitVec.and_assoc, BitVec.and_comm (~~~PTE_U),
        ← BitVec.and_assoc]
    rw [hclear]
    decide
  refine safe_walk_find hspace.tree (by omega) ?_
  rw [hpage, pointer, hfollow]
  refine safe_load htable ?_
  rw [hpte]
  refine ⟨page, htable, ?_⟩
  refine hspace.reflag hn hw hleaf (pte2pa_clearUser w) hgrown ?_
  intro m
  rw [hlookup, if_pos hvalid']

/-! ### exec -/

/-- An address space at the label `bad` of `exec`: `sz` is its size, or 0. -/
def Discarded (K : Kernel) (h : Heap) (root sz : Addr) : Prop :=
  ∃ pages, UserSpace K h root pages ∧ (sz = 0 ∨ pages = pagesOf sz)

variable {sz : Addr}

theorem UserSpace.discarded (hspace : UserSpace K h root (pagesOf sz)) :
    Discarded K h root sz := ⟨_, hspace, .inr rfl⟩

theorem uvmallocAny_safe {oldsz newsz : Addr} (hspace : UserSpace K h root (pagesOf oldsz)) :
    Safe K allowed
      (fun r h' => r ≠ 0 ∧ UserSpace K h' root (pagesOf r) ∨ r = 0 ∧ Discarded K h' root 0)
      (uvmalloc root oldsz newsz) h := by
  by_cases hle : oldsz ≤ newsz
  · refine (uvmalloc_safe hspace.toImage hle).mono ?_
    rintro r h' (⟨rfl, hzeroed⟩ | ⟨rfl, hsame⟩)
    · have hspace' := hspace.extend (pagesOf_mono hle) hzeroed
      by_cases hzero : r = 0
      · exact .inr ⟨hzero, _, hspace', .inl rfl⟩
      · exact .inl ⟨hzero, hspace'⟩
    · exact .inr ⟨rfl, _, hspace.same hsame, .inl rfl⟩
  · have hlt : newsz < oldsz := by
      rw [le_def] at hle
      rw [lt_def]
      omega
    unfold uvmalloc
    rw [if_pos hlt]
    refine Safe.ret (.inl ⟨?_, hspace⟩)
    rintro rfl
    cases hlt

/-- What the loop over the program headers leaves. -/
def Loaded (K : Kernel) (root : Addr) : Except Addr Addr → Heap → Prop
  | .ok sz, h => UserSpace K h root (pagesOf sz)
  | .error sz, h => Discarded K h root sz

/-- The loop over the program headers. -/
theorem execLoad_safe {phdrs : List (Option Proghdr)} (hspace : UserSpace K h root (pagesOf sz))
    (hallowed : allowed "loadseg: address should exist") :
    Safe K allowed (Loaded K root) (execLoad root read phdrs sz) h := by
  induction phdrs generalizing sz h with
  | nil => exact hspace
  | cons ph rest ih =>
    cases ph with
    | none => exact hspace.discarded
    | some ph =>
      unfold execLoad
      split
      · exact ih hspace
      split
      · exact hspace.discarded
      split
      · exact hspace.discarded
      refine (uvmallocAny_safe hspace).andThen ?_
      rintro r h₁ (⟨hne, hspace₁⟩ | ⟨rfl, hdiscarded⟩)
      · rw [if_neg hne]
        split
        · exact hspace₁.discarded
        refine (loadsegFrom_safe hspace₁ hallowed).andThen ?_
        intro ok h₂ hspace₂
        split
        · exact ih hspace₂
        · exact hspace₂.discarded
      · rwa [if_pos rfl]

variable {argv : List (List UInt8)}

theorem execArgs_safe {stackbase sp : Addr} {ustack : List Addr}
    (hspace : UserSpace K h root pages) :
    Safe K allowed (fun _ h' => UserSpace K h' root pages)
      (execArgs root stackbase argv sp ustack) h := by
  induction argv generalizing sp ustack h with
  | nil => exact Safe.ret hspace
  | cons arg rest ih =>
    unfold execArgs
    split
    · exact Safe.ret hspace
    dsimp only
    split
    · exact Safe.ret hspace
    refine (copyout_safe hspace).andThen ?_
    intro ok h₁ hspace₁
    split
    · exact ih hspace₁
    · exact Safe.ret hspace₁

theorem execStack_safe (hspace : UserSpace K h root pages) :
    Safe K allowed (fun _ h' => UserSpace K h' root pages) (execStack root sz argv) h := by
  refine (execArgs_safe hspace).andThen ?_
  intro r h₁ hspace₁
  cases r with
  | none => exact Safe.ret hspace₁
  | some found =>
    dsimp only
    split
    · exact Safe.ret hspace₁
    refine (copyout_safe hspace₁).andThen ?_
    intro ok h₂ hspace₂
    split
    · exact Safe.ret hspace₂
    · exact Safe.ret hspace₂

/-- The two pages above the segments: the new size, and the entry of the first of them. -/
theorem stackPages_safe (hspace : UserSpace K h root (pagesOf sz)) :
    Safe K allowed (fun r h' => r ≠ 0 ∧ UserSpace K h' root (pagesOf r) ∧
          (∃ n w, r - 8192#64 = pageAt n ∧ n < pagesOf r ∧ lookup h' root n = some w ∧
            PTE_FLAGS w = heapFlags) ∨
        r = 0 ∧ Discarded K h' root 0)
      (uvmalloc root (PGROUNDUP sz) (PGROUNDUP sz + 8192#64)) h := by
  have hpages := npages_eq
  have hsize : PGSIZE = 4096 := rfl
  have hmost := hspace.pages_le
  have hup : PGROUNDUP sz = pageAt (pagesOf sz) := roundUp_pages (by omega)
  have hsum : pageAt (pagesOf sz) + 8192#64 = pageAt (pagesOf sz + 2) := by
    have htwo : 8192#64 = pageAt 2 := rfl
    rw [htwo, pageAt_add]
  have hnew : pagesOf (pageAt (pagesOf sz + 2)) = pagesOf sz + 2 := pagesOf_pageAt (by omega)
  have hold : pagesOf (pageAt (pagesOf sz)) = pagesOf sz := pagesOf_pageAt (by omega)
  rw [hup, hsum]
  rw [← hold] at hspace
  refine (uvmalloc_safe hspace.toImage ?_).mono ?_
  · rw [le_def, toNat_pageAt (by omega), toNat_pageAt (by omega), hsize]
    omega
  · rintro r h' (⟨rfl, hzeroed⟩ | ⟨rfl, hsame⟩)
    · rw [hold, hnew] at hzeroed
      rw [hold] at hspace
      obtain ⟨w, huser, hflags, _⟩ := hzeroed.added (pagesOf sz) le_rfl (by omega)
      refine .inl ⟨?_, ?_, pagesOf sz, w, ?_, ?_, huser.lookup, hflags⟩
      · intro hzero
        have hnat := congrArg BitVec.toNat hzero
        rw [toNat_pageAt (by omega), hsize] at hnat
        simp at hnat
      · rw [hnew]
        exact hspace.extend (by omega) hzeroed
      · rw [← hsum, add_sub_cancel]
      · rw [hnew]
        omega
    · exact .inr ⟨rfl, _, hspace.same hsame, .inl rfl⟩

/-- What `execBuild` leaves on a heap of its own. -/
def Built (K : Kernel) : Except (Addr × Addr) (Addr × Addr × Addr) → Heap → Prop
  | .ok (root, sz, _), h => UserSpace K h root (pagesOf sz)
  | .error (root, sz), h => Discarded K h root sz

variable {file : Executable}

theorem execBuild_safe {tf : Addr} (hcreate : allowed "uvmcreate: out of memory")
    (hload : allowed "loadseg: address should exist") :
    Safe K allowed (Built K) (execBuild K tf file argv) noPages := by
  refine (procPagetable_safe hcreate).andThen ?_
  intro root h₁ hspace₁
  refine (execLoad_safe hspace₁ hload).andThen ?_
  intro r h₂ hloaded
  cases r with
  | error sz => exact hloaded
  | ok sz =>
    refine (stackPages_safe hloaded).andThen ?_
    rintro sz h₃ (⟨hne, hspace₃, n, w, hguard, hn, hw, hflags⟩ | ⟨rfl, hdiscarded⟩)
    · rw [if_neg hne, hguard]
      refine (uvmclear_safe hspace₃ hn hw hflags).andThen ?_
      intro _ h₄ hspace₄
      refine (execStack_safe hspace₄).andThen ?_
      intro r h₅ hspace₅
      cases r with
      | none => exact hspace₅.discarded
      | some sp => exact hspace₅
    · rwa [if_pos rfl]

/-- The new image takes the place of the old one and keeps its pages. -/
theorem execCommit_safe {p : Proc} {f : Heap} {entry : BitVec 64} {sz sp : Addr}
    (hnew : UserSpace K h root (pagesOf sz)) (hold : Space K f p) (hdisjoint : h.Disjoint f)
    (htrap : TrapMapped f p.pagetable ∨ allowed "uvmunmap: walk" ∧ allowed "uvmunmap: not mapped") :
    Safe K allowed (fun r h' => r = some { p with pagetable := root, sz := sz } ∧ h.Sub h' ∧
        Space K h' { p with pagetable := root, sz := sz })
      (execCommit p entry root sz sp) (h.union f) := by
  obtain ⟨tf, htf⟩ := ne_none_iff_exists'.mp hold.owned
  have hnone : h p.tf = none := (hdisjoint p.tf).resolve_right hold.owned
  refine safe_modify (sub_union_right hdisjoint _ _ htf) ?_
  generalize ((tf.writeLE 8 120 sp.toNat).writeLE 8 24 entry.toNat).writeLE 8 48 sp.toNat = tf'
  have hold' : Space K (f.set p.tf tf') p := hold.setTrapframe _
  have hunion : (h.union f).set p.tf tf' = h.union (f.set p.tf tf') := by
    funext a
    rcases eq_or_ne a p.tf with rfl | hne
    · rw [set_self, union_of_right hnone, set_self]
    · rw [set_of_ne hne, Heap.union, Heap.union, set_of_ne hne]
  have hdisjoint' : h.Disjoint (f.set p.tf tf') := by
    intro a
    rcases eq_or_ne a p.tf with rfl | hne
    · exact .inl hnone
    · rw [set_of_ne hne]
      exact hdisjoint a
  have hkeeps : ∀ n, lookup (f.set p.tf tf') p.pagetable n = lookup f p.pagetable n :=
    lookup_of_agree fun a ha => set_of_ne fun heq => hold.notTable (heq ▸ ha)
  have htrap' : TrapMapped (f.set p.tf tf') p.pagetable ∨
      allowed "uvmunmap: walk" ∧ allowed "uvmunmap: not mapped" :=
    htrap.imp_left fun hmapped => hmapped.congr hkeeps
  rw [hunion]
  generalize f.set p.tf tf' = g at hold' hdisjoint' htrap'
  have hsub := sub_union_right hdisjoint'
  have hsame := agree_of_sub hold'.user.tree hsub
  have htrap'' := htrap'.imp_left fun hmapped => hmapped.congr (lookup_of_agree hsame)
  -- A page that is not one of the old image's stays.
  have hother : ∀ a, ¬ Table g p.pagetable a → ¬ Frames g p.pagetable 0 (pagesOf p.sz) a →
      ¬ Table (h.union g) p.pagetable a ∧ ¬ Frames (h.union g) p.pagetable 0 (pagesOf p.sz) a := by
    intro a htable hframe
    rw [table_of_agree hsame, frames_of_agree hsame]
    exact ⟨htable, hframe⟩
  refine (procFreepagetable_safe (hold'.user.mono hsub) (.inr rfl) htrap'').andThen ?_
  rintro _ h' ⟨-, hleft⟩
  have hkept := hleft.othersKept
  have hnewKept : h.Sub h' := by
    intro a page hpage
    have hfree : g a = none := hdisjoint'.of_some hpage
    obtain ⟨htable, hframe⟩ := hother a (fun ht => hold'.user.tree.owned a ht hfree)
      (fun hf => (hold'.user.frame hf).2.2 hfree)
    exact hkept a page (union_of_left hpage) htable hframe
  refine Safe.ret ⟨rfl, hnewKept, space_of_user hnew hnewKept hold.freeable hnone ?_⟩
  obtain ⟨page, hpage⟩ := ne_none_iff_exists'.mp hold'.owned
  obtain ⟨htable, hframe⟩ := hother p.tf hold'.notTable hold'.notFrame
  rw [hkept _ page (hsub _ _ hpage) htable hframe]
  simp

/-- If `exec` succeeds, the process has an address space of its new size. -/
theorem execImage_safe {p : Proc} (hspace : Space K h p) (hallowed : ∀ message, allowed message) :
    Safe K allowed (fun r h' => ∀ p', r = some p' → Space K h' p') (execImage K p file argv) h := by
  have hbuild : Safe K allowed _ (execBuild K p.tf file argv) noPages :=
    execBuild_safe (hallowed _) (hallowed _)
  have hframed := safe_frame hbuild (noPages_disjoint (h := h))
  refine hframed.andThen ?_
  rintro r _ ⟨h₁, hbuilt, hdisjoint, rfl⟩
  match r with
  | .error (root, sz) =>
    obtain ⟨pages, hspace₁, hsz⟩ := hbuilt
    have hfree := procFreepagetable_safe hspace₁ hsz (.inr ⟨hallowed _, hallowed _⟩)
    refine (safe_frame hfree hdisjoint).andThen ?_
    intro _ _ _
    exact Safe.ret nofun
  | .ok (root, sz, sp) =>
    refine (execCommit_safe hbuilt hspace hdisjoint (.inr ⟨hallowed _, hallowed _⟩)).mono ?_
    rintro r h' ⟨rfl, _, hspace'⟩ p' hp'
    cases hp'
    exact hspace'

end Xv6.Vm
