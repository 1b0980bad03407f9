import Xv6.Bio.References
import Xv6.Bio.System

/-!
# The buffer cache is transparent

A buffer that has been changed and not written is locked or pinned, so `bget` does not recycle it.
Hence every block has its latest contents in its valid buffer, or on disk if it has none or if that
buffer is not dirty. Read `bcache_transparent` first: what the processes read and store is a legal
history of a flat map, whatever the order of their steps.
-/

namespace Xv6.Bio

open Interleave Function Option Discipline Machine List Bcache

variable {Proc : Type} {disk₀ : BlockId → Block} {s s' : State Proc}
  {g : Proc → Hands BlockId} {p : Proc} {i : BufIdx} {b : BlockId} {own : Hands BlockId}
  {held : Label} {c d : Bcache BlockId Proc} {disk : BlockId → Block} {dirty : BufIdx → Bool}
  {m : BlockId → Block}

/-! ### The invariant -/

/-- Whoever has locked a buffer holds it or is about to. -/
def Owned (c : Bcache BlockId Proc) (g : Proc → Hands BlockId) : Prop :=
  ∀ i p, (c.buf i).lock = some p →
    i ∈ (g p).held.map Prod.fst ∨ ∃ b, (g p).moving = some ⟨i, b, .locked⟩

/-- The cache and the disks together contain the map `m`. -/
structure Contents (c : Bcache BlockId Proc) (disk : BlockId → Block) (dirty : BufIdx → Bool)
    (m : BlockId → Block) : Prop where
  cached : ∀ i, (c.buf i).valid = true → (c.buf i).data = m (c.buf i).blockno
  stored : ∀ b, (∀ i, (c.buf i).valid = true → (c.buf i).blockno = b → dirty i = false) →
    disk b = m b

theorem Contents.keeps (h : Contents c disk dirty m) (hkeeps : c.Keeps d)
    (hdirty : ∀ i, dirty i = true → (c.buf i).valid = true → (d.buf i).valid = true) :
    Contents d disk dirty m := by
  constructor
  · intro i hvalid
    obtain ⟨hold, hlabel, hdata⟩ := hkeeps i hvalid
    rw [hdata, hlabel]
    exact h.cached i hold
  · intro b hclean
    refine h.stored b fun i hvalid hlabel => ?_
    by_contra hnot
    have hvalid' := hdirty i (by simpa using hnot) hvalid
    obtain ⟨-, hsame, -⟩ := hkeeps i hvalid'
    exact hnot (hclean i hvalid' (hsame.trans hlabel))

section

variable {f : Buf BlockId Proc → Buf BlockId Proc}
  (hlabel : (f (c.buf i)).blockno = (c.buf i).blockno)
  (hvalid : (f (c.buf i)).valid = (c.buf i).valid) (hdata : (f (c.buf i)).data = (c.buf i).data)
include hlabel hvalid hdata

theorem keeps_modify : c.Keeps (c.modify i f) := by
  intro j hj
  by_cases hji : j = i
  · subst hji
    rw [buf_modify_self] at hj ⊢
    exact ⟨hvalid ▸ hj, hlabel, hdata⟩
  · rw [buf_modify_of_ne c f hji] at hj ⊢
    exact ⟨hj, rfl, rfl⟩

/-- Changing neither the label, the validity nor the data of a buffer. -/
theorem Contents.modify (h : Contents c disk dirty m) : Contents (c.modify i f) disk dirty m := by
  refine h.keeps (keeps_modify hlabel hvalid hdata) fun j _ hj => ?_
  by_cases hji : j = i
  · subst hji
    rwa [buf_modify_self, hvalid]
  · rwa [buf_modify_of_ne c f hji]

end

theorem fill_eq (disk : BlockId → Block) (b : Buf BlockId Proc) :
    fill disk b = { b with data := (fill disk b).data, valid := true } := by
  unfold fill
  split
  next hvalid => rw [← hvalid]
  next => rfl

theorem Contents.fill (h : Contents c disk dirty m)
    (hdata : (Bio.fill disk (c.buf i)).data = m (c.buf i).blockno) :
    Contents (c.modify i (Bio.fill disk)) disk dirty m := by
  have hself : (c.modify i (Bio.fill disk)).buf i =
      { c.buf i with data := (Bio.fill disk (c.buf i)).data, valid := true } :=
    (buf_modify_self ..).trans (fill_eq disk _)
  constructor
  · intro j hj
    by_cases hji : j = i
    · subst hji
      rwa [hself]
    · rw [buf_modify_of_ne _ _ hji] at hj ⊢
      exact h.cached j hj
  · intro b hclean
    refine h.stored b fun j hj hjb => ?_
    by_cases hji : j = i
    · subst hji
      exact hclean j (by rw [hself]) (by rw [hself]; exact hjb)
    · refine hclean j ?_ ?_
      · rwa [buf_modify_of_ne _ _ hji]
      · rwa [buf_modify_of_ne _ _ hji]

theorem Contents.bwrite (h : Contents c disk dirty m) (hvalid : (c.buf i).valid = true) :
    Contents c (update disk (c.buf i).blockno (c.buf i).data) (update dirty i false) m := by
  refine ⟨h.cached, fun b hclean => ?_⟩
  by_cases hb : b = (c.buf i).blockno
  · subst hb
    rw [update_self]
    exact h.cached i hvalid
  · rw [update_of_ne hb]
    refine h.stored b fun j hj hjb => ?_
    have hji : j ≠ i := by
      rintro rfl
      exact hb hjb.symm
    have hclean' := hclean j hj hjb
    rwa [update_of_ne hji] at hclean'

variable [Fintype Proc]

/-- The invariant; the processes started with the disks `disk₀`. -/
structure Inv (disk₀ : BlockId → Block) (s : State Proc) (g : Proc → Hands BlockId) : Prop where
  shares : Shares s.bcache s.pins g
  owned : Owned s.bcache g
  dirty : ∀ i, s.dirty i = true →
    (s.bcache.buf i).valid = true ∧ (0 < s.pins i ∨ (s.bcache.buf i).lock ≠ none)
  contents : Contents s.bcache s.disk s.dirty (FlatMap.after disk₀ s.history)
  legal : FlatMap.Legal disk₀ s.history

theorem Inv.contents_store (h : Inv disk₀ s g) (hheld : (i, b) ∈ (g p).held) (block : Block) :
    Contents (s.bcache.modify i fun b => { b with data := block }) s.disk (update s.dirty i true)
      (update (FlatMap.after disk₀ s.history) b block) := by
  obtain ⟨-, hblock, hvalid⟩ := (h.shares.hands p).held i b hheld
  -- no other buffer is valid for the block
  have hne : ∀ j, j ≠ i → (s.bcache.buf j).valid = true → (s.bcache.buf j).blockno ≠ b := by
    intro j hji hj hjb
    exact hji (h.shares.cache.eq_of_blockno_eq (.inl hj) (.inl hvalid) (hjb.trans hblock.symm))
  constructor
  · intro j hj
    by_cases hji : j = i
    · subst hji
      simp [hblock]
    · rw [buf_modify_of_ne _ _ hji] at hj ⊢
      rw [update_of_ne (hne j hji hj)]
      exact h.contents.cached j hj
  · intro b' hclean
    have hb' : b' ≠ b := by
      rintro rfl
      have := hclean i (by simpa using hvalid) (by simpa using hblock)
      simp at this
    rw [update_of_ne hb']
    refine h.contents.stored b' fun j hj hjb => ?_
    have hji : j ≠ i := by
      rintro rfl
      exact hb' (hjb.symm.trans hblock)
    have hclean' := hclean j (by rwa [buf_modify_of_ne _ _ hji]) (by rwa [buf_modify_of_ne _ _ hji])
    rwa [update_of_ne hji] at hclean'

variable [DecidableEq Proc] {next : Hands BlockId}

omit [Fintype Proc] in
theorem Owned.update (h : Owned c g)
    (hother : ∀ i q, q ≠ p → (d.buf i).lock = some q → (c.buf i).lock = some q)
    (hself : ∀ i, (d.buf i).lock = some p →
      i ∈ next.held.map Prod.fst ∨ ∃ b, next.moving = some ⟨i, b, .locked⟩) :
    Owned d (update g p next) := by
  intro i q hlock
  by_cases hq : q = p
  · subst hq
    rw [update_self]
    exact hself i hlock
  · rw [update_of_ne hq]
    exact h i q (hother i q hq hlock)

theorem Inv.referenced (h : Inv disk₀ s g) (hdirty : s.dirty i = true) :
    0 < totalRefs g i + s.pins i := by
  rcases (h.dirty i hdirty).2 with hpins | hlock
  · omega
  · obtain ⟨q, hq⟩ := ne_none_iff_exists'.mp hlock
    have hle := refs_le_totalRefs g q i
    have hpos : 0 < (g q).refs i := by
      rcases h.owned i q hq with hmem | ⟨b, hmoving⟩
      · obtain ⟨⟨j, b⟩, hheld, rfl⟩ := mem_map.mp hmem
        exact Hands.refs_pos_of_held hheld
      · exact Hands.refs_pos_of_moving hmoving
    omega

theorem Inv.relock (h : Inv disk₀ s g) {lock : Option Proc}
    (hshares : Shares (s.bcache.modify i fun b => { b with lock := lock }) s.pins (update g p next))
    (hlock : ∀ q, lock = some q → q = p)
    (hself : lock = some p → i ∈ next.held.map Prod.fst ∨ ∃ b, next.moving = some ⟨i, b, .locked⟩)
    (hkeep : ∀ j, j ≠ i → (j ∈ (g p).held.map Prod.fst ∨ ∃ b, (g p).moving = some ⟨j, b, .locked⟩) →
      j ∈ next.held.map Prod.fst ∨ ∃ b, next.moving = some ⟨j, b, .locked⟩)
    (hdirty : s.dirty i = true → 0 < s.pins i ∨ lock ≠ none) :
    Inv disk₀ (s.modifyBuf i fun b => { b with lock := lock }) (update g p next) := by
  let c := s.bcache.modify i fun b => { b with lock := lock }
  have hself_buf : c.buf i = { s.bcache.buf i with lock := lock } := buf_modify_self ..
  have hother_buf : ∀ j, j ≠ i → c.buf j = s.bcache.buf j := fun j hj => buf_modify_of_ne _ _ hj
  refine ⟨hshares, ?_, ?_, ?_, h.legal⟩
  · refine h.owned.update (d := c) ?_ ?_
    · intro j q hq hj
      by_cases hji : j = i
      · subst hji
        rw [hself_buf] at hj
        exact absurd (hlock q hj) hq
      · rwa [hother_buf j hji] at hj
    · intro j hj
      by_cases hji : j = i
      · subst hji
        rw [hself_buf] at hj
        exact hself hj
      · rw [hother_buf j hji] at hj
        exact hkeep j hji (h.owned j p hj)
  · intro j hj
    obtain ⟨hvalid, hpinned⟩ := h.dirty j hj
    show (c.buf j).valid = true ∧ (0 < s.pins j ∨ (c.buf j).lock ≠ none)
    by_cases hji : j = i
    · subst hji
      rw [hself_buf]
      exact ⟨hvalid, hdirty hj⟩
    · rw [hother_buf j hji]
      exact ⟨hvalid, hpinned⟩
  · exact h.contents.modify (f := fun b => { b with lock := lock }) rfl rfl rfl

/-- How the processes share the cache. -/
def discipline (Proc : Type) [Fintype Proc] [DecidableEq Proc] (disk₀ : BlockId → Block) :
    Discipline (machine Proc) (Hands BlockId) where
  inv := Inv disk₀
  needs := fun _ _ _ => True
  idle := fun _ held own => own = ⟨held, none⟩
  allowed := fun message => message = "bget: no buffers"
  guard := fun p o s => matched p o s = true ∧ countable p o s = true

theorem triple_step {o : Op} {post : Res o → Hands BlockId → Prop}
    (hstep : ∀ s g, Inv disk₀ s g → g p = own → matched p o s = true → countable p o s = true →
      (exec p () o s).Ensures (fun message => message = "bget: no buffers")
        fun result s' => ∃ own', Inv disk₀ s' (update g p own') ∧ post result own') :
    (discipline Proc disk₀).Triple p own (.perform o) post :=
  Discipline.Triple.perform rfl trivial fun s g _ hinv hown hguard =>
    hstep s g hinv hown hguard.1 hguard.2

/-! ### bread -/

theorem triple_bget : (discipline Proc disk₀).Triple p ⟨held, none⟩ (.perform (.bget b))
      fun i own' => own' = ⟨held, some ⟨i, b, .waiting⟩⟩ := by
  refine triple_step fun s g hinv hown _ hcount => ?_
  simp only [exec]
  split
  next i bcache hget =>
    have hsmall : ∀ j, s.bcache.lookup b = some j → totalRefs g j + s.pins j + 1 < 2 ^ 32 := by
      intro j hlookup
      have hj := of_decide_eq_true ((Option.all_eq_true _ _).mp hcount j hlookup)
      rwa [hinv.shares.cache.exact j] at hj
    obtain ⟨hshares, hkeeps, hlock, hsame⟩ := hinv.shares.bget (by rw [hown]) hsmall hget
    rw [hown] at hshares
    refine ⟨_, ⟨hshares, ?_, ?_, ?_, hinv.legal⟩, rfl⟩
    · refine hinv.owned.update (fun j q _ hj => (hlock j).symm.trans hj) fun j hj => ?_
      have hold := hinv.owned j p ((hlock j).symm.trans hj)
      rw [hown] at hold
      rcases hold with hmem | ⟨b', hmoving⟩
      · exact .inl hmem
      · cases hmoving
    · intro j hj
      obtain ⟨hvalid, hpinned⟩ := hinv.dirty j hj
      refine ⟨(hsame j (hinv.referenced hj)).2.trans hvalid, ?_⟩
      rwa [hlock j]
    · refine hinv.contents.keeps hkeeps fun j hj hvalid => ?_
      exact (hsame j (hinv.referenced hj)).2.trans hvalid
  next => rfl

theorem triple_acquiresleep :
    (discipline Proc disk₀).Moves p ⟨held, some ⟨i, b, .waiting⟩⟩ (.perform (.acquiresleep i))
      ⟨held, some ⟨i, b, .locked⟩⟩ := by
  refine triple_step fun s g hinv hown _ _ => ?_
  simp only [exec]
  split
  next hfree =>
    have hshares := hinv.shares.acquiresleep (by rw [hown]) hfree
    rw [hown] at hshares
    refine ⟨_, hinv.relock hshares (fun q hq => (some.inj hq).symm) (fun _ => .inr ⟨b, rfl⟩)
      ?_ (fun _ => .inr (by simp)), rfl⟩
    intro j _ hj
    rw [hown] at hj
    rcases hj with hmem | ⟨b', hmoving⟩
    · exact .inl hmem
    · cases hmoving
  next => trivial

/-- Filling a buffer of the block `b` reads the contents of that block. -/
theorem Inv.data_fill (h : Inv disk₀ s g) (hmoving : (g p).moving = some ⟨i, b, .locked⟩) :
    (fill s.disk (s.bcache.buf i)).data = FlatMap.after disk₀ s.history b := by
  have hblock : (s.bcache.buf i).blockno = b := ((h.shares.hands p).moving _ hmoving).1
  unfold fill
  split
  next hvalid => rw [h.contents.cached i hvalid, hblock]
  next hinvalid =>
    rw [hblock]
    refine h.contents.stored b fun j hj hjb => ?_
    -- no other buffer is valid for the block
    have huse := h.shares.inUse (Hands.refs_pos_of_moving hmoving)
    obtain rfl := h.shares.cache.eq_of_blockno_eq huse (.inl hj) (hblock.trans hjb.symm)
    exact absurd hj hinvalid

theorem triple_fill :
    (discipline Proc disk₀).Moves p ⟨held, some ⟨i, b, .locked⟩⟩ (.perform (.fill i b))
      ⟨(i, b) :: held, none⟩ := by
  refine triple_step fun s g hinv hown _ _ => ⟨⟨(i, b) :: held, none⟩, ?_, rfl⟩
  have hmoving : (g p).moving = some ⟨i, b, .locked⟩ := by rw [hown]
  have hblock : (s.bcache.buf i).blockno = b := ((hinv.shares.hands p).moving _ hmoving).1
  have hdata := hinv.data_fill hmoving
  have hfill := fill_eq s.disk (s.bcache.buf i)
  have hlock : (fill s.disk (s.bcache.buf i)).lock = (s.bcache.buf i).lock := by rw [hfill]
  have hshares := hinv.shares.fill hmoving (by rw [hfill]) (by rw [hfill]) hlock (by rw [hfill])
  rw [hown] at hshares
  have hlocks : ∀ j, ((s.bcache.modify i (fill s.disk)).buf j).lock = (s.bcache.buf j).lock := by
    intro j
    by_cases hji : j = i
    · subst hji
      rw [buf_modify_self, hlock]
    · rw [buf_modify_of_ne _ _ hji]
  refine ⟨hshares, ?_, ?_, ?_, ?_⟩
  · refine hinv.owned.update (fun j q _ hj => (hlocks j).symm.trans hj) fun j hj => ?_
    have hold := hinv.owned j p ((hlocks j).symm.trans hj)
    rw [hown] at hold
    rcases hold with hmem | ⟨b', hlocked⟩
    · exact .inl (mem_cons_of_mem _ hmem)
    · obtain rfl : i = j := congrArg Moving.idx (some.inj hlocked)
      exact .inl mem_cons_self
  · intro j hj
    obtain ⟨hvalid, hpinned⟩ := hinv.dirty j hj
    show ((s.bcache.modify i (fill s.disk)).buf j).valid = true ∧
      (0 < s.pins j ∨ ((s.bcache.modify i (fill s.disk)).buf j).lock ≠ none)
    rw [hlocks j]
    refine ⟨?_, hpinned⟩
    by_cases hji : j = i
    · subst hji
      rw [buf_modify_self, hfill]
    · rwa [buf_modify_of_ne _ _ hji]
  · show Contents (s.bcache.modify i (fill s.disk)) s.disk s.dirty
      (FlatMap.after disk₀ (s.history ++ [.read b (fill s.disk (s.bcache.buf i)).data]))
    rw [FlatMap.after_append]
    exact hinv.contents.fill (hdata.trans (by rw [hblock]))
  · refine (FlatMap.legal_append ..).mpr ⟨hinv.legal, hdata.symm⟩

theorem triple_bread : (discipline Proc disk₀).Triple p ⟨held, none⟩ (bread b)
      fun i own' => own' = ⟨(i, b) :: held, none⟩ := by
  refine .bind_eq triple_bget fun i => ?_
  refine .seq triple_acquiresleep ?_
  exact .seq triple_fill (.ret rfl)

/-! ### Changing and writing a buffer -/

theorem triple_store {block : Block} (hheld : (i, b) ∈ held) :
    (discipline Proc disk₀).Moves p ⟨held, none⟩ (.perform (.store i b block)) ⟨held, none⟩ := by
  refine triple_step fun s g hinv hown _ _ => ⟨⟨held, none⟩, ?_, rfl⟩
  have hmine : (i, b) ∈ (g p).held := by
    rwa [hown]
  obtain ⟨hlock, -, hvalid⟩ := (hinv.shares.hands p).held i b hmine
  let c := s.bcache.modify i fun b => { b with data := block }
  have hbufs : ∀ j, (c.buf j).lock = (s.bcache.buf j).lock ∧
      (c.buf j).valid = (s.bcache.buf j).valid := by
    intro j
    by_cases hji : j = i
    · subst hji
      simp [c]
    · simp [c, buf_modify_of_ne _ _ hji]
  rw [← hown, update_eq_self]
  refine ⟨hinv.shares.setData hmine block, ?_, ?_, ?_, ?_⟩
  · intro j q hj
    exact hinv.owned j q ((hbufs j).1.symm.trans hj)
  · intro j hj
    show (c.buf j).valid = true ∧ (0 < s.pins j ∨ (c.buf j).lock ≠ none)
    rw [(hbufs j).1, (hbufs j).2]
    by_cases hji : j = i
    · subst hji
      exact ⟨hvalid, .inr (by simp [hlock])⟩
    · refine hinv.dirty j ?_
      simpa [hji] using hj
  · show Contents c s.disk (update s.dirty i true)
      (FlatMap.after disk₀ (s.history ++ [.write b block]))
    rw [FlatMap.after_append]
    exact hinv.contents_store hmine block
  · exact (FlatMap.legal_append ..).mpr ⟨hinv.legal, trivial⟩

theorem triple_bwrite (hheld : (i, b) ∈ held) :
    (discipline Proc disk₀).Moves p ⟨held, none⟩ (.perform (.bwrite i)) ⟨held, none⟩ := by
  refine triple_step fun s g hinv hown _ _ => ?_
  have hmine : (i, b) ∈ (g p).held := by
    rwa [hown]
  obtain ⟨hlock, hblock, hvalid⟩ := (hinv.shares.hands p).held i b hmine
  simp only [exec]
  rw [if_pos hlock]
  refine ⟨⟨held, none⟩, ?_, rfl⟩
  rw [← hown, update_eq_self]
  refine ⟨hinv.shares, hinv.owned, ?_, hinv.contents.bwrite hvalid, hinv.legal⟩
  intro j hj
  have hji : j ≠ i := by
    rintro rfl
    simp at hj
  exact hinv.dirty j (by simpa [hji] using hj)

/-! ### brelse, bpin and bunpin -/

theorem triple_releasesleep (hheld : (i, b) ∈ held) :
    (discipline Proc disk₀).Moves p ⟨held, none⟩ (.perform (.releasesleep i))
      ⟨held.erase (i, b), some ⟨i, b, .released⟩⟩ := by
  refine triple_step fun s g hinv hown hmatched _ => ?_
  have hmine : (i, b) ∈ (g p).held := by
    rwa [hown]
  obtain ⟨hlock, -, -⟩ := (hinv.shares.hands p).held i b hmine
  simp only [exec]
  rw [if_pos hlock]
  have hshares := hinv.shares.releasesleep hmine (by rw [hown])
  rw [hown] at hshares
  refine ⟨_, hinv.relock hshares nofun nofun ?_ ?_, rfl⟩
  · intro j hji hj
    rw [hown] at hj
    rcases hj with hmem | ⟨b', hmoving⟩
    · obtain ⟨⟨j, b'⟩, hj, rfl⟩ := mem_map.mp hmem
      refine .inl (mem_map.mpr ⟨(j, b'), ?_, rfl⟩)
      exact (mem_erase_of_ne fun heq => hji (Prod.mk.inj heq).1).mpr hj
    · cases hmoving
  · intro hdirty
    left
    simpa [matched, hdirty] using hmatched

theorem Inv.recount (h : Inv disk₀ s g) {pins : BufIdx → Nat}
    (hsame : ∀ j, ∃ n, d.buf j = { s.bcache.buf j with refcnt := n })
    (hshares : Shares d pins (update g p next))
    (hnext : ∀ j, (j ∈ (g p).held.map Prod.fst ∨ ∃ b, (g p).moving = some ⟨j, b, .locked⟩) →
      j ∈ next.held.map Prod.fst ∨ ∃ b, next.moving = some ⟨j, b, .locked⟩)
    (hpins : ∀ j, s.dirty j = true → 0 < s.pins j → 0 < pins j ∨ (s.bcache.buf j).lock ≠ none) :
    Inv disk₀ { s with bcache := d, pins := pins } (update g p next) := by
  have hbuf : ∀ j, (d.buf j).lock = (s.bcache.buf j).lock ∧
      (d.buf j).valid = (s.bcache.buf j).valid ∧
      (d.buf j).blockno = (s.bcache.buf j).blockno ∧ (d.buf j).data = (s.bcache.buf j).data := by
    intro j
    obtain ⟨n, hj⟩ := hsame j
    rw [hj]
    exact ⟨rfl, rfl, rfl, rfl⟩
  refine ⟨hshares, ?_, ?_, ?_, h.legal⟩
  · refine h.owned.update (fun j q _ hj => (hbuf j).1.symm.trans hj) fun j hj => ?_
    exact hnext j (h.owned j p ((hbuf j).1.symm.trans hj))
  · intro j hj
    obtain ⟨hvalid, hpinned⟩ := h.dirty j hj
    rw [(hbuf j).1, (hbuf j).2.1]
    exact ⟨hvalid, hpinned.elim (hpins j hj) .inr⟩
  · refine h.contents.keeps (fun j hj => ?_) fun j _ hj => ?_
    · exact ⟨(hbuf j).2.1.symm.trans hj, (hbuf j).2.2⟩
    · exact (hbuf j).2.1.trans hj

theorem triple_bput :
    (discipline Proc disk₀).Moves p ⟨held, some ⟨i, b, .released⟩⟩ (.perform (.bput i))
      ⟨held, none⟩ := by
  refine triple_step fun s g hinv hown _ _ => ?_
  have hshares := hinv.shares.bput (by rw [hown])
  rw [hown] at hshares
  refine ⟨_, hinv.recount ?_ hshares ?_ fun _ _ hpins => .inl hpins, rfl⟩
  · intro j
    rw [buf_brelse]
    exact s.bcache.modify_refcnt_same i (fun n => n - 1) j
  · intro j hj
    rw [hown] at hj
    rcases hj with hmem | ⟨b', hmoving⟩
    · exact .inl hmem
    · exact nomatch congrArg Moving.stage (some.inj hmoving)

theorem triple_brelse (hheld : (i, b) ∈ held) :
    (discipline Proc disk₀).Moves p ⟨held, none⟩ (brelse i) ⟨held.erase (i, b), none⟩ := by
  exact .seq (triple_releasesleep hheld) <| triple_bput

theorem triple_bpin (hheld : (i, b) ∈ held) :
    (discipline Proc disk₀).Moves p ⟨held, none⟩ (.perform (.bpin i)) ⟨held, none⟩ := by
  refine triple_step fun s g hinv hown _ hcount => ⟨⟨held, none⟩, ?_, rfl⟩
  have hmine : (i, b) ∈ (g p).held := by
    rwa [hown]
  obtain ⟨-, -, hvalid⟩ := (hinv.shares.hands p).held i b hmine
  have hsmall : totalRefs g i + s.pins i + 1 < 2 ^ 32 := by
    have hi : (s.bcache.buf i).refcnt.toNat + 1 < 2 ^ 32 := of_decide_eq_true hcount
    rwa [hinv.shares.cache.exact i] at hi
  have hself : update g p ⟨held, none⟩ = g := by rw [← hown, update_eq_self]
  refine hinv.recount (s.bcache.modify_refcnt_same i fun n => n + 1) ?_ ?_ ?_
  · rw [hself]
    exact hinv.shares.bpin (.inl hvalid) hsmall
  · intro j hj
    rwa [hown] at hj
  · intro j _ hj
    left
    by_cases hji : j = i
    · subst hji
      simp
    · simpa [hji] using hj

theorem triple_bunpin : (discipline Proc disk₀).Moves p own (.perform (.bunpin i)) own := by
  refine triple_step fun s g hinv hown hmatched _ => ⟨own, ?_, rfl⟩
  simp only [matched, Bool.and_eq_true, decide_eq_true_eq] at hmatched
  obtain ⟨hpos, hrule⟩ := hmatched
  obtain ⟨n, hn⟩ : ∃ n, s.pins i = n + 1 := Nat.exists_eq_succ_of_ne_zero (by omega)
  have hself : update g p own = g := by rw [← hown, update_eq_self]
  refine hinv.recount (s.bcache.modify_refcnt_same i fun n => n - 1) ?_ ?_ ?_
  · rw [hself, hn, Nat.add_sub_cancel]
    exact hinv.shares.bunpin hn
  · intro j hj
    rwa [hown] at hj
  · intro j hdirty hj
    by_cases hji : j = i
    · subst hji
      simp only [hdirty, Bool.not_true, Bool.false_or, Bool.or_eq_true, decide_eq_true_eq,
        isSome_iff_ne_none] at hrule
      rw [update_self]
      rcases hrule with hlock | hmore
      · exact .inr hlock
      · left
        omega
    · left
      simpa [hji] using hj

/-! ### Every run -/

theorem codeSafe : (discipline Proc disk₀).CodeSafe := by
  refine codeSafe_of_calls fun p held own call hidle => ?_
  obtain rfl : own = ⟨held, none⟩ := hidle
  cases call with
  | bread b => exact .made (.bind_eq triple_bread fun i => .ret rfl)
  | bunpin i => exact .made (.bind_eq triple_bunpin fun _ => .ret rfl)
  | store buf block =>
    refine .guard fun hheld => .made ?_
    exact .seq (triple_store hheld) (.ret rfl)
  | bwrite buf =>
    refine .guard fun hheld => .made ?_
    exact .seq (triple_bwrite hheld) (.ret rfl)
  | brelse buf =>
    refine .guard fun hheld => .made ?_
    exact .seq (triple_brelse hheld) (.ret rfl)
  | bpin buf =>
    refine .guard fun hheld => .made ?_
    exact .seq (triple_bpin hheld) (.ret rfl)

theorem holds_run {config : Config Proc Op Res (State Proc) Label}
    (h : (machine Proc).Run (discipline Proc disk₀).Meets (start disk₀) config) :
    (discipline Proc disk₀).Holds config := by
  have hinit : Inv disk₀ (State.init disk₀ : State Proc) fun _ => .none := by
    refine ⟨Shares.init, nofun, nofun, ⟨nofun, fun _ _ => rfl⟩, trivial⟩
  have hstart : (discipline Proc disk₀).Holds (start disk₀) :=
    ⟨⟨fun _ => .none, hinit, fun _ => rfl⟩, nofun⟩
  exact holds_of_run codeSafe hstart h

/-- What the users of the cache must do, and how many references a buffer may have. -/
def careful (p : Proc) (o : Op) (s : State Proc) : Bool := matched p o s && countable p o s

/-- The buffer cache is transparent. In every run whose steps are careful: at most one buffer is
referenced or valid for a block. What `bread` has returned and what the processes have stored, in
this order, is a legal history of a flat map that starts as the disks do. A buffer that a process
has got from `bread` is locked by it and holds what the map has for the block. And the only panic is
the one for a cache in which all buffers are referenced. -/
theorem bcache_transparent {config : Config Proc Op Res (State Proc) Label}
    (h : (machine Proc).Run (fun c e => Machine.atStep careful c e = true) (start disk₀) config) :
    (∀ i j, (config.state.bcache.buf i).InUse → (config.state.bcache.buf j).InUse →
      (config.state.bcache.buf i).blockno = (config.state.bcache.buf j).blockno → i = j) ∧
    FlatMap.Legal disk₀ config.state.history ∧
    (∀ p held i b, config.prog p = .ret held → (i, b) ∈ held →
      (config.state.bcache.buf i).lock = some p ∧ (config.state.bcache.buf i).blockno = b ∧
        (config.state.bcache.buf i).data = FlatMap.after disk₀ config.state.history b) ∧
    ∀ message, config.panicked = some message → message = "bget: no buffers" := by
  have hmeets : (machine Proc).Run (discipline Proc disk₀).Meets (start disk₀) config :=
    h.mono fun c e he => meets_of_atStep (fun _ _ _ hc => Bool.and_eq_true_iff.mp hc) he
  obtain ⟨⟨g, hinv, hready⟩, hpanic⟩ := holds_run hmeets
  refine ⟨fun i j => hinv.shares.cache.eq_of_blockno_eq, hinv.legal, ?_, hpanic⟩
  intro p held i b hprog hmem
  have hown := hready p
  rw [hprog] at hown
  have hheld : (i, b) ∈ (g p).held := by
    rwa [show g p = ⟨held, none⟩ from hown]
  obtain ⟨hlock, hblock, hvalid⟩ := (hinv.shares.hands p).held i b hheld
  refine ⟨hlock, hblock, ?_⟩
  rw [hinv.contents.cached i hvalid, hblock]

/-! ### Runs -/

/-- A call of process `p` and a number of its operations. -/
def steps {n : Nat} (p : Fin n) (call : Call) (operations : Nat) : List (Event (Fin n) Call Unit) :=
  .call p call () :: List.replicate operations (.step p ())

/-- Block `k` of device 0. -/
def blockAt (k : Nat) : BlockId := ⟨0, UInt32.ofNat k⟩

/-- A block that is not all zeros. -/
def mark : Block := Bytes.Buffer.zeros.writeLE 1 0 7

/-- Disks of zeros. -/
def blank : BlockId → Block := fun _ => Bytes.Buffer.zeros

/-- Process 0 changes block 0 of device 0, pins it and releases it without writing it. Process 1
reads the block, writes it and unpins it. -/
def pinnedUpdate : List (Event (Fin 2) Call Unit) :=
  steps 0 (.bread 0) 3 ++ steps 0 (.store (29, 0) mark) 1 ++ steps 0 (.bpin (29, 0)) 1 ++
    steps 0 (.brelse (29, 0)) 2 ++ steps 1 (.bread 0) 3 ++ steps 1 (.bwrite (29, 0)) 1 ++
    steps 1 (.bunpin 29) 1

theorem bcache_transparent_pinnedUpdate :
    ∃ config, (machine (Fin 2)).Run (fun c e => Machine.atStep careful c e = true)
        (start blank) config ∧
      config.state.history.length = 3 ∧ (config.state.disk 0).byte 0 = 7 ∧
      FlatMap.Legal blank config.state.history := by
  have hplay : ((machine (Fin 2)).play (Machine.atStep careful) pinnedUpdate
      (start blank)).map (fun c => (c.state.history.length, (c.state.disk 0).byte 0)) =
      some (3, 7) := by
    decide +kernel
  obtain ⟨config, hrun, hvalue⟩ := exists_run_of_play hplay
  obtain ⟨hlength, hbyte⟩ := Prod.mk.inj hvalue
  exact ⟨config, hrun, hlength, hbyte, (bcache_transparent hrun).2.1⟩

/-! ### Counts that wrap -/

section Wrap

variable {config : Config Proc Op Res (State Proc) Label} {buf : BufIdx × BlockId}

/-- The configuration after `n` more pins of a buffer. -/
def pinTimes (config : Config Proc Op Res (State Proc) Label) (i : BufIdx) (n : Nat) :
    Config Proc Op Res (State Proc) Label :=
  { config with
    state :=
      { config.state with
        bcache := config.state.bcache.modify i fun b =>
          { b with refcnt := b.refcnt + UInt32.ofNat n }
        pins := update config.state.pins i (config.state.pins i + n) } }

omit [Fintype Proc] [DecidableEq Proc] in
theorem pinTimes_zero (config : Config Proc Op Res (State Proc) Label) (i : BufIdx) :
    pinTimes config i 0 = config := by
  simp [pinTimes, Bcache.modify]

omit [Fintype Proc] in
theorem exec_bpin (config : Config Proc Op Res (State Proc) Label) (p : Proc) (i : BufIdx)
    (n : Nat) :
    exec p () (.bpin i) (pinTimes config i n).state =
      .done () (pinTimes config i (n + 1)).state := by
  have hcount : ∀ x : UInt32, x + UInt32.ofNat n + 1 = x + UInt32.ofNat (n + 1) := by
    intro x
    rw [UInt32.add_assoc, UInt32.ofNat_add]
    rfl
  simp only [exec, pinTimes, Bcache.bpin, Bcache.modify, update_self, update_idem,
    hcount, Nat.add_assoc]

omit [Fintype Proc] in
theorem next_bpin (hpanic : config.panicked = none) (hprog : config.prog p = .ret held)
    (hbuf : buf ∈ held) (n : Nat) :
    ∃ middle, (machine Proc).next (pinTimes config buf.1 n) (.call p (.bpin buf) ()) = some middle ∧
      (∃ next, middle.prog p = .op (.bpin buf.1) next) ∧
      (machine Proc).next middle (.step p ()) = some (pinTimes config buf.1 (n + 1)) := by
  let prog : Code Label := do
    Prog.perform (Op.bpin buf.1)
    pure held
  refine ⟨⟨(pinTimes config buf.1 n).state, update config.prog p prog, none⟩, ?_, ?_, ?_⟩
  · simp only [Machine.next, pinTimes, hpanic, hprog, machine, code, if_pos hbuf]
    rfl
  · exact ⟨_, update_self ..⟩
  · have hrest : update (update config.prog p prog) p (.ret held) = config.prog := by
      rw [update_idem, ← hprog, update_eq_self]
    have hstep : update config.prog p prog p = .op (.bpin buf.1) fun _ => .ret held :=
      update_self ..
    simp only [Machine.next, hstep, machine, exec_bpin, Outcome.andThen, Machine.settle,
      Machine.install, hrest]
    rw [← hpanic]
    rfl

omit [Fintype Proc] in
/-- A process that holds a buffer may pin it any number of times. -/
theorem run_pinTimes {first : Config Proc Op Res (State Proc) Label}
    (h : (machine Proc).Run (fun c e => Machine.atStep matched c e = true) first config)
    (hpanic : config.panicked = none) (hprog : config.prog p = .ret held) (hbuf : buf ∈ held)
    (n : Nat) :
    (machine Proc).Run (fun c e => Machine.atStep matched c e = true) first
      (pinTimes config buf.1 n) := by
  induction n with
  | zero =>
    rwa [pinTimes_zero]
  | succ n ih =>
    obtain ⟨middle, hcall, ⟨next, hmiddle⟩, hstep⟩ := next_bpin hpanic hprog hbuf n
    refine .step (.step ih rfl hcall) ?_ hstep
    simp only [Machine.atStep, hmiddle]
    rfl

end Wrap

/-- The label of a process at rest. -/
def resting : Code Label → Option Label
  | .ret held => some held
  | .op _ _ => none

theorem eq_ret_of_resting {prog : Code Label} (h : resting prog = some held) :
    prog = .ret held := by
  cases prog with
  | ret label => rw [some.inj h]
  | op o next => cases h

/-- A process changes block 100. -/
def changeBlock : List (Event (Fin 1) Call Unit) :=
  steps 0 (.bread (blockAt 100)) 3 ++ steps 0 (.store (0, blockAt 100) mark) 1

/-- It releases that block, reads thirty others, releases one of them, and reads block 100 again. -/
def evict : List (Event (Fin 1) Call Unit) :=
  steps 0 (.brelse (0, blockAt 100)) 2 ++
    (List.range NBUF).flatMap (fun k => steps 0 (.bread (blockAt (200 + k))) 3) ++
    steps 0 (.brelse (1, blockAt 200)) 2 ++ steps 0 (.bread (blockAt 100)) 3

/-- The first bytes that the accesses of a history return or store. -/
def firstBytes (history : List (FlatMap.Access BlockId Block)) :
    List (FlatMap.Access BlockId Nat) :=
  history.map (FlatMap.Access.map fun block => block.byte 0)

/-- A process changes a block, pins its buffer `2 ^ 32` times, and releases it. The count wraps to
0, the buffer is recycled, and the next `bread` returns what was on the disk before the change. -/
theorem bcache_count_wraps :
    ∃ config, (machine (Fin 1)).Run (fun c e => Machine.atStep matched c e = true)
        (start blank) config ∧
      config.panicked = none ∧ ¬FlatMap.Legal blank config.state.history := by
  have hfirst : ((machine (Fin 1)).play (Machine.atStep matched) changeBlock (start blank)).map
      (fun c => (c.panicked, resting (c.prog 0))) = some (none, some [(0, blockAt 100)]) := by
    decide +kernel
  have hsecond : (((machine (Fin 1)).play (Machine.atStep matched) changeBlock (start blank)).bind
      fun c => (machine (Fin 1)).play (Machine.atStep matched) evict (pinTimes c 0 (2 ^ 32))).map
      (fun c => (c.panicked, decide (FlatMap.Legal (fun _ => 0) (firstBytes c.state.history)))) =
      some (none, false) := by
    decide +kernel
  obtain ⟨middle, hmiddle, hrest⟩ := map_eq_some_iff.mp hfirst
  obtain ⟨hpanic, hresting⟩ := Prod.mk.inj hrest
  have hrun := run_of_play .refl hmiddle
  have hpinned := run_pinTimes hrun hpanic (eq_ret_of_resting hresting) mem_cons_self (2 ^ 32)
  rw [hmiddle, bind_some] at hsecond
  obtain ⟨config, hplay, hvalue⟩ := map_eq_some_iff.mp hsecond
  obtain ⟨hnone, hillegal⟩ := Prod.mk.inj hvalue
  refine ⟨config, run_of_play hpinned hplay, hnone, fun hlegal => ?_⟩
  have hbytes := hlegal.map fun block => block.byte 0
  have hblank : (fun block : Block => block.byte 0) ∘ blank = fun _ => 0 := by
    funext b
    simp [blank]
  rw [hblank] at hbytes
  exact of_decide_eq_false hillegal hbytes

end Xv6.Bio
