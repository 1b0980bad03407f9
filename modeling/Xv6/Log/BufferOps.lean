import Xv6.Log.Invariant

/-!
# Operations on buffers and disk blocks keep the invariant

One rule per operation of `bio.c`, as a triple of the discipline: what a process must know to
perform it and what it knows afterwards. Taking and giving back references is the same for
every role. Changing data and writing the disk differs between an operation of the file
system, which changes blocks outside the log, and the process that boots or commits.
-/

namespace Xv6.Log

open Interleave Function List Option Bcache

variable {sb : Superblock} {tight : Prop} {s : State} {g : Pid → Own} {p : Pid} {own : Own}

/-- The buffers that are valid in the new cache were valid with the same data, or have just been
filled from the disk for a block that is not pending. -/
def Fills (s : State) (c' : Bcache Nat Pid) : Prop :=
  ∀ i, (c'.buf i).valid = true →
    ((s.bcache.buf i).valid = true ∧ (c'.buf i).blockno = (s.bcache.buf i).blockno ∧
      (c'.buf i).data = (s.bcache.buf i).data) ∨
    ((s.bcache.buf i).valid = false ∧ (c'.buf i).data = s.disk (c'.buf i).blockno ∧
      (c'.buf i).blockno ∉ s.pending)

variable {c' : Bcache Nat Pid}

theorem fills_of_keeps (h : s.bcache.Keeps c') : Fills s c' := fun i hvalid => .inl (h i hvalid)

variable {next : Own}

theorem roles_update_self (h : next.role = (g p).role) : roles (update g p next) = roles g := by
  rw [roles_update, h]
  exact update_eq_self p (roles g)

/-- A step that only moves references around, for a process that keeps its role. -/
theorem Inv.cacheStep (h : Inv sb tight s g)
    {refs' : Pid → BufIdx → Nat} (hrole : next.role = (g p).role) (hwork : next.work = (g p).work)
    (hdirty : next.dirty = (g p).dirty)
    (hheld : ∀ i block, (g p).dirty = some (i, block) →
      ∀ b, (i, b) ∈ (g p).hands.held → (i, b) ∈ next.hands.held)
    (hrefs : RefsOk c' s.pending (update (hands g) p next.hands))
    (hcounted : ∀ q i, refs' q i = (update g p next q).hands.refs i)
    (hfills : Fills s c') :
    Inv sb tight { s with bcache := c', refs := refs' } (update g p next) := by
  rw [← hands_update] at hrefs
  have hroles : roles (update g p next) = roles g := roles_update_self hrole
  have hdirties := proj_update hdirty
  have hworks := proj_update hwork
  have hholds : ∀ q i block, (g q).dirty = some (i, block) → ∀ b, (i, b) ∈ (g q).hands.held →
      (i, b) ∈ (update g p next q).hands.held := by
    intro q
    by_cases hq : q = p
    · subst hq
      simpa using hheld
    · simp [hq]
  -- a dirty buffer is held, so it is valid before and after
  have hdirtyBuf : ∀ q i block, (g q).dirty = some (i, block) →
      (c'.buf i).data = (s.bcache.buf i).data := by
    intro q i block hq
    obtain ⟨-, b, hmem, -⟩ := h.data.dirty q i block hq
    obtain ⟨-, -, hvalid⟩ := (h.refs.hands q).held i b hmem
    obtain ⟨-, -, hvalid'⟩ := (hrefs.hands q).held i b (hholds q i block hq b hmem)
    rcases hfills i hvalid' with ⟨-, -, heq⟩ | ⟨hinvalid, -, -⟩
    · exact heq
    · rw [hvalid] at hinvalid
      cases hinvalid
  refine ⟨hrefs, hcounted, ?_, ?_, ?_⟩
  · rw [hroles]
    exact { h.log with }
  · refine ⟨?_, ?_, ?_, h.data.commits⟩
    · intro i hvalid hin hclean
      rcases hfills i hvalid with ⟨hold, hblock, heq⟩ | ⟨-, heq, -⟩
      · show (c'.buf i).data = s.disk (c'.buf i).blockno
        rw [heq, hblock]
        apply h.data.coherent i hold (hblock ▸ hin)
        intro q block
        rw [← hdirties q]
        exact hclean q block
      · exact heq
    · intro q i block hq
      rw [hdirties q] at hq
      obtain ⟨hblock, b, hmem, hin⟩ := h.data.dirty q i block hq
      exact ⟨(hdirtyBuf q i block hq).trans hblock, b, hholds q i block hq b hmem, hin⟩
    · intro q hq
      have hwork := h.data.work q ((congrFun hroles q).symm.trans hq)
      rw [hworks q]
      refine { hwork with cached := ?_ }
      intro i hvalid hmem
      rcases hfills i hvalid with ⟨hold, hblock, heq⟩ | ⟨-, -, hnot⟩
      · show (g q).work.began (c'.buf i).blockno = some (c'.buf i).data
        rw [heq, hblock]
        exact hwork.cached i hold (hblock ▸ hmem)
      · exact absurd hmem hnot
  · intro htight
    rw [hroles]
    exact { h.reserved htight with }

variable {i : BufIdx}

/-- The recorded references follow the hands of the process that moves. -/
theorem Inv.counted_modifyRefs (h : Inv sb tight s g) {f : Nat → Nat}
    (hself : next.hands.refs i = f ((g p).hands.refs i))
    (hother : ∀ j, j ≠ i → next.hands.refs j = (g p).hands.refs j) (q : Pid) (j : BufIdx) :
    (s.modifyRefs p i f).refs q j = (update g p next q).hands.refs j := by
  by_cases hq : q = p
  · subst hq
    by_cases hj : j = i
    · subst hj
      simp [State.modifyRefs, h.counted, hself]
    · simp [State.modifyRefs, hj, h.counted, hother j hj]
  · simp [State.modifyRefs, hq, h.counted]

theorem Inv.counted_same (h : Inv sb tight s g)
    (hsame : ∀ j, next.hands.refs j = (g p).hands.refs j) (q : Pid) (j : BufIdx) :
    s.refs q j = (update g p next q).hands.refs j := by
  by_cases hq : q = p
  · subst hq
    simp [h.counted, hsame]
  · simp [hq, h.counted]

variable {b : Nat}

/-- A commit that has unpinned nothing and gets a log block leaves a buffer free. -/
theorem Inv.fits_of_bget (h : Inv sb tight s g) (hrole : (g p).role = .commit)
    (hpinned : (g p).work.unpinned = 0) (hin : InLog sb b)
    (hget : s.bcache.bget b = some (i, c')) : (g p).work.lh.block.length < NBUF := by
  have hwork := h.data.work p hrole
  have hpending : s.pending = (g p).work.lh.block := by
    rw [State.pending, hwork.unpinned, hpinned, hwork.lh, drop_zero]
  rw [← hpending]
  have hnodup : s.pending.Nodup := by
    rw [hpending, ← hwork.lh]
    exact h.log.nodup
  apply h.refs.length_pending_lt hnodup
  intro hvalid hmem
  obtain ⟨-, -, ⟨hlabel, -⟩ | ⟨hzero, -, -⟩⟩ :=
    h.refs.cache.bget (fun j _ => h.refs.count_small j) hget
  · rw [hlabel, hpending, ← hwork.lh] at hmem
    exact hin (h.log.outside b hmem)
  · have hpin : pin s.bcache s.pending i = 1 := by simp [pin, hvalid, hmem]
    omega

/-- `bget`: the process now waits for the sleep-lock of the buffer. -/
theorem triple_bget (hfree : own.hands.moving = none) :
    Triple sb tight p own (.perform (.bget b)) fun i own' =>
      own' = { own with hands := ⟨own.hands.held, some ⟨i, b, .waiting⟩⟩ } ∧
        (own.role = .commit → own.work.unpinned = 0 → InLog sb b →
          own.work.lh.block.length < NBUF) := by
  refine .perform rfl trivial ?_
  rintro s g _ hinv rfl _
  show (exec sb p () (.bget b) s).Ensures _ _
  simp only [exec]
  cases hget : s.bcache.bget b with
  | none => exact .inl rfl
  | some result =>
    obtain ⟨hrefs, hkeeps⟩ := hinv.refs.bget hfree hget
    refine ⟨_, ?_, rfl, fun hrole hzero hin => hinv.fits_of_bget hrole hzero hin hget⟩
    refine hinv.cacheStep rfl rfl rfl (fun _ _ _ _ hmem => hmem) hrefs ?_ (fills_of_keeps hkeeps)
    refine hinv.counted_modifyRefs ?_ ?_
    · simp [Hands.refs, hfree]
    · intro j hj
      simp [Hands.refs, hfree, Ne.symm hj]

/-- A change of lock or data of a referenced buffer keeps what is valid. -/
theorem keeps_modify {c : Bcache Nat Pid} {f : Buf Nat Pid → Buf Nat Pid}
    (hf : (f (c.buf i)).valid = true → (c.buf i).valid = true ∧
      (f (c.buf i)).blockno = (c.buf i).blockno ∧ (f (c.buf i)).data = (c.buf i).data) :
    c.Keeps (c.modify i f) := by
  intro j
  by_cases hj : j = i
  · subst hj
    simpa using hf
  · rw [buf_modify_of_ne _ _ hj]
    exact fun hvalid => ⟨hvalid, rfl, rfl⟩

/-- `acquiresleep`: the process holds the lock once nobody else does. -/
theorem triple_acquiresleep (hmoving : own.hands.moving = some ⟨i, b, .waiting⟩) :
    Moves sb tight p own (.perform (.acquiresleep i))
      { own with hands := ⟨own.hands.held, some ⟨i, b, .locked⟩⟩ } := by
  refine .perform rfl trivial ?_
  rintro s g _ hinv rfl _
  show (exec sb p () (.acquiresleep i) s).Ensures _ _
  simp only [exec]
  cases hlock : (s.bcache.buf i).lock with
  | some q => trivial
  | none =>
    have hrefs := hinv.refs.acquiresleep hmoving hlock
    refine hinv.cacheStep rfl rfl rfl (fun _ _ _ _ hmem => hmem) hrefs ?_
      (fills_of_keeps (keeps_modify fun hvalid => ⟨hvalid, rfl, rfl⟩))
    refine hinv.counted_same ?_
    intro j
    simp [Hands.refs, hmoving]

/-- The end of `bread`: the buffer is read from disk unless it is valid. -/
theorem triple_fill (hmoving : own.hands.moving = some ⟨i, b, .locked⟩) :
    Moves sb tight p own (.perform (.fill i))
      { own with hands := ⟨(i, b) :: own.hands.held, none⟩ } := by
  refine .perform rfl trivial ?_
  rintro s g _ hinv rfl _
  have hcounted : ∀ j, (⟨(i, b) :: (g p).hands.held, none⟩ : Hands Nat).refs j =
      (g p).hands.refs j := by
    intro j
    simp [Hands.refs, hmoving, count_cons]
  have huse := hinv.refs.inUse (p := p) (i := i) (by simp [hands, Hands.refs, hmoving])
  show (exec sb p () (.fill i) s).Ensures _ _
  simp only [exec]
  cases hvalid : (s.bcache.buf i).valid with
  | true =>
    have hrefs := hinv.refs.fill hmoving (f := id) rfl rfl rfl hvalid
    have hid : s.bcache.modify i id = s.bcache := by
      simp [Bcache.modify]
    rw [hid] at hrefs
    show Inv sb tight { s with bcache := s.bcache, refs := s.refs } _
    exact hinv.cacheStep rfl rfl rfl (fun _ _ _ _ hmem => mem_cons_of_mem _ hmem) hrefs
      (hinv.counted_same hcounted) (fills_of_keeps fun _ hvalid => ⟨hvalid, rfl, rfl⟩)
  | false =>
    have hrefs := hinv.refs.fill hmoving
      (f := fun b => { b with data := s.disk b.blockno, valid := true }) rfl rfl rfl rfl
    refine hinv.cacheStep rfl rfl rfl (fun _ _ _ _ hmem => mem_cons_of_mem _ hmem) hrefs
      (hinv.counted_same hcounted) ?_
    intro j hj
    by_cases hji : j = i
    · subst hji
      right
      refine ⟨hvalid, by simp, ?_⟩
      intro hmem
      have := hinv.refs.valid_of_pending huse (by simpa using hmem)
      rw [hvalid] at this
      cases this
    · left
      rw [buf_modify_of_ne _ _ hji] at hj ⊢
      exact ⟨hj, rfl, rfl⟩

theorem triple_bread (hfree : own.hands.moving = none) :
    Triple sb tight p own (LogBuffers.bread b) fun i own' =>
      own' = { own with hands := ⟨(i, b) :: own.hands.held, none⟩ } ∧
        (own.role = .commit → own.work.unpinned = 0 → InLog sb b →
          own.work.lh.block.length < NBUF) := by
  refine .bind (triple_bget hfree) ?_
  rintro i _ ⟨rfl, hfits⟩
  refine .bind (triple_acquiresleep rfl) ?_
  rintro _ _ rfl
  refine .bind (triple_fill rfl) ?_
  rintro _ _ rfl
  exact .ret ⟨rfl, hfits⟩

/-- `releasesleep` in `brelse`, of a buffer without unwritten data. -/
theorem triple_releasesleep (hheld : (i, b) ∈ own.hands.held)
    (hfree : own.hands.moving = none) (hclean : own.dirty = none) :
    Moves sb tight p own (.perform (.releasesleep i))
      { own with hands := ⟨own.hands.held.erase (i, b), some ⟨i, b, .released⟩⟩ } := by
  refine .perform rfl trivial ?_
  rintro s g _ hinv rfl _
  have hlock := ((hinv.refs.hands p).held i b hheld).1
  have hrefs := hinv.refs.releasesleep hheld hfree
  show (exec sb p () (.releasesleep i) s).Ensures _ _
  simp only [exec, hlock, if_true]
  refine hinv.cacheStep rfl rfl rfl ?_ hrefs ?_
    (fills_of_keeps (keeps_modify fun hvalid => ⟨hvalid, rfl, rfl⟩))
  · intro j block hdirty
    rw [hclean] at hdirty
    cases hdirty
  · refine hinv.counted_same ?_
    intro j
    have hcount := ((perm_cons_erase hheld).map Prod.fst).count_eq j
    simp only [map_cons, count_cons, beq_iff_eq] at hcount
    simp [Hands.refs, hfree, hcount]

theorem triple_bput (hmoving : own.hands.moving = some ⟨i, b, .released⟩)
    (hclean : own.dirty = none) :
    Moves sb tight p own (.perform (.bput i)) { own with hands := ⟨own.hands.held, none⟩ } := by
  refine .perform rfl trivial ?_
  rintro s g _ hinv rfl _
  have hrefs := hinv.refs.bput hmoving
  refine hinv.cacheStep rfl rfl rfl ?_ hrefs ?_ (fills_of_keeps ?_)
  · intro j block hdirty
    rw [hclean] at hdirty
    cases hdirty
  · refine hinv.counted_modifyRefs (p := p) (i := i) (f := (· - 1)) ?_ ?_
    · simp [Hands.refs, hmoving]
    · intro j hj
      simp [Hands.refs, hmoving, Ne.symm hj]
  · intro j
    rw [buf_brelse]
    exact keeps_modify (fun hvalid => ⟨hvalid, rfl, rfl⟩) j

theorem triple_brelse (hheld : (i, b) ∈ own.hands.held)
    (hfree : own.hands.moving = none) (hclean : own.dirty = none) :
    Moves sb tight p own (LogBuffers.brelse i)
      { own with hands := ⟨own.hands.held.erase (i, b), none⟩ } := by
  refine .bind (triple_releasesleep hheld hfree hclean) ?_
  rintro _ _ rfl
  exact triple_bput rfl hclean

/-! ### What the invariant says to a process about its role -/

variable {role : Pid → Role}

section

variable (h : LogOk sb s role)
include h

theorem LogOk.not_committing (hop : role p = .op) : s.committing = false := by
  have hcount := Interleave.le_sum (fun q => (role q).isOp.toNat) p
  have hone : (role p).isOp.toNat = 1 := by rw [hop]; rfl
  have hout := h.outstanding
  cases hc : s.committing with
  | false => rfl
  | true =>
    have := h.quiet hc
    omega

theorem LogOk.no_commit (hidle : s.committing = false) (q : Pid) : role q ≠ .commit := by
  intro hq
  have := h.committing.mpr (by simp [h.committer q hq])
  rw [hidle] at this
  cases this

/-- A process that has left the boot phase shows that booting is over. -/
theorem LogOk.booted_of_role
    (hrole : role p = .out ∨ role p = .op ∨ role p = .commit) : s.booted = true := by
  cases hb : s.booted with
  | true => rfl
  | false =>
    rw [h.booting hb p, bootRole] at hrole
    split at hrole <;> simp at hrole

/-- A process that boots shows that booting is not over. -/
theorem LogOk.not_booted (hboot : role p = .boot) : s.booted = false := by
  cases hb : s.booted with
  | false => rfl
  | true => exact absurd hboot (h.booted hb p)

end

variable {q : Pid}

theorem LogOk.commit_unique (h : LogOk sb s role)
    (hp : role p = .commit) (hq : role q = .commit) : q = p := by
  have := h.committer q hq
  rw [h.committer p hp] at this
  simpa using this.symm

variable {block : Block}

section

variable (h : Inv sb tight s g) (hheld : (i, b) ∈ (g p).hands.held)
include h hheld

/-- Nobody else has unwritten data in a buffer that a process holds. -/
theorem Inv.dirty_own (hq : (g q).dirty = some (i, block)) : q = p := by
  obtain ⟨-, b', hmem, -⟩ := h.data.dirty q i block hq
  have hlock := ((h.refs.hands q).held i b' hmem).1
  rw [((h.refs.hands p).held i b hheld).1] at hlock
  exact (some.inj hlock).symm

/-- A clean buffer of a log block that a process holds is what the disk has. -/
theorem Inv.data_inLog (hin : InLog sb b) (hclean : (g p).dirty = none) :
    (s.bcache.buf i).data = s.disk b := by
  obtain ⟨-, hblock, hvalid⟩ := (h.refs.hands p).held i b hheld
  have := h.data.coherent i hvalid (hblock.symm ▸ hin) (by
    intro q block hq
    obtain rfl := h.dirty_own hheld hq
    rw [hclean] at hq
    exact absurd hq (by simp))
  rwa [hblock] at this

/-- The buffer of a pending block has the contents of the beginning of the commit. -/
theorem Inv.data_pending (hrole : (g p).role = .commit)
    (hmem : b ∈ (g p).work.lh.block.drop (g p).work.unpinned) :
    (g p).work.began b = some (s.bcache.buf i).data := by
  have hwork := h.data.work p hrole
  obtain ⟨-, hblock, hvalid⟩ := (h.refs.hands p).held i b hheld
  have := hwork.cached i hvalid (by rwa [State.pending, hwork.lh, hwork.unpinned, hblock])
  rwa [hblock] at this

end

/-! ### Reading -/

/-- Reading the data of a buffer: whatever the invariant says about it in some state. -/
theorem triple_data : Triple sb tight p own (.perform (.data i)) fun block own' =>
      own' = own ∧ ∃ s g, Inv sb tight s g ∧ g p = own ∧ block = (s.bcache.buf i).data := by
  refine .perform rfl trivial ?_
  intro s g _ hinv hown _
  refine ⟨own, ?_, rfl, s, g, hinv, hown, rfl⟩
  rwa [← hown, update_eq_self]

theorem triple_readLh : Triple sb tight p own (.perform .readLh) fun lh own' =>
      own' = own ∧ ∃ s g, Inv sb tight s g ∧ g p = own ∧ lh = s.lh := by
  refine .perform rfl trivial ?_
  intro s g _ hinv hown _
  refine ⟨own, ?_, rfl, s, g, hinv, hown, rfl⟩
  rwa [← hown, update_eq_self]

/-! ### Writing buffers -/

/-- A held buffer gets new data: its holder's references and everybody else's stay in order. -/
theorem Inv.refs_setData (h : Inv sb tight s g) (hheld : (i, b) ∈ (g p).hands.held) (block : Block)
    (hnext : next.hands = (g p).hands) :
    RefsOk (s.bcache.modify i fun b => { b with data := block }) s.pending
      (hands (update g p next)) := by
  have hnew : hands (update g p next) = hands g := funext (proj_update hnext)
  rw [hnew]
  exact h.refs.setData hheld block

theorem Inv.counted_hands (h : Inv sb tight s g)
    (hnext : next.hands = (g p).hands) (q : Pid) (j : BufIdx) :
    s.refs q j = (update g p next q).hands.refs j :=
  h.counted_same (by rw [hnext]; exact fun _ => rfl) q j

section

variable (hheld : (i, b) ∈ own.hands.held)
include hheld

/-- New data for the buffer of a log block, to be written next. -/
theorem triple_setData_log (hin : InLog sb b) (hclean : own.dirty = none) :
    Moves sb tight p own (.perform (.setData i block)) { own with dirty := some (i, block) } := by
  refine .perform rfl trivial ?_
  rintro s g _ hinv rfl _
  obtain ⟨-, hblock, hvalid⟩ := (hinv.refs.hands p).held i b hheld
  have hroles : roles (update g p { g p with dirty := some (i, block) }) = roles g :=
    roles_update_self rfl
  refine ⟨hinv.refs_setData hheld block rfl, hinv.counted_hands rfl, ?_, ?_, ?_⟩
  · rw [hroles]
    exact { hinv.log with }
  · refine ⟨?_, ?_, ?_, hinv.data.commits⟩
    · intro j hjv hjin hjclean
      by_cases hj : j = i
      · subst hj
        exact absurd (by simp) (hjclean p block)
      · simp only [State.modifyBuf, buf_modify_of_ne _ _ hj] at hjv hjin ⊢
        refine hinv.data.coherent j hjv hjin ?_
        intro q block' hq
        have hqp : q ≠ p := by
          rintro rfl
          rw [hclean] at hq
          cases hq
        exact hjclean q block' (by simpa [hqp] using hq)
    · intro q j block' hq
      by_cases hqp : q = p
      · subst hqp
        rw [update_self] at hq ⊢
        cases hq
        exact ⟨by simp [State.modifyBuf], b, hheld, hin⟩
      · rw [update_of_ne hqp] at hq ⊢
        obtain ⟨hdata, hrest⟩ := hinv.data.dirty q j block' hq
        have hj : j ≠ i := by
          rintro rfl
          exact hqp (hinv.dirty_own hheld hq)
        refine ⟨?_, hrest⟩
        simp only [State.modifyBuf, buf_modify_of_ne _ _ hj]
        exact hdata
    · intro q hq
      have hwork := hinv.data.work q ((congrFun hroles q).symm.trans hq)
      rw [proj_update (φ := Own.work) (by rfl)]
      refine { hwork with cached := ?_ }
      intro j hjv hmem
      have hj : j ≠ i := by
        rintro rfl
        simp only [State.modifyBuf, buf_modify_self, hblock] at hmem
        exact hin (hinv.log.outside b (mem_of_mem_drop hmem))
      simp only [State.modifyBuf, buf_modify_of_ne _ _ hj] at hjv hmem ⊢
      exact hwork.cached j hjv hmem
  · intro htight
    rw [hroles]
    exact { hinv.reserved htight with }

/-- Installing writes the contents that the home block's buffer has anyway. -/
theorem triple_setData_home (hrole : own.role = .commit)
    (hmem : b ∈ own.work.lh.block.drop own.work.unpinned) (hblock : own.work.began b = some block) :
    Moves sb tight p own (.perform (.setData i block)) own := by
  refine .perform rfl trivial ?_
  rintro s g _ hinv rfl _
  have hdata := hinv.data_pending hheld hrole hmem
  rw [hblock] at hdata
  cases hdata
  have hsame : s.modifyBuf i (fun b => { b with data := (s.bcache.buf i).data }) = s := by
    simp [State.modifyBuf, Bcache.modify]
  show Inv sb tight (s.modifyBuf i fun b => { b with data := (s.bcache.buf i).data }) _
  rwa [hsame, update_eq_self]

theorem triple_store
    (hout : OutsideLog sb.logstart sb.nlog b) (hrole : own.role = .op) (hclean : own.dirty = none) :
    Moves sb tight p own (.perform (.setData i block)) own := by
  refine .perform rfl trivial ?_
  rintro s g _ hinv rfl _
  obtain ⟨-, hblock, -⟩ := (hinv.refs.hands p).held i b hheld
  have hrefs := hinv.refs_setData hheld block rfl
  rw [update_eq_self] at hrefs ⊢
  refine ⟨hrefs, hinv.counted, { hinv.log with }, ?_, fun ht => { hinv.reserved ht with }⟩
  refine ⟨?_, ?_, ?_, hinv.data.commits⟩
  · intro j hjv hjin hjclean
    have hj : j ≠ i := by
      rintro rfl
      simp only [State.modifyBuf, buf_modify_self, hblock] at hjin
      exact hjin hout
    simp only [State.modifyBuf, buf_modify_of_ne _ _ hj] at hjv hjin ⊢
    exact hinv.data.coherent j hjv hjin hjclean
  · intro q j block' hq
    obtain ⟨hdata, hrest⟩ := hinv.data.dirty q j block' hq
    have hj : j ≠ i := by
      rintro rfl
      obtain rfl := hinv.dirty_own hheld hq
      rw [hclean] at hq
      cases hq
    refine ⟨?_, hrest⟩
    simp only [State.modifyBuf, buf_modify_of_ne _ _ hj]
    exact hdata
  · intro q hq
    exact absurd hq (hinv.log.no_commit (hinv.log.not_committing hrole) q)

end


/-! ### Writing the disk -/

/-- The process that may write the disk: the one that boots, or the one that commits. -/
def Writer (role : Role) : Prop := role = .boot ∨ role = .commit

/-- While one process may write the disk, no other one commits. -/
theorem LogOk.writer_unique (h : LogOk sb s role) (hp : Writer (role p)) (hq : role q = .commit) :
    q = p := by
  rcases hp with hp | hp
  · exact absurd hp (h.booted (h.booted_of_role (.inr (.inr hq))) p)
  · exact h.commit_unique hp hq

/-- A block reaches the disk. The writer keeps its references and its role; what it has to show
is that the log stays coherent and that its commit has come as far as it says. -/
theorem Inv.writeStep (h : Inv sb tight s g) (hwriter : Writer (g p).role)
    (hhands : next.hands = (g p).hands) (hrole : next.role = (g p).role)
    (hdirty : next.dirty = none) {disk' : Disk}
    (hclear : (g p).role = .boot → LogHeader.diskN (disk' sb.logstart) = 0)
    (hcoherent : ∀ i, (s.bcache.buf i).valid = true → InLog sb (s.bcache.buf i).blockno →
      (∀ q block, q ≠ p → (g q).dirty ≠ some (i, block)) →
      (s.bcache.buf i).data = disk' (s.bcache.buf i).blockno)
    (hwork : (g p).role = .commit → WorkOk sb { s with disk := disk' } next.work) :
    Inv sb tight { s with disk := disk' } (update g p next) := by
  have hroles : roles (update g p next) = roles g := roles_update_self hrole
  have hnew : hands (update g p next) = hands g := funext (proj_update hhands)
  refine ⟨hnew ▸ h.refs, h.counted_hands hhands, ?_, ?_, ?_⟩
  · rw [hroles]
    refine { h.log with clear := ?_ }
    intro hboot
    obtain ⟨hlh, hgroup, -⟩ := h.log.clear hboot
    refine ⟨hlh, hgroup, hclear ?_⟩
    rcases hwriter with hp | hp
    · exact hp
    · have := h.log.booted_of_role (.inr (.inr hp))
      rw [show s.booted = false from hboot] at this
      cases this
  · refine ⟨?_, ?_, ?_, h.data.commits⟩
    · intro i hvalid hin hclean
      refine hcoherent i hvalid hin ?_
      intro q block hq
      simpa [hq] using hclean q block
    · intro q i block hq
      by_cases hqp : q = p
      · subst hqp
        rw [update_self, hdirty] at hq
        cases hq
      · rw [update_of_ne hqp] at hq ⊢
        exact h.data.dirty q i block hq
    · intro q hq
      have hcommit : (g q).role = .commit := (congrFun hroles q).symm.trans hq
      obtain rfl := h.log.writer_unique hwriter hcommit
      rw [update_self]
      exact hwork hcommit
  · intro ht
    rw [hroles]
    exact { h.reserved ht with }

/-- A changed buffer of a log block is written; the log is then written up to index `n`. -/
theorem triple_bwrite_log {b n : Nat}
    (hheld : (i, b) ∈ own.hands.held) (hin : InLog sb b) (hdirty : own.dirty = some (i, block))
    (hwriter : Writer own.role)
    (hclear : own.role = .boot → b = sb.logstart ∧ LogHeader.diskN block = 0)
    (hwritten : own.role = .commit → ∀ j, (h : j < own.work.lh.block.length) → j < n →
      (sb.logstart + j + 1 = b ∧ own.work.began own.work.lh.block[j] = some block) ∨
        (sb.logstart + j + 1 ≠ b ∧ j < own.work.written)) :
    Moves sb tight p own (.perform (.bwrite i))
      { own with dirty := none, work := { own.work with written := n } } := by
  refine .perform rfl trivial ?_
  rintro s g _ hinv rfl _
  obtain ⟨hlock, hblock, hvalid⟩ := (hinv.refs.hands p).held i b hheld
  have hdata := (hinv.data.dirty p i block hdirty).1
  show (exec sb p () (.bwrite i) s).Ensures _ _
  simp only [exec, hlock, if_true, hblock, hdata]
  refine hinv.writeStep hwriter (by rfl) (by rfl) (by rfl) ?_ ?_ ?_
  · intro hboot
    obtain ⟨rfl, hn⟩ := hclear hboot
    simpa using hn
  · intro j hjv hjin hjclean
    by_cases hj : j = i
    · subst hj
      simp [hblock, hdata]
    · have hne : (s.bcache.buf j).blockno ≠ b := fun heq =>
        hj (hinv.refs.cache.eq_of_blockno_eq (.inl hjv) (.inl hvalid) (heq.trans hblock.symm))
      rw [update_of_ne hne]
      refine hinv.data.coherent j hjv hjin ?_
      intro q block' hq
      by_cases hqp : q = p
      · subst hqp
        rw [hdirty] at hq
        exact hj (Prod.mk.inj (some.inj hq)).1.symm
      · exact hjclean q block' hqp hq
  · intro hcommit
    have hwork := hinv.data.work p hcommit
    have hhome : ∀ home ∈ (g p).work.lh.block, home ≠ b := by
      rintro home hmem rfl
      exact hin (hinv.log.outside home (hwork.lh ▸ hmem))
    refine { hwork with written := ?_, installed := ?_, group := ?_ }
    · intro j hj hjn
      show _ = some (update s.disk b block (sb.logstart + j + 1))
      rcases hwritten hcommit j hj hjn with ⟨heq, hbegan⟩ | ⟨hne, hold⟩
      · rwa [heq, update_self]
      · rw [update_of_ne hne]
        exact hwork.written j hj hold
    · intro j hj hold
      show _ = some (update s.disk b block (g p).work.lh.block[j])
      rw [update_of_ne (hhome _ (getElem_mem hj))]
      exact hwork.installed j hj hold
    · intro home hmem
      have hne : home ≠ b := by
        rintro rfl
        exact hin (hinv.log.grouped home hmem)
      simpa [update_of_ne hne] using hwork.group home hmem

theorem triple_bwrite_home (hclean : own.dirty = none) (hrole : own.role = .commit)
    (hfits : own.work.lh.block.length < sb.nlog)
    (hn : own.work.installed < own.work.lh.block.length)
    (hheld : (i, own.work.lh.block[own.work.installed]) ∈ own.hands.held)
    (hunpinned : own.work.unpinned ≤ own.work.installed) (hcleared : own.work.cleared = false) :
    Moves sb tight p own (.perform (.bwrite i))
      { own with work := { own.work with installed := own.work.installed + 1 } } := by
  refine .perform rfl trivial ?_
  rintro s g _ hinv rfl _
  obtain ⟨hlock, hblock, hvalid⟩ := (hinv.refs.hands p).held i _ hheld
  have hwork := hinv.data.work p hrole
  generalize hb : (g p).work.lh.block[(g p).work.installed] = b at *
  have hmem : b ∈ (g p).work.lh.block := hb ▸ getElem_mem hn
  have hpending : b ∈ (g p).work.lh.block.drop (g p).work.unpinned := by
    rw [mem_drop_iff_getElem]
    exact ⟨(g p).work.installed - (g p).work.unpinned, by omega, by
      simp only [Nat.add_sub_cancel' hunpinned, hb]⟩
  have hbegan := hinv.data_pending hheld hrole hpending
  have hout : OutsideLog sb.logstart sb.nlog b := hinv.log.outside b (hwork.lh ▸ hmem)
  show (exec sb p () (.bwrite i) s).Ensures _ _
  simp only [exec, hlock, if_true, hblock]
  refine hinv.writeStep (.inr hrole) (by rfl) (by rfl) (by exact hclean) ?_ ?_ ?_
  · intro hboot
    rw [hrole] at hboot
    cases hboot
  · intro j hjv hjin hjclean
    have hne : (s.bcache.buf j).blockno ≠ b := fun heq => hjin (heq ▸ hout)
    rw [update_of_ne hne]
    refine hinv.data.coherent j hjv hjin ?_
    intro q block' hq
    by_cases hqp : q = p
    · subst hqp
      rw [hclean] at hq
      cases hq
    · exact hjclean q block' hqp hq
  · intro _
    refine { hwork with written := ?_, installed := ?_, group := ?_ }
    · intro j hj hjn
      have hlast : j < (g p).work.lh.block.length := hj
      have hne : sb.logstart + j + 1 ≠ b := by
        unfold OutsideLog at hout
        omega
      show _ = some (update s.disk b _ (sb.logstart + j + 1))
      rw [update_of_ne hne]
      exact hwork.written j hj hjn
    · intro j hj hjn
      show _ = some (update s.disk b _ (g p).work.lh.block[j])
      by_cases heq : (g p).work.lh.block[j] = b
      · rwa [heq, update_self]
      · rw [update_of_ne heq]
        have hne : j ≠ (g p).work.installed := by
          rintro rfl
          exact heq hb
        exact hwork.installed j hj (by
          simp only at hjn
          omega)
    · intro home hhome
      have := hwork.group home hhome
      simpa [hcleared] using this

end Xv6.Log
