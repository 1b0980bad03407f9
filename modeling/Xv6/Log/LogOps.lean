import Xv6.Log.BufferOps

/-!
# Operations on the log keep the invariant

One rule per critical section of `log.c`, in the form of `Xv6.Log.BufferOps`. Here processes
change their roles: `begin_op` enters an operation, the last `end_op` of a group turns its
process into the committer, and the end of the commit records what it has done.
-/

namespace Xv6.Log

open Interleave Function List

variable {sb : Superblock} {tight : Prop} {s : State} {g : Pid → Own} {p : Pid} {own : Own}

/-- A step on the variables of the log and on reference counts, which keeps buffers, disk and
references. -/
theorem Inv.logStep (h : Inv sb tight s g) {s' : State} {next : Own}
    (hsame : ∀ j, ∃ n, s'.bcache.buf j = { s.bcache.buf j with refcnt := n })
    (hok : RefsOk s'.bcache s'.pending (hands g)) (hdisk : s'.disk = s.disk)
    (hrefs : s'.refs = s.refs) (hhands : next.hands = (g p).hands)
    (hdirty : next.dirty = (g p).dirty)
    (hlog : LogOk sb s' (update (roles g) p next.role))
    (hself : next.role = .commit → WorkOk sb s' next.work)
    (hother : ∀ q, q ≠ p → (g q).role = .commit → WorkOk sb s' (g q).work)
    (hcommits : ∀ r ∈ s'.commits, ∀ b ∈ r.blocks, r.began b = some (r.disk b))
    (hreserved : tight → Reserved sb s' (update (roles g) p next.role)) :
    Inv sb tight s' (update g p next) := by
  have hdirties := proj_update hdirty
  have hheld := proj_update hhands
  have hnew : hands (update g p next) = hands g := funext hheld
  refine ⟨hnew ▸ hok, ?_, ?_, ?_, ?_⟩
  · intro q i
    rw [hrefs, hheld]
    exact h.counted q i
  · rwa [roles_update]
  · refine ⟨?_, ?_, ?_, hcommits⟩
    · intro i hvalid hin hclean
      obtain ⟨n, hi⟩ := hsame i
      simp only [hi] at hvalid hin ⊢
      rw [hdisk]
      refine h.data.coherent i hvalid hin ?_
      intro q block
      rw [← hdirties q]
      exact hclean q block
    · intro q i block hq
      obtain ⟨n, hi⟩ := hsame i
      rw [hdirties q] at hq
      simp only [hi, hheld]
      exact h.data.dirty q i block hq
    · intro q hq
      by_cases hqp : q = p
      · subst hqp
        rw [update_self] at hq ⊢
        exact hself hq
      · rw [update_of_ne hqp] at hq ⊢
        exact hother q hqp hq
  · rwa [roles_update]

theorem update_roles_self {next : Own} (h : next.role = (g p).role) :
    update (roles g) p next.role = roles g := by
  rw [h]
  exact update_eq_self p (roles g)

variable {i : BufIdx}

theorem triple_bunpin (hrole : own.role = .commit)
    (hn : own.work.unpinned < own.work.lh.block.length)
    (hheld : (i, own.work.lh.block[own.work.unpinned]) ∈ own.hands.held) :
    Moves sb tight p own (.perform (.bunpin i))
      { own with work := { own.work with unpinned := own.work.unpinned + 1 } } := by
  refine .perform rfl trivial ?_
  rintro s g _ hinv rfl _
  have hwork := hinv.data.work p hrole
  have hpending : s.pending = (g p).work.lh.block[(g p).work.unpinned] ::
      (g p).work.lh.block.drop ((g p).work.unpinned + 1) := by
    rw [State.pending, hwork.lh, hwork.unpinned, drop_eq_getElem_cons hn]
  have hnodup : s.pending.Nodup := hinv.log.nodup.sublist (drop_sublist _ _)
  have hrefs := hinv.refs
  rw [hpending] at hrefs hnodup
  have hnot := (nodup_cons.mp hnodup).1
  have hunpin := hrefs.bunpin hheld hnot
  have hsame : ∀ j, ∃ n, (s.bcache.bunpin i).buf j = { s.bcache.buf j with refcnt := n } :=
    Bcache.modify_refcnt_same s.bcache i fun n => n - 1
  refine hinv.logStep hsame ?_ rfl rfl rfl rfl ?_ ?_ ?_ hinv.data.commits ?_
  · simp only [State.pending, hwork.lh, hwork.unpinned]
    exact hunpin
  · rw [update_roles_self rfl]
    refine { hinv.log with idle := ?_ }
    intro hidle
    exact absurd hrole (hinv.log.no_commit hidle p)
  · intro _
    refine { hwork with unpinned := ?_, cached := ?_ }
    · show s.unpinned + 1 = _
      rw [hwork.unpinned]
    · intro j hvalid hmem
      obtain ⟨n, hj⟩ := hsame j
      simp only [hj] at hvalid hmem ⊢
      refine hwork.cached j hvalid ?_
      rw [hpending]
      refine mem_cons_of_mem _ ?_
      simpa [State.pending, hwork.lh, hwork.unpinned] using hmem
  · exact fun q hqp hq => absurd (hinv.log.commit_unique hrole hq) hqp
  · intro ht
    rw [update_roles_self rfl]
    exact { hinv.reserved ht with }

/-- Clearing the in-memory header when all of the transaction is installed. -/
theorem triple_setLh_commit (hrole : own.role = .commit)
    (hunpinned : own.work.unpinned = own.work.lh.block.length)
    (hinstalled : own.work.installed = own.work.lh.block.length)
    (hcleared : own.work.cleared = false) :
    Moves sb tight p own (.perform (.setLh .empty))
      { own with work := ⟨.empty, own.work.began, 0, 0, 0, true⟩ } := by
  refine .perform rfl trivial ?_
  rintro s g _ hinv rfl _
  have hwork := hinv.data.work p hrole
  have hpending : s.pending = [] := by
    rw [State.pending, hwork.lh, hwork.unpinned, hunpinned, drop_length]
  refine hinv.logStep (fun _ => ⟨_, rfl⟩) ?_ rfl rfl rfl rfl ?_ ?_ ?_ hinv.data.commits ?_
  · have hrefs := hinv.refs
    rwa [hpending] at hrefs
  · rw [update_roles_self rfl]
    refine { hinv.log with clear := ?_, nodup := ?_, outside := ?_, idle := ?_ }
    · intro hboot
      exact ⟨rfl, (hinv.log.clear hboot).2⟩
    · exact nodup_nil
    · rintro b ⟨⟩
    · intro hidle
      exact absurd hrole (hinv.log.no_commit hidle p)
  · intro _
    refine ⟨rfl, hwork.began, rfl, ?_, ?_, ?_, ?_⟩
    · rintro j ⟨⟩
    · rintro j ⟨⟩
    · intro j _ hmem
      simp [State.pending] at hmem
    · intro b hb
      have hmem := hwork.group b hb
      rw [hcleared] at hmem
      obtain ⟨j, hj, rfl⟩ := getElem_of_mem (show b ∈ (g p).work.lh.block by simpa using hmem)
      simpa using hwork.installed j hj (hinstalled ▸ hj)
  · exact fun q hqp hq => absurd (hinv.log.commit_unique hrole hq) hqp
  · intro ht
    rw [update_roles_self rfl]
    have hres := hinv.reserved ht
    constructor
    · have := hres.room
      show 0 + ∑ q, budget s (roles g q) q + 2 ≤ sb.nlog
      omega
    · intro q hq
      have hidle := hinv.log.not_committing hq
      exact absurd hrole (hinv.log.no_commit hidle p)

/-- Setting the header to what it is while the machine boots with a clear log. -/
theorem triple_setLh_boot (hrole : own.role = .boot) :
    Moves sb tight p own (.perform (.setLh .empty)) own := by
  refine .perform rfl trivial ?_
  rintro s g _ hinv rfl _
  have hbooted : s.booted = false := hinv.log.not_booted hrole
  have hidle : s.committing = false := by
    cases hc : s.committing with
    | false => rfl
    | true =>
      obtain hnone | ⟨q, hq, hcommit⟩ := hinv.log.committers
      · exact absurd hnone (hinv.log.committing.mp hc)
      · have := hinv.log.booted_of_role (.inr (.inr hcommit))
        rw [hbooted] at this
        cases this
  have hsame : ({ s with lh := .empty, unpinned := 0 } : State) = s := by
    rw [← (hinv.log.clear hbooted).1, ← (hinv.log.idle hidle).1]
  show Inv sb tight { s with lh := .empty, unpinned := 0 } _
  rwa [hsame, update_eq_self]

variable {role : Pid → Role} {outstanding : Int} {r : Role}

/-- If nobody else boots and the new role is another one, nobody boots. -/
theorem ne_boot_update (hr : r ≠ .boot) (hother : ∀ q, q ≠ p → role q ≠ .boot) (q : Pid) :
    update role p r q ≠ .boot := by
  by_cases hqp : q = p
  · subst hqp
    rwa [update_self]
  · rw [update_of_ne hqp]
    exact hother q hqp

/-- A process that does not commit may change its role to any other one than committing; it
begins an operation only while nobody commits. -/
theorem LogOk.switch (h : LogOk sb s role) (hp : role p ≠ .commit)
    (hr : r ≠ .commit) (hboot : r ≠ .boot) (hop : s.committing = true → r.isOp = false)
    {booted : Bool} (hbooted : booted = true)
    (hother : ∀ q, q ≠ p → role q ≠ .boot) (logged : Pid → List Nat)
    (hout : outstanding + (role p).isOp.toNat = s.outstanding + r.isOp.toNat) :
    LogOk sb { s with outstanding := outstanding, booted := booted, logged := logged }
      (update role p r) := by
  have hsum := Interleave.sum_update (fun r : Role => r.isOp.toNat) role p r
  have hold := h.outstanding
  refine { h with
    outstanding := ?_
    committer := ?_
    committers := ?_
    quiet := ?_
    booting := ?_
    booted := ?_
    clear := ?_ }
  · show outstanding = _
    omega
  · intro q hq
    by_cases hqp : q = p
    · subst hqp
      rw [update_self] at hq
      exact absurd hq hr
    · rw [update_of_ne hqp] at hq
      exact h.committer q hq
  · rcases h.committers with hnone | ⟨q, hq, hcommit⟩
    · exact .inl hnone
    · have hqp : q ≠ p := by
        rintro rfl
        exact hp hcommit
      exact .inr ⟨q, hq, by rwa [update_of_ne hqp]⟩
  · intro hc
    have hzero := h.quiet hc
    have hle := Interleave.le_sum (fun q => (role q).isOp.toNat) p
    rw [hop hc] at hout
    simp only [Bool.toNat_false] at hout
    show outstanding = 0
    omega
  · intro hb
    rw [show booted = false from hb] at hbooted
    cases hbooted
  · intro _
    exact ne_boot_update hboot hother
  · intro hb
    rw [show booted = false from hb] at hbooted
    cases hbooted

theorem sum_budget_le (s : State) (role : Pid → Role) :
    ∑ q, budget s (role q) q ≤ (∑ q, (role q).isOp.toNat) * MAXOPBLOCKS := by
  rw [Finset.sum_mul]
  refine Finset.sum_le_sum ?_
  intro q _
  unfold budget
  cases (role q).isOp with
  | true => simp
  | false => simp

theorem triple_beginOp (hrole : own.role = .out) :
    Moves sb tight p own (.perform .beginOp) { own with role := .op } := by
  refine .perform rfl trivial ?_
  rintro s g _ hinv rfl hguard
  have hbooted : s.booted = true := hinv.log.booted_of_role (.inl hrole)
  show (exec sb p () .beginOp s).Ensures _ _
  simp only [exec]
  cases hadmits : admits s with
  | false => trivial
  | true =>
    have hidle : s.committing = false := by
      simp only [admits, Bool.and_eq_true, Bool.not_eq_true'] at hadmits
      exact hadmits.1
    have hlog := hinv.log.switch (p := p) (hinv.log.no_commit hidle p) (r := .op) (by simp)
      (by simp) (by simp [hidle]) hbooted (fun q _ => hinv.log.booted hbooted q)
      (update s.logged p [])
      (show s.outstanding + 1 + _ = _ by rw [roles, hrole]; simp [Role.isOp])
    refine hinv.logStep (fun _ => ⟨_, rfl⟩) hinv.refs rfl rfl rfl rfl hlog (by simp) ?_
      hinv.data.commits ?_
    · exact fun q _ hq => absurd hq (hinv.log.no_commit hidle q)
    · intro ht
      have hroom : s.lh.block.length + (s.outstanding + 1) * MAXOPBLOCKS + 2 ≤ sb.nlog := by
        have := (hguard ht).2
        simpa [leavesRoom, hadmits] using this
      have hsum := sum_budget_le
        { s with outstanding := s.outstanding + 1, logged := update s.logged p [] }
        (update (roles g) p .op)
      have hout : s.outstanding + 1 = _ := hlog.outstanding
      constructor
      · show s.lh.block.length + ∑ q, budget _ (update (roles g) p .op q) q + 2 ≤ sb.nlog
        rw [hout] at hroom
        omega
      · intro q hq b hb
        by_cases hqp : q = p
        · subst hqp
          simp at hb
        · rw [update_of_ne hqp] at hq
          exact (hinv.reserved ht).logged q hq b (by simpa [hqp] using hb)

/-- The reservation does not notice a process that is in no operation before and after. -/
theorem Reserved.switch (h : Reserved sb s role)
    (hr : r.isOp = false) (hp : r ≠ .op) : Reserved sb s (update role p r) := by
  have hsum := Interleave.sum_change (fun q => budget s (role q) q)
    (fun q => budget s (update role p r q) q) p
    (fun q hq => by rw [update_of_ne hq])
  have hzero : budget s (update role p r p) p = 0 := by
    simp [budget, hr]
  constructor
  · have hroom := h.room
    omega
  · intro q hq
    by_cases hqp : q = p
    · subst hqp
      rw [update_self] at hq
      exact absurd hq hp
    · rw [update_of_ne hqp] at hq
      exact h.logged q hq

/-- A process that changes its role, but neither begins an operation nor commits. -/
theorem Inv.switch (h : Inv sb tight s g) (hp : (g p).role ≠ .commit)
    (hr : r ≠ .commit) (hboot : r ≠ .boot) (hop : r.isOp = false)
    {booted : Bool} (hbooted : booted = true) (hother : ∀ q, q ≠ p → (g q).role ≠ .boot)
    (hout : outstanding + (g p).role.isOp.toNat = s.outstanding) :
    Inv sb tight { s with outstanding := outstanding, booted := booted }
      (update g p { g p with role := r }) := by
  refine h.logStep (fun _ => ⟨_, rfl⟩) h.refs rfl rfl rfl rfl ?_ (fun hq => absurd hq hr) ?_
    h.data.commits ?_
  · exact h.log.switch hp hr hboot (fun _ => hop) hbooted hother s.logged
      (by rw [hop]; simpa [roles] using hout)
  · exact fun q _ hq => { h.data.work q hq with }
  · intro ht
    have hne : r ≠ .op := by
      rintro rfl
      simp [Role.isOp] at hop
    exact { (h.reserved ht).switch hop hne with }

theorem triple_finishBoot (hrole : own.role = .boot) :
    Moves sb tight p own (.perform .finishBoot) { own with role := .out } := by
  refine .perform rfl trivial ?_
  rintro s g _ hinv rfl _
  have hbooted : s.booted = false := hinv.log.not_booted hrole
  refine hinv.switch (by simp [hrole]) (by simp) (by simp) rfl rfl ?_ ?_
  · intro q hq hboot
    have hp := hinv.log.booting hbooted p
    have hqr := hinv.log.booting hbooted q
    rw [roles, hrole, bootRole] at hp
    rw [roles, hboot, bootRole] at hqr
    split at hp
    next hpi =>
      split at hqr
      next hqi => exact hq (hqi.trans hpi.symm)
      next => cases hqr
    next => cases hp
  · rw [hrole]
    simp [Role.isOp]

theorem triple_awaitBoot (hrole : own.role = .unborn) :
    Moves sb tight p own (.perform .awaitBoot) { own with role := .out } := by
  refine .perform rfl trivial ?_
  rintro s g _ hinv rfl _
  show (exec sb p () .awaitBoot s).Ensures _ _
  simp only [exec]
  cases hb : s.booted with
  | false => trivial
  | true =>
    show Inv sb tight { s with outstanding := s.outstanding, booted := s.booted } _
    refine hinv.switch (by simp [hrole]) (by simp) (by simp) rfl hb ?_ ?_
    · exact fun q _ => hinv.log.booted hb q
    · rw [hrole]
      simp [Role.isOp]

/-- The check of the log's size in `log_write` can fail only where no reservation is claimed. -/
theorem triple_checkSize (hgeometry : tight → sb.nlog ≤ LOGSIZE) :
    Moves sb tight p own (.perform (.checkSize i)) own := by
  refine .perform rfl trivial ?_
  rintro s g _ hinv rfl _
  show (exec sb p () (.checkSize i) s).Ensures _ _
  simp only [exec]
  split
  next hfull =>
    by_cases ht : tight
    · have := (hinv.reserved ht).room
      have := hgeometry ht
      omega
    · exact .inr ⟨ht, rfl⟩
  next =>
    rwa [update_eq_self]

theorem triple_checkTrans (hrole : own.role = .op) :
    Moves sb tight p own (.perform .checkTrans) own := by
  refine .perform rfl trivial ?_
  rintro s g _ hinv rfl _
  have hle := Interleave.le_sum (fun q => (roles g q).isOp.toNat) p
  have hone : (roles g p).isOp.toNat = 1 := by
    rw [roles, hrole]
    rfl
  have hout : ¬s.outstanding < 1 := by
    have := hinv.log.outstanding
    omega
  show (exec sb p () .checkTrans s).Ensures _ _
  simp only [exec, if_neg hout]
  rwa [update_eq_self]

/-- A block that is new in the log uses up one unit of its operation's budget. -/
theorem Reserved.logInsert (h : Reserved sb s role) (hrole : role p = .op)
    {b : Nat} {lh : LogHeader} {group : List Nat} {c : Bcache Nat Pid}
    (hlimit : b ∈ s.logged p ∨ (s.logged p).length < MAXOPBLOCKS)
    (hlh : (b ∈ s.lh.block ∧ lh = s.lh) ∨ (b ∉ s.lh.block ∧ lh.block = s.lh.block ++ [b])) :
    Reserved sb { s with
      bcache := c
      lh := lh
      logged := update s.logged p (List.insert b (s.logged p))
      group := group } role := by
  let s' : State := { s with
    bcache := c
    lh := lh
    logged := update s.logged p (List.insert b (s.logged p))
    group := group }
  have hsum := Interleave.sum_change (fun q => budget s (role q) q)
    (fun q => budget s' (role q) q) p (fun q hq => by simp [budget, s', hq])
  have hbudget : budget s (role p) p = MAXOPBLOCKS - (s.logged p).length := by
    simp [budget, hrole, Role.isOp]
  have hbudget' : budget s' (role p) p = MAXOPBLOCKS - (List.insert b (s.logged p)).length := by
    simp [budget, hrole, Role.isOp, s']
  have hsub : ∀ b ∈ s.lh.block, b ∈ lh.block := by
    intro b' hb'
    rcases hlh with ⟨-, rfl⟩ | ⟨-, heq⟩
    · exact hb'
    · rw [heq]
      exact mem_append_left _ hb'
  constructor
  · have hroom := h.room
    show lh.block.length + ∑ q, budget s' (role q) q + 2 ≤ sb.nlog
    by_cases hmem : b ∈ s.logged p
    · rw [insert_of_mem hmem] at hbudget'
      rcases hlh with ⟨-, rfl⟩ | ⟨hnew, -⟩
      · omega
      · exact absurd (h.logged p hrole b hmem) hnew
    · have hlen : (s.logged p).length < MAXOPBLOCKS := hlimit.resolve_left hmem
      rw [insert_of_not_mem hmem, length_cons] at hbudget'
      rcases hlh with ⟨-, rfl⟩ | ⟨-, heq⟩
      · omega
      · rw [heq, length_append, length_singleton]
        omega
  · intro q hq b' hb'
    by_cases hqp : q = p
    · subst hqp
      simp only [update_self, mem_insert_iff] at hb'
      rcases hb' with rfl | hb'
      · rcases hlh with ⟨hmem, rfl⟩ | ⟨-, heq⟩
        · exact hmem
        · simp [heq]
      · exact hsub b' (h.logged q hq b' hb')
    · exact hsub b' (h.logged q hq b' (by simpa [hqp] using hb'))

theorem triple_logInsert {b : Nat} (hrole : own.role = .op)
    (hheld : (i, b) ∈ own.hands.held) (hout : OutsideLog sb.logstart sb.nlog b) :
    Moves sb tight p own (.perform (.logInsert i)) own := by
  refine .perform rfl hrole ?_
  rintro s g _ hinv rfl hguard
  obtain ⟨-, hblock, hvalid⟩ := (hinv.refs.hands p).held i b hheld
  have hidle := hinv.log.not_committing hrole
  obtain ⟨hunpinned, hgroup⟩ := hinv.log.idle hidle
  have hpending : s.pending = s.lh.block := by
    rw [State.pending, hunpinned, drop_zero]
  have hlimit : tight → b ∈ s.logged p ∨ (s.logged p).length < MAXOPBLOCKS := by
    intro ht
    simpa [withinLimit, hblock] using (hguard ht).1
  have hboot : s.booted = true := hinv.log.booted_of_role (.inr (.inl hrole))
  have hothers : ∀ q, (g q).role ≠ .commit := hinv.log.no_commit hidle
  show (exec sb p () (.logInsert i) s).Ensures _ _
  simp only [exec, logInsert, hblock]
  split
  next hmem =>
    refine hinv.logStep (fun _ => ⟨_, rfl⟩) hinv.refs rfl rfl rfl rfl ?_
      (fun hq => absurd hq (hothers p)) (fun q _ hq => absurd hq (hothers q)) hinv.data.commits ?_
    · rw [update_roles_self rfl]
      refine { hinv.log with clear := ?_, grouped := ?_, idle := ?_ }
      · intro hb
        rw [show s.booted = false from hb] at hboot
        cases hboot
      · exact forall_mem_cons.mpr ⟨hout, hinv.log.grouped⟩
      · intro _
        exact ⟨hunpinned, forall_mem_cons.mpr ⟨hmem, hgroup⟩⟩
    · intro ht
      rw [update_roles_self rfl]
      exact (hinv.reserved ht).logInsert hrole (hlimit ht) (.inl ⟨hmem, rfl⟩)
  next hnew =>
    -- the buffer of the new block is one that no logged block occupies
    have hlt : s.lh.block.length < LOGSIZE := by
      have := hinv.refs.length_pending_lt (hpending ▸ hinv.log.nodup)
        (fun _ => by rwa [hpending, hblock])
      rwa [hpending] at this
    simp only [LogHeader.push, dif_pos hlt]
    have hrefs := hinv.refs.bpin hheld (by rwa [hpending])
    rw [hpending] at hrefs
    refine hinv.logStep (Bcache.modify_refcnt_same s.bcache i fun n => n + 1) ?_ rfl rfl rfl rfl ?_
      (fun hq => absurd hq (hothers p)) (fun q _ hq => absurd hq (hothers q)) hinv.data.commits ?_
    · simp only [State.pending, hunpinned, drop_zero]
      exact hrefs
    · rw [update_roles_self rfl]
      refine { hinv.log with
        clear := ?_
        nodup := ?_
        outside := ?_
        grouped := ?_
        idle := ?_ }
      · intro hb
        rw [show s.booted = false from hb] at hboot
        cases hboot
      · exact (nodup_append_comm.mp (nodup_cons.mpr ⟨hnew, hinv.log.nodup⟩))
      · exact forall_mem_append.mpr ⟨hinv.log.outside, forall_mem_singleton.mpr hout⟩
      · exact forall_mem_cons.mpr ⟨hout, hinv.log.grouped⟩
      · intro _
        have hlogged : ∀ b' ∈ s.group, b' ∈ s.lh.block ++ [b] := fun b' hb' =>
          mem_append_left _ (hgroup b' hb')
        exact ⟨hunpinned, forall_mem_cons.mpr ⟨by simp, hlogged⟩⟩
    · intro ht
      rw [update_roles_self rfl]
      exact (hinv.reserved ht).logInsert hrole (hlimit ht) (.inr ⟨hnew, rfl⟩)

/-- The work of a commit that has just begun. -/
def Work.started (w : Work) : Prop :=
  w.written = 0 ∧ w.installed = 0 ∧ w.unpinned = 0 ∧ w.cleared = false

/-- The first half of `end_op`: the last operation of a group becomes its committer. -/
theorem triple_endOp (hrole : own.role = .op) :
    Triple sb tight p own (.perform .endOp) fun doCommit own' =>
      if doCommit then ∃ w : Work, w.started ∧ own' = { own with role := .commit, work := w }
      else own' = { own with role := .out } := by
  refine .perform rfl trivial ?_
  rintro s g _ hinv rfl _
  have hidle := hinv.log.not_committing hrole
  obtain ⟨hunpinned, hgroup⟩ := hinv.log.idle hidle
  have hnone : s.committers = [] := by
    by_contra hne
    have := hinv.log.committing.mpr hne
    rw [hidle] at this
    cases this
  have hbooted : s.booted = true := hinv.log.booted_of_role (.inr (.inl hrole))
  have hone : (g p).role.isOp.toNat = 1 := by
    rw [hrole]
    rfl
  show (exec sb p () .endOp s).Ensures _ _
  have hnot : ¬s.committing = true := by simp [hidle]
  simp only [exec, endOp, if_neg hnot]
  split
  next hlast =>
    let w : Work := ⟨s.lh, s.cached, 0, 0, 0, false⟩
    have hsum := Interleave.sum_update (fun r : Role => r.isOp.toNat) (roles g) p .commit
    have hold := hinv.log.outstanding
    refine ⟨{ g p with role := .commit, work := w }, ?_, w, ⟨rfl, rfl, rfl, rfl⟩, rfl⟩
    refine hinv.logStep (fun _ => ⟨_, rfl⟩) hinv.refs rfl rfl rfl rfl ?_ ?_
      (fun q _ hq => absurd hq (hinv.log.no_commit hidle q)) hinv.data.commits ?_
    · refine { hinv.log with
        outstanding := ?_
        committer := ?_
        committers := .inr ⟨p, ?_, ?_⟩
        committing := ?_
        quiet := ?_
        booting := ?_
        booted := ?_
        idle := ?_ }
      · show s.outstanding - 1 = ((∑ q, (update (roles g) p .commit q).isOp.toNat : Nat) : Int)
        have hzero : Role.commit.isOp.toNat = 0 := rfl
        have hp : (roles g p).isOp.toNat = 1 := hone
        omega
      · intro q hq
        have hqp : q = p := by
          by_contra hne
          rw [update_of_ne hne] at hq
          exact hinv.log.no_commit hidle q hq
        rw [hnone, hqp]
      · show p :: s.committers = [p]
        rw [hnone]
      · rw [update_self]
      · simp
      · intro _
        exact hlast
      · intro hb
        rw [show s.booted = false from hb] at hbooted
        cases hbooted
      · intro _
        exact ne_boot_update (by simp) fun q _ => hinv.log.booted hbooted q
      · rintro ⟨⟩
    · intro _
      refine ⟨rfl, rfl, hunpinned, ?_, ?_, ?_, ?_⟩
      · rintro j _ ⟨⟩
      · rintro j _ ⟨⟩
      · intro j hvalid _
        show s.cached (s.bcache.buf j).blockno = some (s.bcache.buf j).data
        have hvalid' : (s.bcache.buf j).valid = true := hvalid
        simp only [State.cached, hinv.refs.cache.found j (.inl hvalid), hvalid', if_true]
      · intro b hb
        exact hgroup b hb
    · intro ht
      exact { (hinv.reserved ht).switch rfl (by simp) with }
  next hmore =>
    refine ⟨{ g p with role := .out }, ?_, rfl⟩
    refine hinv.switch (by simp [hrole]) (by simp) (by simp) rfl hbooted
      (fun q _ => hinv.log.booted hbooted q) ?_
    rw [hone]
    simp

theorem triple_endCommit (hrole : own.role = .commit)
    (hcleared : own.work.cleared = true ∨ own.work.lh = .empty)
    (hunpinned : own.work.unpinned = 0) :
    Moves sb tight p own (.perform .endCommit) { own with role := .out } := by
  refine .perform rfl trivial ?_
  rintro s g _ hinv rfl _
  have hwork := hinv.data.work p hrole
  have hcommitters := hinv.log.committer p hrole
  have hbooted := hinv.log.booted_of_role (.inr (.inr hrole))
  have hsum := Interleave.sum_update (fun r : Role => r.isOp.toNat) (roles g) p .out
  have hold := hinv.log.outstanding
  have hother : ∀ q, update (roles g) p .out q ≠ .commit := by
    intro q hq
    by_cases hqp : q = p
    · subst hqp
      simp at hq
    · rw [update_of_ne hqp] at hq
      exact hqp (hinv.log.commit_unique hrole hq)
  refine hinv.logStep (fun _ => ⟨_, rfl⟩) hinv.refs rfl rfl rfl rfl ?_ nofun
    (fun q hqp hq => absurd (hinv.log.commit_unique hrole hq) hqp) ?_ ?_
  · refine { hinv.log with
      outstanding := ?_
      committer := ?_
      committers := .inl ?_
      committing := ?_
      quiet := ?_
      booting := ?_
      booted := ?_
      clear := ?_
      grouped := ?_
      idle := ?_ }
    · have hzero : Role.out.isOp.toNat = 0 := rfl
      have hp : (roles g p).isOp.toNat = 0 := by
        rw [roles, hrole]
        rfl
      show s.outstanding = ((∑ q, (update (roles g) p .out q).isOp.toNat : Nat) : Int)
      omega
    · exact fun q hq => absurd hq (hother q)
    · show s.committers.erase p = []
      rw [hcommitters, erase_cons_head]
    · show false = true ↔ s.committers.erase p ≠ []
      rw [hcommitters, erase_cons_head]
      simp
    · rintro ⟨⟩
    · intro hb
      rw [show s.booted = false from hb] at hbooted
      cases hbooted
    · intro _
      exact ne_boot_update (by simp) fun q _ => hinv.log.booted hbooted q
    · intro hb
      rw [show s.booted = false from hb] at hbooted
      cases hbooted
    · rintro b ⟨⟩
    · intro _
      exact ⟨hwork.unpinned.trans hunpinned, by simp⟩
  · intro r hr b hb
    rcases mem_cons.mp hr with rfl | hr
    · have := hwork.group b hb
      rw [hwork.began]
      rcases hcleared with hcleared | hempty
      · simpa [hcleared] using this
      · cases hc : (g p).work.cleared with
        | true => simpa [hc] using this
        | false => simp [hc, hempty] at this
    · exact hinv.data.commits r hr b hb
  · intro ht
    exact { (hinv.reserved ht).switch rfl (by simp) with }

end Xv6.Log
