import Xv6.ProcTable.Ops

/-!
# Creating, giving away, ending and freeing processes keep the invariant

The operations of `fork`, `reparent`, `exit` and `wait` that change the tree of parents or its
nodes. What makes them work: only its parent changes the field `parent` of a process, and a
process is not the parent of any other one when it becomes a zombie.
-/

namespace Xv6.ProcTable

open Interleave Function List

variable {strict : Prop} {quiet : (ProcState → Bool) → Prop} {alive : ProcState → Bool}
  {s s' : State} {g : Agent → Own} {p q np : Slot} {own : Own} {f : Proc → Proc}

/-- A slot whose parent is set is in use, unless its parent is still filling it. -/
theorem Inv.used_of_parent (h : Inv strict quiet s g) (hparent : (s.proc q).parent = some p)
    (hphase : (g (.proc p)).phase ≠ .forking q true) : (s.proc q).state ≠ .UNUSED :=
  (h.adopted q p hparent).resolve_right hphase

/-- The rule for a step in which a process changes a slot whose lock it holds. -/
theorem Inv.change {own₀ : Own} (h : Inv strict quiet s g) (hown : g (.proc p) = own₀)
    (hproc : s'.proc = (s.modify q f).proc) (hcpu : s'.cpuProc = s.cpuProc)
    (hlock : (f (s.proc q)).lock = (s.proc q).lock) (hq : q ∈ own₀.held)
    (hactive : own₀.phase.active = true ∧ own.phase.active = true) (hheld : own.held = own₀.held)
    (hwf : own.Wf (.proc p)) (hphase : ∀ t, t ≠ q → own₀.phase ≠ .forking t true)
    (hrunning : q ≠ p → (s.proc q).state = .RUNNING → (f (s.proc q)).state = .RUNNING)
    (hlive : q ≠ p → (s.proc q).state.Live → (f (s.proc q)).state.Live ∧ s'.stamp q = s.stamp q)
    (hstamp : ∀ r, r ≠ q → s'.stamp r = s.stamp r)
    (hchild : ∀ r, r ≠ p → (s.proc q).parent = some r → (s.proc q).state ≠ .UNUSED →
      (f (s.proc q)).parent = some r ∧ (f (s.proc q)).state ≠ .UNUSED ∧ s'.stamp q = s.stamp q)
    (hparent : ∀ r, r ≠ p → r ≠ initproc → (f (s.proc q)).parent = some r →
      (s.proc q).parent = some r)
    (hremembered : ∀ r, r ≠ p → s'.originalParent r = s.originalParent r)
    (hparentStamp : strict → ∀ r, s.originalParent r = some q → s'.stamp q = s.stamp q)
    (hadopted : ∀ r, (f (s.proc q)).parent = some r → (f (s.proc q)).state ≠ .UNUSED ∨
      r = p ∧ own.phase = .forking q true)
    (hknows : Knows strict s' p own) (htree : TreeOk s') (hrecords : RecordsOk s')
    (hkills : ∀ alive, quiet alive → KillsOk alive s') :
    Inv strict quiet s' (update g (.proc p) own) := by
  subst hown
  have hlocked := (h.holding (.proc p)).held q hq
  refine h.step (h.holding_writer rfl hactive.1 hactive.2 hheld hwf hproc hcpu hlock)
    (h.holding_write rfl hproc hcpu hlock hq) ?_ (forall_self hknows) htree ?_ hrecords hkills
  · intro r hr
    have hrp : r ≠ p := fun h => hr (congrArg Agent.proc h.symm)
    constructor <;> try rw [hproc]
    · exact forall_modify (P := fun t new => r = t → (s.proc t).state = .RUNNING →
        new.state = .RUNNING) (fun hrq => hrunning (hrq ▸ hrp)) (fun _ _ _ h => h) r rfl
    · exact forall_modify (P := fun t new => r = t → (s.proc t).state.Live →
        new.state.Live ∧ s'.stamp t = s.stamp t) (fun hrq => hlive (hrq ▸ hrp))
        (fun t ht _ h => ⟨h, hstamp t ht⟩) r rfl
    · intro t ht
      have hne : t ≠ q := by
        rintro rfl
        exact hrp (Agent.proc.inj (Option.some.inj (ht.symm.trans hlocked)))
      exact ⟨proc_modify_of_ne hne, hstamp t hne⟩
    · exact forall_modify (P := fun t new => (s.proc t).parent = some r →
        (s.proc t).state ≠ .UNUSED → new.parent = some r ∧ new.state ≠ .UNUSED ∧
          s'.stamp t = s.stamp t) (hchild r hrp) fun t ht h hused => ⟨h, hused, hstamp t ht⟩
    · intro hinit
      exact forall_modify (P := fun t new => new.parent = some r → (s.proc t).parent = some r)
        (hparent r hrp hinit) fun _ _ h => h
    · exact hremembered r hrp
    · intro hs t ht
      by_cases htq : t = q
      · subst htq
        exact hparentStamp hs r ht
      · exact hstamp t htq
  · intro t r
    rw [hproc]
    refine forall_modify (P := fun t new => new.parent = some r → new.state ≠ .UNUSED ∨
      (update g (.proc p) own (.proc r)).phase = .forking t true) ?_ ?_ t
    · refine fun hr => (hadopted r hr).imp_right ?_
      rintro ⟨rfl, hforking⟩
      simpa using hforking
    · refine fun t ht hr => (h.adopted t r hr).imp_right fun hforking => ?_
      have hrp : r ≠ p := by
        rintro rfl
        exact hphase t ht hforking
      rwa [update_of_ne fun he => hrp (Agent.proc.inj he)]

variable {held : List Slot} {adopted : Bool}

/-- A process that runs is in a slot other than the free one that it fills. -/
theorem Knows.ne_forking (h : Knows strict s p ⟨held, none, .forking np adopted⟩) : p ≠ np := by
  intro hp
  have hrunning := h.running rfl
  rw [hp, (h.forking np adopted rfl).1] at hrunning
  cases hrunning

theorem Inv.forking_ne_init (h : Inv strict quiet s g)
    (hunused : (s.proc np).state = .UNUSED) : np ≠ initproc := by
  intro hnp
  rw [hnp] at hunused
  exact h.tree.init.1 hunused

/-! ### fork -/

theorem Inv.parent_none (h : Inv strict quiet s g)
    (hown : g (.proc p) = ⟨held, none, .forking np false⟩) : (s.proc np).parent = none := by
  have hknows := hown ▸ h.knows p
  have hholding := hown ▸ h.holding (.proc p)
  have hlock := hholding.held np (hholding.wf.forking np false rfl)
  cases hparent : (s.proc np).parent with
  | none => rfl
  | some r =>
    rcases h.adopted np r hparent with hused | hforking
    · exact absurd (hknows.forking np false rfl).1 hused
    · -- two processes cannot hold the lock of the slot
      have hlock' := (h.holding (.proc r)).held np ((h.holding _).wf.forking np true hforking)
      obtain rfl : p = r := Agent.proc.inj (Option.some.inj (hlock.symm.trans hlock'))
      rw [hown] at hforking
      cases hforking

/-- The rule for a step that fills or empties the free slot `np` and leaves it free. -/
theorem Inv.fill (h : Inv strict quiet s g) (hown : g (.proc p) = ⟨[np], none, .forking np false⟩)
    (hproc : s'.proc = (s.modify np f).proc) (hsame : Same s s') (hcpu : s'.cpuProc = s.cpuProc)
    (hlock : (f (s.proc np)).lock = (s.proc np).lock) (hheld : own.held = [np])
    (hwf : own.Wf (.proc p)) (hactive : own.phase.active = true)
    (hknows : ∀ state, (state.proc p).state = .RUNNING → (state.proc np).state = .UNUSED →
      Knows strict state p own) (hkills : ∀ alive, quiet alive → KillsOk alive s') :
    Inv strict quiet s' (update g (.proc p) own) := by
  have hp := h.knows p
  rw [hown] at hp
  have hunused := (hp.forking np false rfl).1
  have hne := hp.ne_forking
  refine h.write hown rfl hactive hheld hwf hproc hcpu hlock hsame mem_cons_self hkills ?_
    (forall_self ?_) nofun
  · intro _ hr
    rw [hunused] at hr
    cases hr
  · refine hknows s' ?_ ((hsame.mild np).unused.mpr hunused)
    rw [hproc, proc_modify_of_ne hne]
    exact hp.running rfl

theorem knows_forking (hrunning : (s.proc p).state = .RUNNING)
    (hunused : (s.proc np).state = .UNUSED)
    (hadopted : adopted = true → (s.proc np).parent = some p) :
    Knows strict s p ⟨held, none, .forking np adopted⟩ where
  running := fun _ => hrunning
  live := fun h => h.elim nofun nofun
  forking := by
    rintro np' adopted' ⟨⟩
    exact ⟨hunused, hadopted⟩
  exiting := nofun
  target := nofun
  remembered := nofun
  order := nofun

/-- `p->pid = allocpid()`. -/
theorem triple_allocpid : Moves strict quiet (.proc p) ⟨[np], none, .forking np false⟩
      (.perform (.allocpid np)) ⟨[np], none, .forking np false⟩ := by
  refine moves_proc ⟨false, rfl⟩ fun s g ok hinv hown hknows _ _ => ?_
  have hunused := (hknows.forking np false rfl).1
  have hmodify : Same s (s.modify np fun old => { old with pid := s.nextpid }) :=
    .modify (.of_unused hunused hunused) rfl
  refine hinv.fill hown (f := fun old => { old with pid := s.nextpid }) rfl { hmodify with } rfl rfl
    rfl (wf_forking (nodup_singleton np) (mem_singleton_self np) false) rfl
    (fun _ hrunning hfree => knows_forking hrunning hfree nofun) ?_
  intro alive hquiet
  refine (hinv.kills alive hquiet).calm { hmodify.toCalm with } ?_ rfl rfl rfl
  exact forall_modify (P := fun r new => new.killed = true → (s.proc r).killed = true)
    id fun _ _ h => h

theorem triple_freeproc : Moves strict quiet (.proc p) ⟨[np], none, .forking np false⟩
      (.perform (.freeproc np)) ⟨[np], none, .running⟩ := by
  refine moves_proc ⟨false, rfl⟩ fun s g ok hinv hown hknows _ _ => ?_
  have hunused := (hknows.forking np false rfl).1
  have hmodify : Same s (s.modify np freeproc) :=
    .modify (.of_unused hunused rfl) (hinv.parent_none hown).symm
  refine hinv.fill hown rfl hmodify rfl rfl rfl (wf_running (nodup_singleton np) none) rfl
    (fun _ hrunning _ => knows_running hrunning _) ?_
  exact fun alive hquiet => (hinv.kills alive hquiet).modify hmodify.toCalm nofun

/-- `np->parent = p`. -/
theorem triple_setParent : Moves strict quiet (.proc p) ⟨[np], none, .forking np false⟩
      (.perform (.setParent np)) ⟨[np], none, .forking np true⟩ := by
  refine moves_proc ⟨false, rfl⟩ fun s g ok hinv hown hknows hholding _ => ?_
  have hunused := (hknows.forking np false rfl).1
  have hne := hknows.ne_forking
  have hinit := hinv.forking_ne_init hunused
  have hcalm : Calm s (s.modify np fun old => { old with parent := some p }) :=
    .modify (.of_unused hunused hunused)
  refine hinv.change hown rfl rfl rfl mem_cons_self ⟨rfl, rfl⟩ rfl
    (wf_forking (nodup_singleton np) (mem_singleton_self np) true) nofun (fun _ h => h)
    (fun _ h => ⟨h, rfl⟩) (fun _ _ => rfl) (fun _ _ _ hused => absurd hunused hused)
    (fun r hr _ h => absurd (Option.some.inj h).symm hr) (fun _ _ => rfl) (fun _ _ _ => rfl)
    (fun r h => .inr ⟨(Option.some.inj h).symm, rfl⟩) ?_ ?_ (hinv.records.calm hcalm)
    fun alive hquiet => (hinv.kills alive hquiet).modify hcalm id
  · refine knows_forking ?_ ?_ fun _ => ?_
    · rw [proc_modify_of_ne hne]
      exact hknows.running rfl
    · rwa [proc_modify_self]
    · rw [proc_modify_self]
  · refine hinv.tree.calm hcalm ?_ fun q _ hused => ?_
    · rw [proc_modify_of_ne (Ne.symm hinit)]
      exact hinv.tree.initParent
    · have hq : q ≠ np := fun h => hused (h ▸ hunused)
      rw [proc_modify_of_ne hq]
      exact .inl rfl

/-- The tree after a write to one slot, by which no process loses its parent. -/
theorem TreeOk.change (h : TreeOk s) (hproc : s'.proc = (s.modify q f).proc) (hinit : q ≠ initproc)
    (hstamp : ∀ r, r ≠ q → s'.stamp r = s.stamp r) (hstamps : ∀ r, s'.stamp r < s'.nextStamp)
    (hself : (f (s.proc q)).state ≠ .UNUSED → ∃ r, r ≠ q ∧ (f (s.proc q)).parent = some r ∧
      (s.proc r).state.Live ∧ s.stamp r < s'.stamp q)
    (hchild : (s.proc q).state.Live → ∀ r, (s.proc r).parent ≠ some q) : TreeOk s' where
  init := by
    rw [hproc, proc_modify_of_ne (Ne.symm hinit)]
    exact h.init
  initParent := by
    rw [hproc, proc_modify_of_ne (Ne.symm hinit)]
    exact h.initParent
  initStamp := (hstamp _ (Ne.symm hinit)).trans h.initStamp
  tree := by
    have hlive : ∀ r, r ≠ q → (s.proc r).state.Live → (s'.proc r).state.Live := by
      intro r hr hlive
      rwa [hproc, proc_modify_of_ne hr]
    intro t ht hused
    by_cases htq : t = q
    · subst htq
      simp only [congrFun hproc t, proc_modify_self] at hused ⊢
      obtain ⟨r, hr, hparent, hrlive, hlt⟩ := hself hused
      exact ⟨r, hparent, hlive r hr hrlive, by rw [hstamp r hr]; exact hlt⟩
    · simp only [congrFun hproc t, proc_modify_of_ne htq] at hused ⊢
      obtain ⟨r, hparent, hrlive, hlt⟩ := h.tree t ht hused
      have hr : r ≠ q := by
        rintro rfl
        exact hchild hrlive t hparent
      exact ⟨r, hparent, hlive r hr hrlive, by rw [hstamp r hr, hstamp t htq]; exact hlt⟩
  stamps := hstamps

theorem TreeOk.setRunnable (h : TreeOk s) (hunused : (s.proc np).state = .UNUSED)
    (hparent : (s.proc np).parent = some p) (hlive : (s.proc p).state.Live) (hne : p ≠ np)
    (hinit : np ≠ initproc) : TreeOk (s.setRunnable np) := by
  refine h.change (f := fun old => { old with state := .RUNNABLE }) rfl hinit
    (fun r hr => update_of_ne hr _ _) ?_ (fun _ => ⟨p, hne, hparent, hlive, ?_⟩)
    fun hused => absurd hunused hused.1
  · show ∀ r, update s.stamp np s.nextStamp r < s.nextStamp + 1
    refine (forall_update_iff s.stamp fun _ stamp => stamp < s.nextStamp + 1).mpr ⟨by omega, ?_⟩
    exact fun r _ => Nat.lt_succ_of_lt (h.stamps r)
  · show s.stamp p < update s.stamp np s.nextStamp np
    rw [update_self]
    exact h.stamps p

theorem RecordsOk.setRunnable (h : RecordsOk s) (hstamps : ∀ q, s.stamp q < s.nextStamp)
    (hunused : (s.proc np).state = .UNUSED) : RecordsOk (s.setRunnable np) := by
  have hzombie : ∀ q, ((s.setRunnable np).proc q).state = .ZOMBIE ↔ (s.proc q).state = .ZOMBIE :=
    forall_modify (P := fun q new => new.state = .ZOMBIE ↔ (s.proc q).state = .ZOMBIE)
      (by simp [hunused]) fun _ _ => Iff.rfl
  have hother : ∀ q, q ≠ np → (s.setRunnable np).proc q = s.proc q ∧
      (s.setRunnable np).stamp q = s.stamp q := by
    intro q hq
    refine ⟨proc_modify_of_ne hq, ?_⟩
    simp only [State.setRunnable, stamp_modify, update_of_ne hq]
  have hself : (s.setRunnable np).stamp np = s.nextStamp := by
    simp only [State.setRunnable, stamp_modify, update_self]
  have hne : ∀ q, (s.proc q).state = .ZOMBIE → q ≠ np := by
    intro q hq hqnp
    rw [hqnp, hunused] at hq
    cases hq
  refine ⟨?_, ?_, ?_, ?_, ?_, h.waits, h.exitOnce, h.waitOnce⟩
  · intro q r hq hr hstamp
    by_cases hqnp : q = np
    · by_cases hrnp : r = np
      · rw [hqnp, hrnp]
      · -- the new process is younger than any other one
        have := hstamps r
        rw [hqnp, hself, (hother r hrnp).2] at hstamp
        omega
    · by_cases hrnp : r = np
      · have := hstamps q
        rw [hrnp, hself, (hother q hqnp).2] at hstamp
        omega
      · rw [(hother q hqnp).1] at hq
        rw [(hother r hrnp).1] at hr
        rw [(hother q hqnp).2, (hother r hrnp).2] at hstamp
        exact h.distinct q r hq hr hstamp
  · intro e he
    exact Nat.lt_succ_of_lt (h.fresh e he)
  · intro q hq e he
    by_cases hqnp : q = np
    · have := h.fresh e he
      rw [hqnp, hself]
      omega
    · rw [(hother q hqnp).1] at hq
      rw [(hother q hqnp).2]
      exact h.live q hq e he
  · intro q hq
    rw [hzombie] at hq
    rw [(hother q (hne q hq)).1, (hother q (hne q hq)).2]
    exact h.zombie q hq
  · intro e he
    rcases h.exits e he with ⟨q, hq, hstamp⟩ | hwait
    · refine .inl ⟨q, (hzombie q).mpr hq, ?_⟩
      rwa [(hother q (hne q hq)).2]
    · exact .inr hwait

theorem KillsOk.setRunnable (h : KillsOk alive s) (hunused : (s.proc np).state = .UNUSED) :
    KillsOk alive (s.setRunnable np) := by
  have hkilled : (s.proc np).killed = false := by
    by_contra hk
    exact (h.killed np (by simpa using hk)).1 hunused
  refine ⟨h.unused, ?_, ?_, h.hits⟩
  · simp only [State.setRunnable, namedAt_modify]
    refine forall_modify (P := fun q new => new.killed = true → new.state ≠ .UNUSED ∧
      ∃ state ∈ update s.namedAt np [] q, alive state = true) ?_ ?_
    · intro hk
      rw [hkilled] at hk
      cases hk
    · intro q hq hk
      rw [update_of_ne hq]
      exact h.killed q hk
  · exact forall_mem_cons.mpr ⟨hkilled, h.births⟩

/-- `np->state = RUNNABLE`: the new process is younger than all others. -/
theorem triple_setRunnable : Moves strict quiet (.proc p) ⟨[np], none, .forking np true⟩
      (.perform (.setRunnable np)) ⟨[np], none, .running⟩ := by
  refine moves_proc ⟨true, rfl⟩ fun s g ok hinv hown hknows hholding hguard => ?_
  obtain ⟨hunused, hparent⟩ := hknows.forking np true rfl
  have hne := hknows.ne_forking
  have hinit := hinv.forking_ne_init hunused
  have hlive := hknows.alive rfl
  refine hinv.change (q := np) (f := fun old => { old with state := .RUNNABLE }) hown rfl rfl rfl
    mem_cons_self ⟨rfl, rfl⟩ rfl (wf_running (nodup_singleton np) none) ?_ ?_
    (fun _ h => absurd hunused h.1) ?_ (fun _ _ _ hused => absurd hunused hused)
    (fun _ _ _ h => h) (fun _ _ => rfl) ?_ (fun _ _ => .inl (by simp)) ?_
    (hinv.tree.setRunnable hunused (hparent rfl) hlive hne hinit)
    (hinv.records.setRunnable hinv.tree.stamps hunused)
    fun alive hquiet => (hinv.kills alive hquiet).setRunnable hunused
  · exact fun t ht hforking => ht (Phase.forking.inj hforking).1.symm
  · intro _ h
    rw [hunused] at h
    cases h
  · intro t ht
    simp only [State.setRunnable, stamp_modify, update_of_ne ht]
  · intro hs r hremembered
    have hall := hguard.1 hs
    simp only [noReuse, all_eq_true, decide_eq_true_eq] at hall
    exact absurd hremembered (hall r (mem_finRange r))
  · refine knows_running ?_ _
    rw [State.setRunnable, proc_modify_of_ne hne]
    exact hknows.running rfl

/-! ### exit -/

/-- `struct proc *original_parent = p->parent`. -/
theorem triple_originalParent (hinit : p ≠ initproc) :
    Triple strict quiet (.proc p) ⟨[p], none, .running⟩ (.perform .originalParent)
      fun parent own' => own' = ⟨[p], none, .exiting parent slots⟩ := by
  refine triple_proc (show needs strict .originalParent _ from rfl)
    fun s g ok hinv hown hknows _ _ => ?_
  have hrunning := hknows.running rfl
  have hself : Holding s (.proc p) ⟨[p], none, .exiting (s.proc p).parent slots⟩ :=
    (hinv.holding (.proc p)).learn (by rw [hown]; rfl) rfl (by rw [hown])
      (wf_exiting (nodup_singleton p) none _ _)
  refine ⟨_, ?_, rfl⟩
  refine hinv.step { hself with } (fun b _ => { hinv.holding b with }) ?_ (forall_self ?_)
    { hinv.tree with } ?_ { hinv.records with } fun alive hquiet => { hinv.kills alive hquiet with }
  · intro r hr
    have hrp : r ≠ p := fun h => hr (congrArg Agent.proc h.symm)
    exact
      { running := id
        live := fun h => ⟨h, rfl⟩
        held := fun _ _ => ⟨rfl, rfl⟩
        child := fun _ h hused => ⟨h, hused, rfl⟩
        parent := fun _ _ h => h
        remembered := update_of_ne hrp _ _
        parentStamp := fun _ _ _ => rfl }
  · refine ⟨fun _ => hrunning, fun h => h.elim nofun nofun, nofun, ?_, nofun, ?_, nofun⟩
    · rintro parent left ⟨⟩
      exact ⟨hinit, fun q hq => absurd (mem_finRange q) hq⟩
    · intro _ parent left hphase
      obtain ⟨hparent, -⟩ := Phase.exiting.inj hphase
      have hused : (s.proc p).state ≠ .UNUSED := by
        rw [hrunning]
        decide
      obtain ⟨r, hr, -, hlt⟩ := hinv.tree.tree p hinit hused
      obtain rfl : r = parent := Option.some.inj (hr.symm.trans hparent)
      refine ⟨?_, hlt⟩
      rw [← hr]
      exact update_self _ _ _
  · intro q r hparent
    refine (hinv.adopted q r hparent).imp_right fun hforking => ?_
    have hrp : r ≠ p := by
      rintro rfl
      rw [hown] at hforking
      cases hforking
    rwa [update_of_ne fun he => hrp (Agent.proc.inj he)]

theorem Inv.child (h : Inv strict quiet s g) (hparent : (s.proc q).parent = some p)
    (hphase : (g (.proc p)).phase ≠ .forking q true) :
    (s.proc q).state ≠ .UNUSED ∧ s.stamp p < s.stamp q := by
  have hused := h.used_of_parent hparent hphase
  have hinit : q ≠ initproc := by
    intro hq
    rw [hq, h.tree.initParent] at hparent
    cases hparent
  obtain ⟨r, hr, -, hlt⟩ := h.tree.tree q hinit hused
  obtain rfl : r = p := Option.some.inj (hr.symm.trans hparent)
  exact ⟨hused, hlt⟩

/-- A process that has seen one of its children wants the child's lock, which comes after all
that it holds: the test is made without that lock, but only the parent changes the field. -/
theorem Inv.want (h : Inv strict quiet s g) (hown : g (.proc p) = own)
    (hactive : own.phase.active = true) (hphase : ∀ t, own.phase ≠ .forking t true)
    (hmine : (s.proc q).parent = some p) (hheld : strict → ∀ r ∈ own.held, s.stamp r ≤ s.stamp p) :
    Inv strict quiet s (update g (.proc p) ⟨own.held, some q, own.phase⟩) ∧
      (strict → q ∉ own.held) := by
  subst hown
  have hknows := h.knows p
  have hchild := h.child hmine (hphase q)
  have horder : strict → ∀ r ∈ (g (.proc p)).held, s.stamp r < s.stamp q :=
    fun hs r hr => (hheld hs r hr).trans_lt hchild.2
  refine ⟨?_, fun hs hq => lt_irrefl _ (horder hs q hq)⟩
  refine h.learn rfl hactive hactive rfl { (h.holding (.proc p)).wf with cpu := nofun }
    (forall_self ?_) fun _ ht => ht
  refine { hknows with
    target := ?_
    order := ?_ }
  · rintro r ⟨⟩
    exact .inr ⟨hmine, hchild.1⟩
  · intro hs r hr _
    cases hr
    exact horder hs

variable {left : List Slot}

/-- The test `pp->parent == p` of `reparent`. -/
theorem triple_parentIsMe_exit {parent : Slot} : Triple strict quiet (.proc p)
      ⟨[p, parent], none, .exiting (some parent) (q :: left)⟩ (.perform (.parentIsMe q))
      fun mine own' =>
        mine = true ∧ own' = ⟨[p, parent], some q, .exiting (some parent) (q :: left)⟩ ∧
            (strict → q ∉ [p, parent]) ∨
          mine = false ∧ own' = ⟨[p, parent], none, .exiting (some parent) left⟩ := by
  refine triple_proc trivial fun s g ok hinv hown hknows hholding _ => ?_
  by_cases hmine : (s.proc q).parent = some p
  · have hwant := hinv.want hown rfl nofun hmine ?_
    · exact ⟨_, hwant.1, .inl ⟨by simpa using hmine, rfl, hwant.2⟩⟩
    · intro hs r hr
      have hparent := (hknows.remembered hs parent (q :: left) rfl).2
      rcases mem_cons.mp hr with rfl | hlast
      · rfl
      · rw [mem_singleton.mp hlast]
        exact hparent.le
  · refine ⟨_, ?_, .inr ⟨by simpa using hmine, rfl⟩⟩
    refine hinv.learn hown rfl rfl rfl (wf_exiting hholding.wf.nodup _ _ _) (forall_self ?_) nofun
    refine { hknows with
      running := fun _ => hknows.running rfl
      live := fun h => h.elim nofun nofun
      forking := nofun
      exiting := ?_
      remembered := ?_ }
    · rintro parent' left' ⟨⟩
      obtain ⟨hinit, hleft⟩ := hknows.exiting _ _ rfl
      refine ⟨hinit, fun r hr => ?_⟩
      by_cases hrq : r = q
      · rwa [hrq]
      · exact hleft r (by simp [hrq, hr])
    · intro hs parent' left' hphase
      obtain ⟨hparent, -⟩ := Phase.exiting.inj hphase
      exact hknows.remembered hs parent' (q :: left) (by rw [hparent])

variable {parent : Option Slot}

/-- `pp->parent = initproc`. -/
theorem triple_giveToInit (hp : p ∈ held) :
    Moves strict quiet (.proc p) ⟨q :: held, some q, .exiting parent (q :: left)⟩
      (.perform (.giveToInit q)) ⟨q :: held, none, .exiting parent left⟩ := by
  refine moves_proc mem_cons_self fun s g ok hinv hown hknows hholding _ => ?_
  obtain ⟨hinit, hleft⟩ := hknows.exiting _ _ rfl
  have hnodup := hholding.wf.nodup
  have hqp : q ≠ p := by
    intro h
    exact (nodup_cons.mp hnodup).1 (h ▸ hp)
  obtain ⟨hmine, hused⟩ : (s.proc q).parent = some p ∧ (s.proc q).state ≠ .UNUSED :=
    (hknows.target q rfl).resolve_left fun h => hqp h.1
  have hcalm : Calm s (s.modify q fun old => { old with parent := some initproc }) :=
    .modify (.of_eq rfl rfl rfl)
  refine hinv.change hown rfl rfl rfl mem_cons_self ⟨rfl, rfl⟩ rfl (wf_exiting hnodup none _ _)
    nofun (fun _ h => h) (fun _ h => ⟨h, rfl⟩) (fun _ _ => rfl)
    (fun r hr h _ => absurd (Option.some.inj (h.symm.trans hmine)) hr)
    (fun r _ hr h => absurd (Option.some.inj h).symm hr) (fun _ _ => rfl) (fun _ _ _ => rfl)
    (fun _ _ => .inl hused) ?_ ?_ (hinv.records.calm hcalm)
    fun alive hquiet => (hinv.kills alive hquiet).modify hcalm id
  · refine ⟨fun _ => ?_, fun h => h.elim nofun nofun, nofun, ?_, nofun, ?_, nofun⟩
    · rw [proc_modify_of_ne (Ne.symm hqp)]
      exact hknows.running rfl
    · rintro parent' left' ⟨⟩
      refine ⟨hinit, ?_⟩
      refine forall_modify (P := fun r new => r ∉ left → new.parent ≠ some p) ?_ ?_
      · exact fun _ h => hinit (Option.some.inj h).symm
      · exact fun r hr hnot => hleft r (by simp [hr, hnot])
    · intro hs parent' left' hphase
      obtain ⟨hparent, -⟩ := Phase.exiting.inj hphase
      exact hknows.remembered hs parent' (q :: left) (by rw [hparent])
  · have hqinit : q ≠ initproc := by
      intro h
      rw [h, hinv.tree.initParent] at hmine
      cases hmine
    refine hinv.tree.calm hcalm ?_ fun r _ _ => ?_
    · rw [proc_modify_of_ne (Ne.symm hqinit)]
      exact hinv.tree.initParent
    · exact forall_modify (P := fun r new => new.parent = (s.proc r).parent ∨
        new.parent = some initproc) (.inr rfl) (fun _ _ => .inl rfl) r

theorem TreeOk.setZombie (h : TreeOk s) (status : BitVec 32) (hlive : (s.proc p).state.Live)
    (hinit : p ≠ initproc) (hchildless : ∀ q, (s.proc q).parent ≠ some p) :
    TreeOk (s.setZombie p status) := by
  refine h.change (f := fun old => { old with xstate := status, state := .ZOMBIE }) rfl hinit
    (fun _ _ => rfl) h.stamps (fun _ => ?_) fun _ => hchildless
  obtain ⟨r, hparent, hrlive, hlt⟩ := h.tree p hinit hlive.1
  refine ⟨r, ?_, hparent, hrlive, hlt⟩
  rintro rfl
  exact hchildless r hparent

theorem RecordsOk.setZombie (h : RecordsOk s) (hstamps : ∀ q, s.stamp q < s.nextStamp)
    (status : BitVec 32) (hlive : (s.proc p).state.Live) : RecordsOk (s.setZombie p status) := by
  have hself : (s.setZombie p status).proc p =
      { s.proc p with xstate := status, state := .ZOMBIE } := proc_modify_self
  have hother : ∀ q, q ≠ p → (s.setZombie p status).proc q = s.proc q :=
    fun q hq => proc_modify_of_ne hq
  have hused : ∀ q, ((s.setZombie p status).proc q).state ≠ .UNUSED → (s.proc q).state ≠ .UNUSED :=
    forall_modify (P := fun q new => new.state ≠ .UNUSED → (s.proc q).state ≠ .UNUSED)
      (fun _ => hlive.1) fun _ _ h => h
  refine ⟨?_, ?_, ?_, ?_, ?_, ?_, ?_, h.waitOnce⟩
  · exact fun q r hq hr => h.distinct q r (hused q hq) (hused r hr)
  · exact forall_mem_cons.mpr ⟨hstamps p, h.fresh⟩
  · intro q hq e he
    have hqp : q ≠ p := by
      intro h
      rw [h, hself] at hq
      exact hq.2 rfl
    rw [hother q hqp] at hq
    rcases mem_cons.mp he with rfl | hold
    · exact fun hstamp => hqp (h.distinct p q hlive.1 hq.1 hstamp).symm
    · exact h.live q hq e hold
  · intro q hq
    by_cases hqp : q = p
    · subst hqp
      rw [hself]
      refine ⟨mem_cons_self, fun w hw hstamp => ?_⟩
      -- a wait for a process that is still alive would have an exit record
      obtain ⟨-, e, he, hchild, -⟩ := h.waits w hw
      exact h.live q hlive e he (hchild.trans hstamp)
    · rw [hother q hqp] at hq ⊢
      obtain ⟨hrecord, hwaits⟩ := h.zombie q hq
      exact ⟨mem_cons_of_mem _ hrecord, hwaits⟩
  · intro e he
    rcases mem_cons.mp he with rfl | hold
    · exact .inl ⟨p, by rw [hself], rfl⟩
    · rcases h.exits e hold with ⟨q, hq, hstamp⟩ | hwait
      · have hqp : q ≠ p := by
          intro h
          rw [h] at hq
          exact hlive.2 hq
        exact .inl ⟨q, by rw [hother q hqp]; exact hq, hstamp⟩
      · exact .inr hwait
  · intro w hw
    obtain ⟨hparent, e, he, hrest⟩ := h.waits w hw
    exact ⟨hparent, e, mem_cons_of_mem _ he, hrest⟩
  · refine nodup_cons.mpr ⟨?_, h.exitOnce⟩
    intro hmem
    obtain ⟨e, he, hstamp⟩ := mem_map.mp hmem
    exact h.live p hlive e he hstamp

theorem KillsOk.setZombie (h : KillsOk alive s) (status : BitVec 32) :
    KillsOk alive (s.setZombie p status) where
  unused := h.unused
  killed := forall_modify (P := fun q new => new.killed = true → new.state ≠ .UNUSED ∧
      ∃ state ∈ s.namedAt q, alive state = true) (fun hk => ⟨by simp, (h.killed p hk).2⟩)
        fun q _ hk => h.killed q hk
  births := h.births
  hits := h.hits

/-- `p->state = ZOMBIE`, when all children have been given to init. -/
theorem triple_setZombie {status : BitVec 32} (hp : p ∈ held) :
    Moves strict quiet (.proc p) ⟨held, none, .exiting parent []⟩
      (.perform (.setZombie status)) ⟨held, none, .exited⟩ := by
  refine moves_proc trivial fun s g ok hinv hown hknows hholding _ => ?_
  obtain ⟨hinit, hleft⟩ := hknows.exiting _ _ rfl
  have hlive := hknows.alive rfl
  have hwf : Own.Wf (.proc p) ⟨held, none, .exited⟩ := by
    refine ⟨hholding.wf.nodup, nofun, nofun, nofun, ?_, fun _ _ => ⟨nofun, nofun⟩, nofun⟩
    intro r hr _
    rwa [← Agent.proc.inj hr]
  exact hinv.change (q := p) (f := fun old =>
    { old with xstate := status, state := .ZOMBIE }) hown rfl
    rfl rfl hp ⟨rfl, rfl⟩ rfl hwf nofun (fun h => absurd rfl h) (fun h => absurd rfl h)
    (fun _ _ => rfl) (fun _ _ h _ => ⟨h, by simp, rfl⟩) (fun _ _ _ h => h)
    (fun _ hr => update_of_ne hr _ _) (fun _ _ _ => rfl) (fun _ _ => .inl (by simp))
    ⟨nofun, fun h => h.elim nofun nofun, nofun, nofun, nofun, nofun, nofun⟩
    (hinv.tree.setZombie status hlive hinit fun q => hleft q (by simp))
    (hinv.records.setZombie hinv.tree.stamps status hlive)
    fun alive hquiet => (hinv.kills alive hquiet).setZombie status

/-! ### wait -/

/-- The test `np->parent == p` of `wait`. -/
theorem triple_parentIsMe_wait :
    Triple strict quiet (.proc p) ⟨[p], none, .running⟩ (.perform (.parentIsMe q)) fun mine own' =>
        mine = true ∧ own' = ⟨[p], some q, .running⟩ ∧ (strict → q ∉ [p]) ∨
          mine = false ∧ own' = ⟨[p], none, .running⟩ := by
  refine .perform rfl trivial ?_
  intro s g ok hinv hown _
  by_cases hmine : (s.proc q).parent = some p
  · have hwant := hinv.want hown rfl nofun hmine ?_
    · exact ⟨_, hwant.1, .inl ⟨by simpa using hmine, rfl, hwant.2⟩⟩
    · intro _ r hr
      rw [mem_singleton.mp hr]
  · exact ⟨_, hinv.same_own hown, .inr ⟨by simpa using hmine, rfl⟩⟩

theorem TreeOk.collect (h : TreeOk s) (caller : Slot) (addr : Nat)
    (hzombie : (s.proc q).state = .ZOMBIE) : TreeOk (s.collect caller q addr) := by
  refine h.change rfl ?_ (fun _ _ => rfl) h.stamps (fun hused => absurd rfl hused)
    fun hlive => absurd hzombie hlive.2
  rintro rfl
  exact h.init.2 hzombie

theorem RecordsOk.collect (h : RecordsOk s) (addr : Nat) (hzombie : (s.proc q).state = .ZOMBIE)
    (hparent : (s.proc q).parent = some p) : RecordsOk (s.collect p q addr) := by
  have hused : (s.proc q).state ≠ .UNUSED := by
    rw [hzombie]
    decide
  have hself : ((s.collect p q addr).proc q).state = .UNUSED := by
    rw [State.collect, proc_modify_self]
    rfl
  have hother : ∀ r, r ≠ q → (s.collect p q addr).proc r = s.proc r :=
    fun r hr => proc_modify_of_ne hr
  have hne : ∀ r, ((s.collect p q addr).proc r).state ≠ .UNUSED → r ≠ q := by
    intro r hr hrq
    rw [hrq] at hr
    exact hr hself
  obtain ⟨hrecord, hwaits⟩ := h.zombie q hzombie
  refine ⟨?_, h.fresh, ?_, ?_, ?_, ?_, h.exitOnce, ?_⟩
  · intro r t hr ht
    have hrq := hne r hr
    have htq := hne t ht
    rw [hother r hrq] at hr
    rw [hother t htq] at ht
    exact h.distinct r t hr ht
  · intro r hr
    have hrq := hne r hr.1
    rw [hother r hrq] at hr
    exact h.live r hr
  · intro r hr
    have hrq : r ≠ q := hne r (by rw [hr]; decide)
    rw [hother r hrq] at hr ⊢
    obtain ⟨hrec, hold⟩ := h.zombie r hr
    refine ⟨hrec, fun w hw => ?_⟩
    rcases mem_cons.mp hw with rfl | hmem
    · exact fun hstamp => hrq (h.distinct q r hused (by rw [hr]; decide) hstamp).symm
    · exact hold w hmem
  · intro e he
    rcases h.exits e he with ⟨r, hr, hstamp⟩ | ⟨w, hw, hchild⟩
    · by_cases hrq : r = q
      · refine .inr ⟨_, mem_cons_self, ?_⟩
        rw [← hstamp, hrq]
      · exact .inl ⟨r, by rw [hother r hrq]; exact hr, hstamp⟩
    · exact .inr ⟨w, mem_cons_of_mem _ hw, hchild⟩
  · intro w hw
    rcases mem_cons.mp hw with rfl | hmem
    · refine ⟨hparent, _, hrecord, rfl, rfl, ?_⟩
      intro status hstatus
      by_cases haddr : addr = 0
      · simp [haddr] at hstatus
      · simpa [haddr] using hstatus.symm
    · exact h.waits w hmem
  · refine nodup_cons.mpr ⟨?_, h.waitOnce⟩
    intro hmem
    obtain ⟨w, hw, hchild⟩ := mem_map.mp hmem
    exact hwaits w hw hchild

theorem KillsOk.collect (h : KillsOk alive s) (caller : Slot) (addr : Nat) :
    KillsOk alive (s.collect caller q addr) where
  unused := h.unused
  killed := by
    simp only [State.collect, namedAt_modify]
    refine forall_modify (P := fun r new => new.killed = true → new.state ≠ .UNUSED ∧
      ∃ state ∈ update s.namedAt q [] r, alive state = true) nofun ?_
    intro r hr hk
    rw [update_of_ne hr]
    exact h.killed r hk
  births := h.births
  hits := h.hits

theorem triple_collect {addr : Nat} : Moves strict quiet (.proc p) ⟨[q, p], some q, .running⟩
      (.perform (.collect q addr)) ⟨[q, p], none, .running⟩ := by
  refine moves_proc mem_cons_self fun s g ok hinv hown hknows hholding _ => ?_
  have hnodup := hholding.wf.nodup
  have hqp : q ≠ p := by
    intro h
    rw [h] at hnodup
    simp at hnodup
  obtain ⟨hmine, hused⟩ : (s.proc q).parent = some p ∧ (s.proc q).state ≠ .UNUSED :=
    (hknows.target q rfl).resolve_left fun h => hqp h.1
  have hlearn : Inv strict quiet s (update g (.proc p) ⟨[q, p], none, .running⟩) :=
    hinv.learn hown rfl rfl rfl (wf_running hnodup none)
      (forall_self (knows_running (hknows.running rfl) _)) (by simp)
  simp only [exec, execProc]
  split
  next hzombie =>
    split
    · exact hlearn
    · refine hinv.change hown rfl rfl rfl mem_cons_self ⟨rfl, rfl⟩ rfl
        (wf_running hnodup none) (by simp) ?_ (fun _ h => absurd hzombie h.2) (fun _ _ => rfl)
        (fun r hr h _ => absurd (Option.some.inj (h.symm.trans hmine)) hr) (by simp [freeproc])
          (fun _ _ => rfl)
        (fun _ _ _ => rfl) (by simp [freeproc]) ?_ (hinv.tree.collect p addr hzombie)
        (hinv.records.collect addr hzombie hmine)
        fun alive hquiet => (hinv.kills alive hquiet).collect p addr
      · exact fun _ h => absurd (hzombie.symm.trans h) (by decide)
      · refine knows_running ?_ _
        rw [State.collect, proc_modify_of_ne (Ne.symm hqp)]
        exact hknows.running rfl
  next => exact hlearn

end Xv6.ProcTable
