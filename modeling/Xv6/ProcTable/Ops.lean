import Xv6.ProcTable.Locks

/-!
# Reading the table, sleeping, waking and killing keep the invariant

One rule for each operation that creates, moves and frees no process. Most of them only read, or
change a slot whose lock is held in a way that the others do not notice.
-/

namespace Xv6.ProcTable

open Interleave Function List

variable {strict : Prop} {quiet : (ProcState → Bool) → Prop} {alive : ProcState → Bool}
  {s s' : State} {g : Agent → Own} {p q : Slot} {a b : Agent} {own next : Own} {f : Proc → Proc}

/-! ### Learning and writing -/

section

variable (h : Inv strict quiet s g) (hown : g a = own) (hactive : own.phase.active = true)
  (hactive' : next.phase.active = true) (hheld : next.held = own.held) (hwf : next.Wf a)

section

include hactive hactive' hheld hwf

theorem Holding.learn (h : Holding s a own) : Holding s a next := by
  refine .of_mem_iff hwf hactive' (fun r => ?_) (h.not_lent hactive)
  rw [hheld]
  exact h.mem_iff hactive

include h hown

theorem Inv.learn (hknows : ∀ p, a = .proc p → Knows strict s p next)
    (hphase : ∀ q, own.phase = .forking q true → next.phase = .forking q true) :
    Inv strict quiet s (update g a next) := by
  subst hown
  exact h.step_same (.refl s) ((h.holding a).learn hactive hactive' hheld hwf)
    (fun b _ => h.holding b) (fun _ _ _ _ => rfl) (fun _ _ hr => hr) hknows hphase h.kills

end

include h hown

theorem Inv.same_own : Inv strict quiet s (update g a own) := by
  rwa [← hown, update_eq_self]

variable (hproc : s'.proc = (s.modify q f).proc) (hcpu : s'.cpuProc = s.cpuProc)
  (hlock : (f (s.proc q)).lock = (s.proc q).lock) (hsame : Same s s') (hq : q ∈ own.held)
  (hkills : ∀ alive, quiet alive → KillsOk alive s')
include hproc hcpu hlock

include hq in
/-- Writing to a slot whose lock is held does not touch the locks. -/
theorem Inv.holding_write (b : Agent) (hb : b ≠ a) : Holding s' b (g b) := by
  subst hown
  have hnot := ne_some_of_ne (.inr ((h.holding a).held q hq)) hb
  refine h.holding_modify hproc (fun c _ => congrFun hcpu c) hnot ?_
  rwa [hlock]

section

include hactive hactive' hheld hwf

theorem Inv.holding_writer : Holding s' a next := by
  subst hown
  refine .of_mem_iff hwf hactive' ?_ ?_
  · rw [hproc, hheld]
    refine forall_modify (P := fun r new => r ∈ (g a).held ↔ new.lock = some a) ?_ ?_
    · rw [hlock]
      exact (h.holding a).mem_iff hactive
    · exact fun r _ => (h.holding a).mem_iff hactive
  · rw [hcpu]
    exact (h.holding a).not_lent hactive

include hsame hq hkills

theorem Inv.write
    (hrunning : a ≠ .proc q → (s.proc q).state = .RUNNING → (f (s.proc q)).state = .RUNNING)
    (hknows : ∀ p, a = .proc p → Knows strict s' p next)
    (hphase : ∀ q, own.phase = .forking q true → next.phase = .forking q true) :
    Inv strict quiet s' (update g a next) := by
  refine h.step_same hsame (h.holding_writer hown hactive hactive' hheld hwf hproc hcpu hlock)
    (h.holding_write hown hproc hcpu hlock hq) ?_ ?_ hknows (hown ▸ hphase) hkills
  · intro r hr t ht
    have hne : t ≠ q := by
      rintro rfl
      exact ne_some_of_ne (.inr ((h.holding a).held t (hown ▸ hq))) (Ne.symm hr) ht
    rw [hproc, proc_modify_of_ne hne]
  · intro r hr
    rw [hproc]
    exact forall_modify (P := fun r new => a ≠ .proc r → (s.proc r).state = .RUNNING →
      new.state = .RUNNING) hrunning (fun _ _ _ h => h) r hr

end

include hactive hsame hq hkills

/-- A write after which the agent knows what it knew before. -/
theorem Inv.poke (hrunning : (s.proc q).state = .RUNNING → (f (s.proc q)).state = .RUNNING) :
    Inv strict quiet s' (update g a own) := by
  refine h.write hown hactive hactive rfl (hown ▸ (h.holding a).wf) hproc hcpu hlock hsame hq hkills
    (fun _ => hrunning) ?_ fun _ hr => hr
  intro r hr
  subst hown hr
  refine (h.knows r).same hsame ?_
  rw [hproc]
  exact forall_modify (P := fun r new => (s.proc r).state = .RUNNING → new.state = .RUNNING)
    hrunning (fun _ _ hr => hr) r

end

/-! ### Operations that only read -/

theorem triple_panic {message : String} {post : Unit → Own → Prop} :
    Triple strict quiet (.proc p) own (.perform (.panic message)) post := by
  refine .perform rfl trivial ?_
  intro s g ok _ _ _
  trivial

/-- An operation that changes nothing and of whose result nothing is remembered. -/
theorem triple_read {o : Op} (hneeds : needs strict o own)
    (hread : ∀ ok s, (∃ result, exec a ok o s = .done result s) ∨
      ∃ message, exec a ok o s = .panic message) :
    Moves strict quiet a own (.perform o) own := by
  refine .perform rfl hneeds ?_
  intro s g ok hinv hown _
  simp only [machine]
  rcases hread ok s with ⟨result, hexec⟩ | ⟨message, hexec⟩
  · rw [hexec]
    exact hinv.same_own hown
  · rw [hexec]
    trivial

theorem triple_uvmcreate : Moves strict quiet a own (.perform .uvmcreate) own := by
  refine triple_read trivial fun ok s => ?_
  cases ok with
  | true => exact .inl ⟨(), rfl⟩
  | false => exact .inr ⟨_, rfl⟩

theorem triple_uvmcopy : Moves strict quiet a own (.perform .uvmcopy) own :=
  triple_read trivial fun ok _ => .inl ⟨ok, rfl⟩

theorem triple_isKilled : Moves strict quiet (.proc p) own (.perform .isKilled) own :=
  triple_read trivial fun _ _ => .inl ⟨_, rfl⟩

theorem triple_isInit : Triple strict quiet (.proc p) own (.perform .isInit) fun isInit own' =>
      own' = own ∧ (isInit = false → p ≠ initproc) := by
  refine .perform rfl trivial ?_
  intro s g ok hinv hown _
  exact ⟨own, hinv.same_own hown, rfl, fun h => by simpa using h⟩

variable {held : List Slot}

/-- What a process that fills a free slot may do with what it knows. -/
theorem wf_forking (hnodup : held.Nodup) {np : Slot} (hnp : np ∈ held)
    (adopted : Bool) : Own.Wf (.proc p) ⟨held, none, .forking np adopted⟩ where
  nodup := hnodup
  away := nofun
  lent := nofun
  forking := by
    rintro np' adopted' ⟨⟩
    exact hnp
  parked := fun _ _ h => h.elim nofun nofun
  proc := fun _ _ => ⟨nofun, nofun⟩
  cpu := nofun

theorem wf_running (hnodup : held.Nodup) (target : Option Slot) :
    Own.Wf (.proc p) ⟨held, target, .running⟩ where
  nodup := hnodup
  away := nofun
  lent := nofun
  forking := nofun
  parked := fun _ _ h => h.elim nofun nofun
  proc := fun _ _ => ⟨nofun, nofun⟩
  cpu := nofun

theorem wf_exiting (hnodup : held.Nodup) (target parent : Option Slot)
    (left : List Slot) : Own.Wf (.proc p) ⟨held, target, .exiting parent left⟩ where
  nodup := hnodup
  away := nofun
  lent := nofun
  forking := nofun
  parked := fun _ _ h => h.elim nofun nofun
  proc := fun _ _ => ⟨nofun, nofun⟩
  cpu := nofun

theorem knows_running (hrunning : (s.proc p).state = .RUNNING) (held : List Slot) :
    Knows strict s p ⟨held, none, .running⟩ where
  running := fun _ => hrunning
  live := fun h => h.elim nofun nofun
  forking := nofun
  exiting := nofun
  target := nofun
  remembered := nofun
  order := nofun

/-- The test of `allocproc`: a free slot whose lock is held stays free. -/
theorem triple_isUnused :
    Triple strict quiet (.proc p) ⟨[q], none, .running⟩ (.perform (.isUnused q)) fun unused own' =>
        own' = ⟨[q], none, if unused = true then .forking q false else .running⟩ := by
  refine triple_proc trivial fun s g ok hinv hown hknows _ _ => ⟨_, ?_, rfl⟩
  by_cases hunused : (s.proc q).state = .UNUSED
  · simp only [hunused, decide_true, if_pos]
    refine hinv.learn hown rfl rfl rfl
      (wf_forking (nodup_singleton q) (mem_singleton_self q) false) (forall_self ?_) nofun
    refine { hknows with
      forking := ?_
      remembered := nofun
      exiting := nofun
      live := fun h => h.elim nofun nofun }
    rintro np adopted ⟨⟩
    exact ⟨hunused, nofun⟩
  · simp only [hunused, decide_false, if_neg (Bool.false_ne_true)]
    exact hinv.same_own hown

/-- `kalloc` in `allocproc`: if it fails, the slot is given up. -/
theorem triple_kalloc :
    Triple strict quiet (.proc p) ⟨held, none, .forking q false⟩ (.perform .kalloc) fun tf own' =>
        own' = ⟨held, none, if tf = true then .forking q false else .running⟩ := by
  refine triple_proc trivial fun s g ok hinv hown hknows hholding _ => ⟨_, ?_, rfl⟩
  cases ok with
  | true => exact hinv.same_own hown
  | false =>
    exact hinv.learn hown rfl rfl rfl (wf_running hholding.wf.nodup none)
      (forall_self (knows_running (hknows.running rfl) held)) nofun

/-! ### Sleeping and waking -/

theorem wake_state (old : ProcState) : (if old = .SLEEPING then ProcState.RUNNABLE else old) = old ∨
      old = .SLEEPING ∧ (if old = .SLEEPING then ProcState.RUNNABLE else old) = .RUNNABLE := by
  by_cases h : old = .SLEEPING
  · exact .inr ⟨h, if_pos h⟩
  · exact .inl (if_neg h)

/-- A slot that is only woken: its lock, parent, pid and flags do not change. -/
def Wakes (old new : Proc) : Prop :=
  new = old ∨ old.state = .SLEEPING ∧ new = { old with state := .RUNNABLE }

theorem Wakes.mild {old new : Proc} (h : Wakes old new) : Mild old new := by
  rcases h with rfl | ⟨hsleeping, rfl⟩
  · exact .refl _
  · refine .of_live ?_ ProcState.live_runnable
    rw [hsleeping]
    exact ProcState.live_sleeping

theorem wakes_wakeup1 (q : Slot) (old : Proc) : Wakes old (wakeup1 q old) := by
  unfold wakeup1
  split
  next h => exact .inr ⟨h.2, rfl⟩
  next => exact .inl rfl

theorem wakes_wakeupOn (chan : Chan) (old : Proc) : Wakes old (wakeupOn chan old) := by
  unfold wakeupOn
  split
  next h => exact .inr ⟨h.1, rfl⟩
  next => exact .inl rfl

theorem Inv.wake (h : Inv strict quiet s g) (hown : g a = own) (hactive : own.phase.active = true)
    (hq : q ∈ own.held) (hwakes : Wakes (s.proc q) (f (s.proc q))) :
    Inv strict quiet (s.modify q f) (update g a own) := by
  have hfields : (f (s.proc q)).lock = (s.proc q).lock ∧ (f (s.proc q)).parent = (s.proc q).parent ∧
      (f (s.proc q)).killed = (s.proc q).killed := by
    rcases hwakes with hsame | ⟨-, hnew⟩
    · rw [hsame]
      exact ⟨rfl, rfl, rfl⟩
    · rw [hnew]
      exact ⟨rfl, rfl, rfl⟩
  have hrunning : (s.proc q).state = .RUNNING → (f (s.proc q)).state = .RUNNING := by
    intro hr
    rcases hwakes with hsame | ⟨hsleeping, -⟩
    · rwa [hsame]
    · simpa using hsleeping.symm.trans hr
  have hsame : Same s (s.modify q f) := .modify hwakes.mild hfields.2.1
  refine h.poke hown hactive rfl rfl hfields.1 hsame hq (fun alive hquiet => ?_) hrunning
  exact (h.kills alive hquiet).modify hsame.toCalm fun hk => hfields.2.2 ▸ hk

theorem triple_wakeup1 (hactive : own.phase.active = true) (hq : q ∈ own.held) :
    Moves strict quiet a own (.perform (.wakeup1 q)) own := by
  refine .perform rfl trivial ?_
  intro s g ok hinv hown _
  simp only [machine, exec]
  split
  · exact hinv.wake hown hactive hq (wakes_wakeup1 q _)
  · trivial

theorem triple_wakeup {chan : Chan} (hactive : own.phase.active = true) (hq : q ∈ own.held) :
    Moves strict quiet a own (.perform (.wakeup q chan)) own := by
  refine .perform rfl hq ?_
  intro s g ok hinv hown _
  exact hinv.wake hown hactive hq (wakes_wakeupOn chan _)

/-- A process that holds its own lock changes its state before it switches to a scheduler. -/
theorem Inv.park (h : Inv strict quiet s g) (hown : g (.proc p) = ⟨[p], none, .running⟩)
    (hlock : (f (s.proc p)).lock = (s.proc p).lock)
    (hparent : (f (s.proc p)).parent = (s.proc p).parent)
    (hkilled : (f (s.proc p)).killed = (s.proc p).killed) (hlive : (f (s.proc p)).state.Live) :
    Inv strict quiet (s.modify p f) (update g (.proc p) ⟨[p], none, .parking⟩) := by
  have hknows := h.knows p
  rw [hown] at hknows
  have hold := hknows.alive rfl
  have hsame : Same s (s.modify p f) := .modify (.of_live hold hlive) hparent
  refine h.write hown rfl rfl rfl ?_ rfl rfl hlock hsame mem_cons_self (fun alive hquiet => ?_)
    (fun hne => absurd rfl hne) (forall_self ?_) nofun
  · refine ⟨nodup_singleton p, nofun, nofun, nofun, ?_, fun _ _ => ⟨nofun, nofun⟩, nofun⟩
    intro r hr _
    rw [Agent.proc.inj hr]
    exact mem_singleton_self r
  · exact (h.kills alive hquiet).modify hsame.toCalm fun hk => hkilled ▸ hk
  · refine ⟨nofun, fun _ => ?_, nofun, nofun, nofun, nofun, nofun⟩
    rwa [proc_modify_self]

theorem triple_setSleeping {chan : Chan} :
    Moves strict quiet (.proc p) ⟨[p], none, .running⟩ (.perform (.setSleeping chan))
      ⟨[p], none, .parking⟩ := by
  refine .perform rfl trivial ?_
  intro s g ok hinv hown _
  exact hinv.park hown rfl rfl rfl ProcState.live_sleeping

theorem triple_giveUp : Moves strict quiet (.proc p) ⟨[p], none, .running⟩ (.perform .giveUp)
      ⟨[p], none, .parking⟩ := by
  refine .perform rfl trivial ?_
  intro s g ok hinv hown _
  exact hinv.park hown rfl rfl rfl ProcState.live_runnable

/-- `p->chan = 0` at the end of `sleep`. -/
theorem triple_clearChan (hactive : own.phase.active = true) (hp : p ∈ own.held) :
    Moves strict quiet (.proc p) own (.perform .clearChan) own := by
  refine .perform rfl trivial ?_
  intro s g ok hinv hown _
  have hsame : Same s (s.modify p fun proc => { proc with chan := none }) :=
    .modify (.of_eq rfl rfl rfl) rfl
  refine hinv.poke hown hactive rfl rfl rfl hsame hp (fun alive hquiet => ?_) id
  exact (hinv.kills alive hquiet).modify hsame.toCalm id

/-! ### Kill -/

/-- `kill` keeps the flags in order if the process it finds is alive. -/
theorem KillsOk.kill (h : KillsOk alive s) (halive : alive (s.proc q).state = true) :
    KillsOk alive (s.kill q) where
  unused := h.unused
  killed := by
    have hused : (s.proc q).state ≠ .UNUSED := by
      intro hunused
      rw [hunused, h.unused] at halive
      cases halive
    simp only [State.kill, namedAt_modify]
    refine forall_modify (P := fun r new => new.killed = true → new.state ≠ .UNUSED ∧
      ∃ state ∈ update s.namedAt q ((s.proc q).state :: s.namedAt q) r, alive state = true) ?_ ?_
    · intro _
      refine ⟨?_, (s.proc q).state, by simp, halive⟩
      rcases wake_state (s.proc q).state with hsame | ⟨-, hnew⟩
      · simp only [killProc, hsame]
        exact hused
      · simp only [killProc, hnew]
        decide
    · intro r hr hk
      rw [update_of_ne hr]
      exact h.killed r hk
  births := h.births
  hits := forall_mem_cons.mpr ⟨halive, h.hits⟩

theorem triple_kill {pid : BitVec 32} (hactive : own.phase.active = true) (hq : q ∈ own.held) :
    Moves strict quiet a own (.perform (.kill q pid)) own := by
  refine .perform rfl hq ?_
  intro s g ok hinv hown hguard
  simp only [machine, exec]
  split
  next hpid =>
    have hmild : Mild (s.proc q) (killProc (s.proc q)) := by
      rcases wake_state (s.proc q).state with hsame | ⟨hsleeping, hnew⟩
      · exact .of_eq hsame rfl rfl
      · refine .of_live ?_ ?_
        · rw [hsleeping]
          exact ProcState.live_sleeping
        · rw [killProc, hnew]
          exact ProcState.live_runnable
    have hmodify : Same s (s.modify q killProc) := .modify hmild rfl
    have hrunning : (s.proc q).state = .RUNNING → (killProc (s.proc q)).state = .RUNNING := by
      intro hr
      simp [killProc, hr]
    refine hinv.poke hown hactive rfl rfl rfl { hmodify with } hq ?_ hrunning
    intro alive hquiet
    refine (hinv.kills alive hquiet).kill ?_
    have hstray := hguard.2 alive hquiet
    simpa [noStray, hpid] using hstray
  next => exact hinv.same_own hown

end Xv6.ProcTable
