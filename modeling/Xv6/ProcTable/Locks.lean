import Xv6.ProcTable.Invariant

/-!
# The locks of the process table keep the invariant

One rule for each operation that moves a `p->lock`: `acquire` and `release`, and the four halves
of the two `swtch` calls, by which a lock passes from a scheduler to a process and back.
-/

namespace Xv6.ProcTable

open Interleave Function List Option

variable {strict : Prop} {quiet : (ProcState → Bool) → Prop} {s s' : State} {g : Agent → Own}
  {p q : Slot} {a b : Agent} {own next : Own} {f : Proc → Proc}

/-- An agent that is active is not waiting for a lock on its way. -/
theorem Own.not_transit (hactive : own.phase.active = true) : ¬own.Transit a q := by
  rintro (⟨-, haway⟩ | hlent)
  · rw [Phase.not_away_of_active hactive] at haway
    cases haway
  · exact Phase.ne_lent_of_active hactive q hlent

theorem Holding.mem_iff (h : Holding s a own) (hactive : own.phase.active = true) :
    q ∈ own.held ↔ (s.proc q).lock = some a :=
  ⟨h.held q, fun hlock => (h.holder q hlock).resolve_right (Own.not_transit hactive)⟩

theorem Holding.of_mem_iff (hwf : own.Wf a) (hactive : own.phase.active = true)
    (hheld : ∀ q, q ∈ own.held ↔ (s.proc q).lock = some a)
    (hcpu : ∀ c q, a = .cpu c → s.cpuProc c ≠ some q) : Holding s a own where
  wf := hwf
  held := fun q hq => (hheld q).mp hq
  holder := fun q hq => .inl ((hheld q).mpr hq)
  cpu := fun c q hc hq => absurd hq (hcpu c q hc)
  arriving := by
    intro p _ haway
    rw [Phase.not_away_of_active hactive] at haway
    cases haway

theorem Holding.not_lent (h : Holding s a own) (hactive : own.phase.active = true) (c : Cpu)
    (q : Slot) (ha : a = .cpu c) : s.cpuProc c ≠ some q := fun hq =>
  Phase.ne_lent_of_active hactive q (h.cpu c q ha hq)

/-- What a process knows does not depend on the locks it holds if it wants no other one. -/
theorem Knows.forget (h : Knows strict s p own) (held : List Slot) :
    Knows strict s p ⟨held, none, own.phase⟩ where
  running := h.running
  live := h.live
  forking := h.forking
  exiting := h.exiting
  target := nofun
  remembered := h.remembered
  order := nofun

/-- A step that only stores who holds the lock of slot `q`. -/
theorem Inv.step_lock (h : Inv strict quiet s g) (q : Slot) (lock : Option Agent)
    (hproc : s'.proc = (s.modify q fun old => { old with lock := lock }).proc)
    (hrest : s' = { s with proc := s'.proc, cpuProc := s'.cpuProc }) (hself : Holding s' a own)
    (hothers : ∀ b, b ≠ a → Holding s' b (g b))
    (hfree : ∀ p, a ≠ .proc p → (s.proc q).lock ≠ some (.proc p))
    (hknows : ∀ p, a = .proc p → Knows strict s p own)
    (hphase : ∀ q, (g a).phase = .forking q true → own.phase = .forking q true) :
    Inv strict quiet s' (update g a own) := by
  have hslot : ∀ r, s'.proc r = { s.proc r with lock := (s'.proc r).lock } ∧
      (r ≠ q → s'.proc r = s.proc r) := by
    rw [hproc]
    exact forall_modify (P := fun r new => new = { s.proc r with lock := new.lock } ∧
      (r ≠ q → new = s.proc r)) ⟨rfl, fun hne => absurd rfl hne⟩ fun r _ => ⟨rfl, fun _ => rfl⟩
  have hstate : ∀ r, (s'.proc r).state = (s.proc r).state := fun r => by rw [(hslot r).1]
  have hsame : Same s s' := by
    rw [hrest]
    refine ⟨⟨fun r => ?_, rfl, rfl, rfl, rfl⟩, fun r => ?_, rfl⟩
    · exact .of_eq (hstate r) (by rw [(hslot r).1]) (by rw [(hslot r).1])
    · show (s'.proc r).parent = _
      rw [(hslot r).1]
  refine h.step_same hsame hself hothers ?_ ?_ ?_ hphase ?_
  · intro p hp r hr
    refine (hslot r).2 fun hrq => ?_
    rw [hrq] at hr
    exact hfree p hp hr
  · intro p _ hrunning
    rwa [hstate]
  · intro p hp
    refine (hknows p hp).same hsame fun hrunning => ?_
    rwa [hstate]
  · intro alive hq
    refine (h.kills alive hq).calm hsame.toCalm (fun r hr => ?_) ?_ ?_ ?_
    · rwa [(hslot r).1] at hr
    all_goals rw [hrest]

variable {phase : Phase} {target : Option Slot}

/-- The agent that has given the lock of slot `q`, its only one, away. -/
theorem Holding.gave (h : Holding s a ⟨[q], target, phase⟩) (hactive : phase.active = true)
    (hproc : s'.proc = (s.modify q f).proc) (hlock : (f (s.proc q)).lock ≠ some a)
    (hwf : next.Wf a) (hheld : next.held = [])
    (hcpu : ∀ c r, a = .cpu c → s'.cpuProc c = some r → next.phase = .lent r) :
    Holding s' a next := by
  have hgone : ∀ r, (s'.proc r).lock ≠ some a := by
    rw [hproc]
    refine forall_modify (P := fun _ new => new.lock ≠ some a) hlock fun r hr hlock' => ?_
    exact hr (mem_singleton.mp ((h.mem_iff hactive).mpr hlock'))
  refine ⟨hwf, ?_, fun r hr => absurd hr (hgone r), hcpu, fun r _ _ hr => absurd hr (hgone r)⟩
  rw [hheld]
  exact nofun

/-- The agent that was waiting for the lock of slot `q` and is given it. -/
theorem Holding.given (h : Holding s b own) (hproc : s'.proc = (s.modify q f).proc)
    (hheld : own.held = []) (htransit : own.Transit b q)
    (hcpu : ∀ c, b = .cpu c → s'.cpuProc c = s.cpuProc c)
    (hstate : ∀ p, b = .proc p → (s'.proc p).state = .RUNNING) : Holding s' b own where
  wf := h.wf
  held := by
    rw [hheld]
    exact nofun
  holder := by
    rw [hproc]
    exact forall_modify (P := fun r new => new.lock = some b → r ∈ own.held ∨ own.Transit b r)
      (fun _ => .inr htransit) fun r _ => h.holder r
  cpu := by
    intro c r hc hr
    rw [hcpu c hc] at hr
    exact h.cpu c r hc hr
  arriving := fun p hp _ _ => hstate p hp

/-- Once the lock of slot `q` has arrived, it is the only one that the agent holds. -/
theorem Holding.arrived (h : Holding s a own) (hheld : own.held = [])
    (hlock : (s.proc q).lock = some a) (hone : ∀ r, own.Transit a r → r = q) (r : Slot) :
    r ∈ [q] ↔ (s.proc r).lock = some a := by
  rw [mem_singleton]
  constructor
  · intro hr
    rwa [hr]
  · intro hr
    refine hone r ((h.holder r hr).resolve_left ?_)
    rw [hheld]
    exact nofun

/-! ### Acquire and release -/

variable {lock : Option Agent}

theorem ne_some_of_ne (h : lock = none ∨ lock = some a) (hb : b ≠ a) : lock ≠ some b := by
  rcases h with rfl | rfl
  · exact nofun
  · exact fun h => hb (some.inj h).symm

section

variable (h : Inv strict quiet s g)
include h

/-- An active agent takes the lock of slot `q` if it is free, or frees it. -/
theorem Inv.relock (hactive : (g a).phase.active = true)
    (hold : (s.proc q).lock = none ∨ (s.proc q).lock = some a)
    (hlock : lock = none ∨ lock = some a) (hphase : next.phase = (g a).phase) (hwf : next.Wf a)
    (hself : q ∈ next.held ↔ lock = some a)
    (hrest : ∀ r, r ≠ q → (r ∈ next.held ↔ r ∈ (g a).held))
    (hknows : ∀ p, a = .proc p → Knows strict s p next) :
    Inv strict quiet (s.modify q fun old => { old with lock := lock }) (update g a next) := by
  have hholding := h.holding a
  refine h.step_lock q lock rfl rfl ?_ ?_ ?_ hknows fun r hforking => hphase ▸ hforking
  · refine .of_mem_iff hwf (hphase ▸ hactive) ?_ (hholding.not_lent hactive)
    refine forall_modify (P := fun r new => r ∈ next.held ↔ new.lock = some a) hself ?_
    intro r hr
    rw [hrest r hr, hholding.mem_iff hactive]
  · exact fun b hb =>
      h.holding_modify rfl (fun _ _ => rfl) (ne_some_of_ne hold hb) (ne_some_of_ne hlock hb)
  · exact fun p hp => ne_some_of_ne hold (Ne.symm hp)

/-- A successful `acquire`, after which the agent may know what it wants next. -/
theorem Inv.acquire (hactive : (g a).phase.active = true)
    (hlock : (s.proc q).lock = none) (hheld : next.held = q :: (g a).held)
    (hphase : next.phase = (g a).phase) (htarget : ∀ c, a = .cpu c → next.target = none)
    (hknows : ∀ p, a = .proc p → Knows strict s p next) :
    Inv strict quiet (s.modify q fun old => { old with lock := some a }) (update g a next) := by
  have hholding := h.holding a
  have hnot : q ∉ (g a).held := by
    intro hq
    rw [hholding.held q hq] at hlock
    cases hlock
  have hwf : next.Wf a :=
    { nodup := by rw [hheld]; exact nodup_cons.mpr ⟨hnot, hholding.wf.nodup⟩
      away := by
        intro haway
        rw [hphase, Phase.not_away_of_active hactive] at haway
        cases haway
      lent := fun r hlent => absurd (hphase ▸ hlent) (Phase.ne_lent_of_active hactive r)
      forking := by
        intro np adopted hforking
        rw [hheld]
        exact mem_cons_of_mem _ (hholding.wf.forking np adopted (hphase ▸ hforking))
      parked := by
        intro p hp hparked
        rw [hheld]
        exact mem_cons_of_mem _ (hholding.wf.parked p hp (hphase ▸ hparked))
      proc := fun p hp => hphase ▸ hholding.wf.proc p hp
      cpu := htarget }
  refine h.relock hactive (.inl hlock) (.inr rfl) hphase hwf ?_ ?_ hknows
  · simp [hheld]
  · intro r hr
    simp [hheld, hr]

theorem Inv.acquire_ensures (ok : Bool) (q : Slot)
    {post : Unit → Own → Prop} (hactive : (g a).phase.active = true)
    (hpost : (s.proc q).lock = none → q ∉ (g a).held → ∃ next : Own,
      next.held = q :: (g a).held ∧ next.phase = (g a).phase ∧
        (∀ c, a = .cpu c → next.target = none) ∧ (∀ p, a = .proc p → Knows strict s p next) ∧
          post () next) :
    (exec a ok (.acquire q) s).Ensures (fun _ => True) fun result state' =>
      ∃ own, Inv strict quiet state' (update g a own) ∧ post result own := by
  cases hlock : (s.proc q).lock with
  | some holder =>
    simp only [exec, hlock]
    split <;> trivial
  | none =>
    simp only [exec, hlock]
    have hnot : q ∉ (g a).held := by
      rw [(h.holding a).mem_iff hactive, hlock]
      simp
    obtain ⟨next, hheld, hphase, htarget, hknows, hnext⟩ := hpost hlock hnot
    exact ⟨next, h.acquire hactive hlock hheld hphase htarget hknows, hnext⟩

end

/-- `acquire`, by an agent that holds no lock, or knows that the order allows it. -/
theorem triple_acquire (hactive : own.phase.active = true)
    (hwant : own.held = [] ∧ own.target = none ∨ own.target = some q ∧ (strict → q ∉ own.held)) :
    Moves strict quiet a own (.perform (.acquire q)) { own with held := q :: own.held } := by
  have hneeds : needs strict (.acquire q) own := ⟨hactive, hwant.imp_left And.left⟩
  refine Discipline.Triple.perform rfl hneeds ?_
  intro s g ok hinv hown _
  subst hown
  refine hinv.acquire_ensures ok q hactive fun _ _ => ?_
  refine ⟨{ g a with held := q :: (g a).held }, rfl, rfl, (hinv.holding a).wf.cpu, ?_, rfl⟩
  rintro p ⟨⟩
  have hknows := hinv.knows p
  refine { hknows with order := ?_ }
  intro _ r hr hnotin
  rcases hwant with ⟨-, hnone⟩ | ⟨hsome, -⟩
  · simpa using hnone.symm.trans hr
  · -- the lock that was wanted is held now
    obtain rfl : q = r := some.inj (hsome.symm.trans hr)
    exact absurd mem_cons_self hnotin

/-- `acquire(&p->lock)` in `exit`, on top of the lock of the parent. -/
theorem triple_acquire_self (hactive : own.phase.active = true) (htarget : own.target = some p)
    (hnot : strict → p ∉ own.held) :
    Triple strict quiet (.proc p) own (.perform (.acquire p)) fun _ own' =>
      own' = ⟨p :: own.held, none, own.phase⟩ ∧ p ∉ own.held := by
  have hneeds : needs strict (.acquire p) own := ⟨hactive, .inr ⟨htarget, hnot⟩⟩
  refine .perform rfl hneeds ?_
  intro s g ok hinv hown _
  subst hown
  refine hinv.acquire_ensures ok p hactive fun _ hnot => ?_
  refine ⟨⟨p :: (g (.proc p)).held, none, (g (.proc p)).phase⟩, rfl, rfl, nofun, ?_, rfl, hnot⟩
  exact forall_self ((hinv.knows p).forget _)

/-- `acquire(&original_parent->lock)` in `exit`, by a process that is younger than its parent. -/
theorem triple_acquire_parent {parent : Slot} {left : List Slot} :
    Triple strict quiet (.proc p) ⟨[], none, .exiting (some parent) left⟩
      (.perform (.acquire parent)) fun _ own' =>
        own' = ⟨[parent], some p, .exiting (some parent) left⟩ ∧ (strict → p ≠ parent) := by
  have hneeds : needs strict (.acquire parent) ⟨[], none, .exiting (some parent) left⟩ :=
    ⟨rfl, .inl rfl⟩
  refine triple_proc hneeds fun s g ok hinv hown hknows _ _ => ?_
  refine hinv.acquire_ensures ok parent (by rw [hown]; rfl) fun _ hnot => ?_
  refine ⟨⟨[parent], some p, .exiting (some parent) left⟩, ?_, ?_, nofun, ?_, rfl, ?_⟩
  · rw [hown]
  · rw [hown]
  · refine forall_self { hknows with
      target := ?_
      order := ?_ }
    · rintro q ⟨⟩
      exact .inl ⟨rfl, hknows.alive rfl⟩
    · intro hs q hq _ r hr
      cases hq
      rw [mem_singleton] at hr
      subst hr
      exact (hknows.remembered hs r left rfl).2
  · intro hs hp
    have hlt := (hknows.remembered hs parent left rfl).2
    rw [hp] at hlt
    exact lt_irrefl _ hlt

theorem triple_release (hactive : own.phase.active = true) (hq : q ∈ own.held)
    (hforking : ∀ adopted, own.phase ≠ .forking q adopted)
    (hparked : own.phase = .parking ∨ own.phase = .exited → a ≠ .proc q) :
    Moves strict quiet a own (.perform (.release q)) ⟨own.held.erase q, none, own.phase⟩ := by
  refine .perform rfl trivial ?_
  intro s g ok hinv hown _
  subst hown
  have hholding := hinv.holding a
  have hlock := hholding.held q hq
  have hwf : Own.Wf a ⟨(g a).held.erase q, none, (g a).phase⟩ :=
    { nodup := hholding.wf.nodup.erase q
      away := fun haway => by simp [hholding.wf.away haway]
      lent := fun r hlent => by simp [hholding.wf.lent r hlent]
      forking := by
        intro np adopted hphase
        have hne : np ≠ q := by
          rintro ⟨⟩
          exact hforking adopted hphase
        exact (mem_erase_of_ne hne).mpr (hholding.wf.forking np adopted hphase)
      parked := by
        intro p hp hphase
        have hne : p ≠ q := by
          rintro ⟨⟩
          exact hparked hphase hp
        exact (mem_erase_of_ne hne).mpr (hholding.wf.parked p hp hphase)
      proc := hholding.wf.proc
      cpu := fun _ _ => rfl }
  simp only [machine, exec, hlock, if_pos]
  refine hinv.relock hactive (.inr hlock) (.inl rfl) rfl hwf ?_ ?_ ?_
  · simp [hholding.wf.nodup.not_mem_erase]
  · exact fun r hr => mem_erase_of_ne hr
  · rintro p ⟨⟩
    exact (hinv.knows p).forget _

/-! ### Switching to a scheduler -/

/-- What a process is doing once it has switched to a scheduler. -/
def Phase.parked : Phase → Phase
  | .parking => .switched
  | _ => .out

variable {c : Cpu}

theorem State.cpuProc_of_cpuOf (h : s.cpuOf p = some c) : s.cpuProc c = some p := by
  simpa using find?_some h

theorem triple_sched (hphase : phase = .parking ∨ phase = .exited) :
    Moves strict quiet (.proc p) ⟨[p], target, phase⟩ (.perform .sched)
      ⟨[], none, phase.parked⟩ := by
  refine moves_proc trivial fun s g ok hinv hown hknows hholding _ => ?_
  have hactive : phase.active = true := by
    rcases hphase with rfl | rfl <;> rfl
  have hlock : (s.proc p).lock = some (.proc p) := hholding.held p (by simp)
  have hwf : Own.Wf (.proc p) ⟨[], none, phase.parked⟩ := by
    refine ⟨nodup_nil, fun _ => rfl, fun _ _ => rfl, ?_, ?_, ?_, nofun⟩
    · rcases hphase with rfl | rfl <;> intro np adopted h <;> cases h
    · rcases hphase with rfl | rfl <;> intro r _ h <;> rcases h with h | h <;> cases h
    · rcases hphase with rfl | rfl <;> exact fun r _ => ⟨nofun, nofun⟩
  simp only [exec, execProc, hlock, ne_eq, not_true_eq_false, if_false]
  split
  · trivial
  · split
    · trivial
    · cases hcpu : s.cpuOf p with
      | none => trivial
      | some c =>
        have hlent := (hinv.holding (.cpu c)).cpu c p rfl (State.cpuProc_of_cpuOf hcpu)
        refine hinv.step_lock p (some (.cpu c)) rfl rfl ?_ ?_ ?_ ?_ ?_
        · exact hholding.gave hactive rfl nofun hwf rfl fun _ _ h => nomatch h
        · intro b hb
          by_cases hbc : b = .cpu c
          · subst hbc
            have hscheduler := hinv.holding (.cpu c)
            exact hscheduler.given rfl (hscheduler.wf.lent p hlent) (.inr hlent)
              (fun _ _ => rfl) nofun
          · refine hinv.holding_modify rfl (fun _ _ => rfl) ?_ ?_
            · exact ne_some_of_ne (.inr hlock) hb
            · exact ne_some_of_ne (.inr rfl) hbc
        · exact fun r hr => ne_some_of_ne (.inr hlock) (Ne.symm hr)
        · refine forall_self ?_
          rcases hphase with rfl | rfl
          · exact ⟨nofun, fun _ => hknows.live (.inr rfl), nofun, nofun, nofun, nofun, nofun⟩
          · exact ⟨nofun, nofun, nofun, nofun, nofun, nofun, nofun⟩
        · intro r hr
          rw [hown] at hr
          rcases hphase with rfl | rfl <;> cases hr

/-- A scheduler has switched to the process, which holds its own lock from there on. -/
theorem triple_resume (hphase : phase.away = true) :
    Moves strict quiet (.proc p) ⟨[], none, phase⟩ (.perform .resume) ⟨[p], none, .running⟩ := by
  refine moves_proc trivial fun s g ok hinv hown _ hholding _ => ?_
  simp only [exec, execProc]
  split
  next hlock =>
    have hrunning := hholding.arriving p rfl hphase hlock
    refine hinv.step_same (.refl s) ?_ (fun b _ => hinv.holding b) (fun _ _ _ _ => rfl)
      (fun _ _ h => h) ?_ ?_ hinv.kills
    · refine .of_mem_iff ⟨by simp, nofun, nofun, nofun, ?_, fun _ _ => ⟨nofun, nofun⟩, nofun⟩ rfl
        ?_ nofun
      · exact fun r _ h => h.elim nofun nofun
      · refine hholding.arrived rfl hlock fun r htransit => ?_
        rcases htransit with ⟨hself, -⟩ | hlent
        · exact (Agent.proc.inj hself).symm
        · exact absurd hlent ((hholding.wf.proc p rfl).2 r)
    · exact forall_self
        ⟨fun _ => hrunning, fun h => h.elim nofun nofun, nofun, nofun, nofun, nofun, nofun⟩
    · intro r hr
      rw [hown] at hr
      subst hr
      simp [Phase.away] at hphase
  next => trivial

/-! ### Switching to a process -/

/-- The thread of a runnable process whose lock a scheduler holds waits for a scheduler. -/
theorem Inv.away_of_runnable (h : Inv strict quiet s g)
    (hlock : (s.proc q).lock = some (.cpu c)) (hstate : (s.proc q).state = .RUNNABLE) :
    (g (.proc q)).phase.away = true := by
  have hholding := h.holding (.proc q)
  have hknows := h.knows q
  have hnot : q ∉ (g (.proc q)).held := by
    intro hq
    rw [hholding.held q hq] at hlock
    cases hlock
  have hexecuting : (g (.proc q)).phase.executing = false := by
    by_contra hexec
    have hrunning := hknows.running (by simpa using hexec)
    rw [hstate] at hrunning
    cases hrunning
  cases hphase : (g (.proc q)).phase with
  | out => rfl
  | switched => rfl
  | parking => exact absurd (hholding.wf.parked q rfl (.inl hphase)) hnot
  | exited => exact absurd (hholding.wf.parked q rfl (.inr hphase)) hnot
  | idle => exact absurd hphase (hholding.wf.proc q rfl).1
  | lent r => exact absurd hphase ((hholding.wf.proc q rfl).2 r)
  | running => exact absurd (hphase ▸ hexecuting) (by simp [Phase.executing])
  | forking np adopted => exact absurd (hphase ▸ hexecuting) (by simp [Phase.executing])
  | exiting parent left => exact absurd (hphase ▸ hexecuting) (by simp [Phase.executing])

/-- The slot of a process that a scheduler has just started. -/
def started (q : Slot) (old : Proc) : Proc := { old with state := .RUNNING, lock := some (.proc q) }

/-- `swtch` in `scheduler` hands the lock to the process it starts. -/
theorem triple_swtch : Triple strict quiet (.cpu c) ⟨[q], none, .idle⟩ (.perform (.swtch q))
      fun switched own' =>
        own' = if switched = true then ⟨[], none, .lent q⟩ else ⟨[q], none, .idle⟩ := by
  refine .perform rfl mem_cons_self ?_
  intro s g ok hinv hown _
  have hholding := hinv.holding (.cpu c)
  rw [hown] at hholding
  have hlock : (s.proc q).lock = some (.cpu c) := hholding.held q (by simp)
  simp only [machine, exec, execCpu]
  split
  next hstate =>
    have haway := hinv.away_of_runnable hlock hstate
    have hlive : (s.proc q).state.Live := by
      rw [hstate]
      exact ProcState.live_runnable
    have hmodify : Same s (s.modify q (started q)) :=
      .modify (.of_live hlive ProcState.live_running) rfl
    have hrunning : ∀ r, (s.proc r).state = .RUNNING →
        ((s.modify q (started q)).proc r).state = .RUNNING :=
      forall_modify (P := fun r new => (s.proc r).state = .RUNNING → new.state = .RUNNING)
        (fun _ => rfl) fun _ _ h => h
    refine ⟨⟨[], none, .lent q⟩, ?_, by simp⟩
    refine hinv.step_same { hmodify with } ?_ ?_ ?_ (fun r _ => hrunning r) nofun ?_ ?_
    · refine hholding.gave (f := started q) rfl rfl nofun
        ⟨nodup_nil, fun _ => rfl, fun _ _ => rfl, nofun, nofun, nofun, fun _ _ => rfl⟩ rfl ?_
      intro c' r hc' hr
      cases hc'
      obtain rfl : q = r := by simpa using hr
      rfl
    · intro b hb
      by_cases hbq : b = .proc q
      · subst hbq
        have hprocess := hinv.holding (.proc q)
        exact hprocess.given (f := started q) rfl (hprocess.wf.away haway) (.inl ⟨rfl, haway⟩) nofun
          (forall_self (by simp))
      · refine hinv.holding_modify (f := started q) rfl ?_ (ne_some_of_ne (.inr hlock) hb)
          (ne_some_of_ne (.inr rfl) hbq)
        intro c' hc'
        have hne : c' ≠ c := fun hcc => hb (hcc ▸ hc')
        simp [hne]
    · intro r _ t ht
      have hne : t ≠ q := by
        intro htq
        rw [htq, hlock] at ht
        cases ht
      simp [hne]
    · intro r hr
      rw [hown] at hr
      cases hr
    · exact fun alive hq => { (hinv.kills alive hq).modify hmodify.toCalm fun h => h with }
  next =>
    refine ⟨_, ?_, rfl⟩
    rwa [if_neg (by simp), ← hown, update_eq_self]

/-- The scheduler goes on when the process has handed the lock back. -/
theorem triple_regain : Moves strict quiet (.cpu c) ⟨[], none, .lent q⟩ (.perform (.regain q))
      ⟨[q], none, .idle⟩ := by
  refine .perform rfl trivial ?_
  intro s g ok hinv hown _
  have hholding := hinv.holding (.cpu c)
  rw [hown] at hholding
  simp only [machine, exec, execCpu]
  split
  next hlock =>
    refine hinv.step_same { Same.refl s with } ?_ ?_ (fun _ _ _ _ => rfl) (fun _ _ h => h)
      nofun ?_ ?_
    · refine .of_mem_iff ⟨by simp, nofun, nofun, nofun, nofun, nofun, fun _ _ => rfl⟩ rfl ?_ ?_
      · refine hholding.arrived rfl hlock fun r htransit => ?_
        rcases htransit with ⟨hself, -⟩ | hlent
        · cases hself
        · exact (Phase.lent.inj hlent).symm
      · intro c' r hc' hr
        cases hc'
        simp at hr
    · intro b hb
      refine (hinv.holding b).other (fun _ => Iff.rfl) ?_ fun _ _ _ h => h
      intro c' hc'
      have hne : c' ≠ c := fun hcc => hb (hcc ▸ hc')
      simp [hne]
    · intro r hr
      rw [hown] at hr
      cases hr
    · intro alive hq
      exact { hinv.kills alive hq with }
  next => trivial

end Xv6.ProcTable
