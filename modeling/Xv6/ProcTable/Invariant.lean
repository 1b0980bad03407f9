import Xv6.ProcTable.System

/-!
# The invariant of the process table

`Inv` has one part about each agent, `Holding` for the locks it holds and `Knows` for what a
process has learnt about the table, and three parts about the table itself: the tree of parents,
the records of `exit` and `wait`, and the flags set by `kill`. The flags are claimed only for
runs in which `kill` finds no stray pid, and the order of locks only for runs in which `fork`
does not reuse the slot of a process that somebody in `exit` still remembers as its parent.

An agent writes only to slots whose lock it holds. `Rely` says what a process may assume about
the steps of the others, and `Knows.rely` that this is enough to keep what it knows.
-/

namespace Xv6.ProcTable

open Interleave Function

/-- The process exists and has not exited. -/
def ProcState.Live (state : ProcState) : Prop := state ≠ .UNUSED ∧ state ≠ .ZOMBIE

theorem ProcState.live_running : ProcState.RUNNING.Live := ⟨by decide, by decide⟩

theorem ProcState.live_runnable : ProcState.RUNNABLE.Live := ⟨by decide, by decide⟩

theorem ProcState.live_sleeping : ProcState.SLEEPING.Live := ⟨by decide, by decide⟩

/-- What an agent is doing. -/
inductive Phase where
  /-- A thread that runs no process. -/
  | out
  /-- A process that has switched to a scheduler. -/
  | switched
  /-- A process that runs. -/
  | running
  /-- A process about to switch to a scheduler. -/
  | parking
  /-- A process in `fork` that fills the slot `np`; `adopted` once `np->parent` is set. -/
  | forking (np : Slot) (adopted : Bool)
  /-- A process in `exit` whose children can only be in the slots `left`. -/
  | exiting (parent : Option Slot) (left : List Slot)
  /-- A zombie that has not yet switched to a scheduler. -/
  | exited
  /-- A scheduler that runs no process. -/
  | idle
  /-- A scheduler that has switched to the process in slot `q`. -/
  | lent (q : Slot)

namespace Phase

/-- The thread waits until a scheduler switches to it. -/
def away : Phase → Bool
  | .out => true
  | .switched => true
  | _ => false

/-- The agent is neither waiting for a scheduler nor for a process. -/
def active : Phase → Bool
  | .out => false
  | .switched => false
  | .lent _ => false
  | _ => true

/-- The process has state `RUNNING`. -/
def executing : Phase → Bool
  | .running => true
  | .forking _ _ => true
  | .exiting _ _ => true
  | _ => false

theorem not_away_of_active {phase : Phase} (h : phase.active = true) : phase.away = false := by
  cases phase <;> simp_all [active, away]

theorem ne_lent_of_active {phase : Phase} (h : phase.active = true) (q : Slot) :
    phase ≠ .lent q := by
  intro hlent
  rw [hlent] at h
  simp [active] at h

end Phase

/-- What an agent knows: the slots whose locks it holds, a slot that it may lock on top of them,
and what it is doing. -/
structure Own where
  held : List Slot
  target : Option Slot
  phase : Phase

/-- What an agent does and what it holds fit together. -/
structure Own.Wf (a : Agent) (own : Own) : Prop where
  nodup : own.held.Nodup
  away : own.phase.away = true → own.held = []
  lent : ∀ q, own.phase = .lent q → own.held = []
  forking : ∀ np adopted, own.phase = .forking np adopted → np ∈ own.held
  parked : ∀ p, a = .proc p → own.phase = .parking ∨ own.phase = .exited → p ∈ own.held
  proc : ∀ p, a = .proc p → own.phase ≠ .idle ∧ ∀ q, own.phase ≠ .lent q
  cpu : ∀ c, a = .cpu c → own.target = none

/-- A lock on its way between a scheduler and the process it belongs to. -/
def Own.Transit (a : Agent) (own : Own) (q : Slot) : Prop :=
  (a = .proc q ∧ own.phase.away = true) ∨ own.phase = .lent q

/-- The locks of an agent. -/
structure Holding (s : State) (a : Agent) (own : Own) : Prop where
  wf : own.Wf a
  held : ∀ q ∈ own.held, (s.proc q).lock = some a
  holder : ∀ q, (s.proc q).lock = some a → q ∈ own.held ∨ own.Transit a q
  cpu : ∀ c q, a = .cpu c → s.cpuProc c = some q → own.phase = .lent q
  arriving : ∀ p, a = .proc p → own.phase.away = true → (s.proc p).lock = some a →
    (s.proc p).state = .RUNNING

/-- What the process in slot `p` has learnt about the table. The last two fields are the order
of locks: a process waits only for locks of processes younger than all whose locks it holds. -/
structure Knows (strict : Prop) (s : State) (p : Slot) (own : Own) : Prop where
  running : own.phase.executing = true → (s.proc p).state = .RUNNING
  live : own.phase = .switched ∨ own.phase = .parking → (s.proc p).state.Live
  forking : ∀ np adopted, own.phase = .forking np adopted →
    (s.proc np).state = .UNUSED ∧ (adopted = true → (s.proc np).parent = some p)
  exiting : ∀ parent left, own.phase = .exiting parent left →
    p ≠ initproc ∧ ∀ q, q ∉ left → (s.proc q).parent ≠ some p
  target : ∀ q, own.target = some q →
    q = p ∧ (s.proc p).state.Live ∨ (s.proc q).parent = some p ∧ (s.proc q).state ≠ .UNUSED
  remembered : strict → ∀ parent left, own.phase = .exiting (some parent) left →
    s.originalParent p = some parent ∧ s.stamp parent < s.stamp p
  order : strict → ∀ q, own.target = some q → q ∉ own.held → ∀ h ∈ own.held, s.stamp h < s.stamp q

/-- Every process but the first has a parent that is alive and older. -/
structure TreeOk (s : State) : Prop where
  init : (s.proc initproc).state.Live
  initParent : (s.proc initproc).parent = none
  initStamp : s.stamp initproc = 0
  tree : ∀ q, q ≠ initproc → (s.proc q).state ≠ .UNUSED →
    ∃ r, (s.proc q).parent = some r ∧ (s.proc r).state.Live ∧ s.stamp r < s.stamp q
  stamps : ∀ q, s.stamp q < s.nextStamp

/-- The records of `exit` and `wait`. -/
structure RecordsOk (s : State) : Prop where
  distinct : ∀ q r, (s.proc q).state ≠ .UNUSED → (s.proc r).state ≠ .UNUSED →
    s.stamp q = s.stamp r → q = r
  fresh : ∀ e ∈ s.exits, e.stamp < s.nextStamp
  live : ∀ q, (s.proc q).state.Live → ∀ e ∈ s.exits, e.stamp ≠ s.stamp q
  zombie : ∀ q, (s.proc q).state = .ZOMBIE →
    ⟨s.stamp q, (s.proc q).pid, (s.proc q).xstate⟩ ∈ s.exits ∧ ∀ w ∈ s.waits, w.child ≠ s.stamp q
  exits : ∀ e ∈ s.exits, (∃ q, (s.proc q).state = .ZOMBIE ∧ s.stamp q = e.stamp) ∨
    ∃ w ∈ s.waits, w.child = e.stamp
  waits : ∀ w ∈ s.waits, w.parent = some w.caller ∧
    ∃ e ∈ s.exits, e.stamp = w.child ∧ e.pid = w.pid ∧ ∀ status ∈ w.status, status = e.status
  exitOnce : (s.exits.map ExitRecord.stamp).Nodup
  waitOnce : (s.waits.map WaitRecord.child).Nodup

/-- The flags set by `kill`, for a notion of being alive. -/
structure KillsOk (alive : ProcState → Bool) (s : State) : Prop where
  unused : alive .UNUSED = false
  killed : ∀ q, (s.proc q).killed = true →
    (s.proc q).state ≠ .UNUSED ∧ ∃ state ∈ s.namedAt q, alive state = true
  births : ∀ killed ∈ s.births, killed = false
  hits : ∀ state ∈ s.killHits, alive state = true

/-- The invariant. The order of locks is part of it if `strict`, and the flags of `kill` for the
notions of being alive that `quiet` selects. -/
structure Inv (strict : Prop) (quiet : (ProcState → Bool) → Prop) (s : State)
    (g : Agent → Own) : Prop where
  holding : ∀ a, Holding s a (g a)
  knows : ∀ p, Knows strict s p (g (.proc p))
  tree : TreeOk s
  adopted : ∀ q r, (s.proc q).parent = some r →
    (s.proc q).state ≠ .UNUSED ∨ (g (.proc r)).phase = .forking q true
  records : RecordsOk s
  kills : ∀ alive, quiet alive → KillsOk alive s

/-- No child is put into a slot that a process in `exit` remembers as its parent's. -/
def noReuse (o : Op) (s : State) : Bool :=
  match o with
  | .setRunnable q => slots.all fun p => s.originalParent p ≠ some q
  | _ => true

/-- A slot in which `kill` finds its pid has a process that is alive. -/
def noStray (alive : ProcState → Bool) (o : Op) (s : State) : Bool :=
  match o with
  | .kill q pid => (s.proc q).pid ≠ pid || alive (s.proc q).state
  | _ => true

/-- What an agent knows between two calls. -/
def idle : Agent → Label → Own → Prop
  | .proc _, .out, own => own = ⟨[], none, .out⟩
  | .proc _, .user _, own => own = ⟨[], none, .running⟩
  | .proc p, .waiting _, own => own = ⟨[p], none, .running⟩
  | .cpu _, .scheduler _, own => own = ⟨[], none, .idle⟩
  | _, _, _ => False

/-- Who waits for a lock holds no other one, or knows that the order allows it; who fills a slot in
`fork` has found it free; and who writes to a slot otherwise has locked it. -/
def needs (strict : Prop) (o : Op) (own : Own) : Prop :=
  match o with
  | .acquire q => own.phase.active = true ∧
      (own.held = [] ∨ own.target = some q ∧ (strict → q ∉ own.held))
  | .allocpid q | .freeproc q | .setParent q | .setRunnable q =>
    ∃ adopted, own.phase = .forking q adopted
  | .originalParent => own.phase = .running
  | .giveToInit q | .collect q _ | .kill q _ | .wakeup q _ | .swtch q => q ∈ own.held
  | _ => True

/-- How the agents share the process table. Every panic is allowed: the results
are about the states that are reached, whether or not the machine has stopped there. -/
def discipline (strict : Prop) (quiet : (ProcState → Bool) → Prop) : Discipline machine Own where
  inv := Inv strict quiet
  needs := fun _ o own => needs strict o own
  idle := idle
  allowed := fun _ => True
  guard := fun _ o s => (strict → noReuse o s = true) ∧
    (∀ alive, quiet alive → noStray alive o s = true)

section Triples

variable {α : Type} (strict : Prop) (quiet : (ProcState → Bool) → Prop) (a : Agent) (own : Own)
  (prog : Code α)

abbrev Triple (post : α → Own → Prop) : Prop := (discipline strict quiet).Triple a own prog post

abbrev Moves (own' : Own) : Prop := (discipline strict quiet).Moves a own prog own'

end Triples

/-! ### Changing one slot -/

section Modify

variable {s : State} {q : Slot} {f : Proc → Proc}

@[simp] theorem proc_modify_self : (s.modify q f).proc q = f (s.proc q) := by
  simp [State.modify]

@[simp] theorem proc_modify_of_ne {r : Slot} (h : r ≠ q) : (s.modify q f).proc r = s.proc r := by
  simp [State.modify, h]

@[simp] theorem cpuProc_modify : (s.modify q f).cpuProc = s.cpuProc := rfl

@[simp] theorem stamp_modify : (s.modify q f).stamp = s.stamp := rfl

@[simp] theorem namedAt_modify : (s.modify q f).namedAt = s.namedAt := rfl

theorem forall_modify {P : Slot → Proc → Prop} (hq : P q (f (s.proc q)))
    (hother : ∀ r, r ≠ q → P r (s.proc r)) (r : Slot) : P r ((s.modify q f).proc r) := by
  by_cases hr : r = q
  · subst hr
    simpa using hq
  · simpa [hr] using hother r hr

end Modify

/-! ### What a process may rely on -/

/-- What the process in slot `p` sees of a step of another agent. -/
structure Rely (strict : Prop) (p : Slot) (s s' : State) : Prop where
  running : (s.proc p).state = .RUNNING → (s'.proc p).state = .RUNNING
  live : (s.proc p).state.Live → (s'.proc p).state.Live ∧ s'.stamp p = s.stamp p
  held : ∀ q, (s.proc q).lock = some (.proc p) → s'.proc q = s.proc q ∧ s'.stamp q = s.stamp q
  child : ∀ q, (s.proc q).parent = some p → (s.proc q).state ≠ .UNUSED →
    (s'.proc q).parent = some p ∧ (s'.proc q).state ≠ .UNUSED ∧ s'.stamp q = s.stamp q
  parent : p ≠ initproc → ∀ q, (s'.proc q).parent = some p → (s.proc q).parent = some p
  remembered : s'.originalParent p = s.originalParent p
  parentStamp : strict → ∀ r, s.originalParent p = some r → s'.stamp r = s.stamp r

variable {strict : Prop} {quiet : (ProcState → Bool) → Prop} {s s' : State} {g : Agent → Own}
  {p q : Slot} {a : Agent} {own : Own}

theorem Knows.alive (h : Knows strict s p own) (hphase : own.phase.executing = true) :
    (s.proc p).state.Live := by
  rw [h.running hphase]
  exact ProcState.live_running

theorem Knows.rely (h : Knows strict s p own) (hholding : Holding s (.proc p) own)
    (hrely : Rely strict p s s') : Knows strict s' p own where
  running := fun hphase => hrely.running (h.running hphase)
  live := fun hphase => (hrely.live (h.live hphase)).1
  forking := by
    intro np adopted hphase
    have hlock := hholding.held np (hholding.wf.forking np adopted hphase)
    rw [(hrely.held np hlock).1]
    exact h.forking np adopted hphase
  exiting := by
    intro parent left hphase
    obtain ⟨hinit, hleft⟩ := h.exiting parent left hphase
    exact ⟨hinit, fun q hq hparent => hleft q hq (hrely.parent hinit q hparent)⟩
  target := by
    intro q hq
    rcases h.target q hq with ⟨hself, hlive⟩ | ⟨hparent, hused⟩
    · exact .inl ⟨hself, (hrely.live hlive).1⟩
    · have hchild := hrely.child q hparent hused
      exact .inr ⟨hchild.1, hchild.2.1⟩
  remembered := by
    intro hs parent left hphase
    obtain ⟨hparent, hlt⟩ := h.remembered hs parent left hphase
    have hlive := h.alive (by rw [hphase]; rfl)
    rw [hrely.remembered, hrely.parentStamp hs parent hparent, (hrely.live hlive).2]
    exact ⟨hparent, hlt⟩
  order := by
    intro hs q hq hnot r hr
    have hstamp : s'.stamp q = s.stamp q := by
      rcases h.target q hq with ⟨hself, hlive⟩ | ⟨hparent, hused⟩
      · rw [hself]
        exact (hrely.live hlive).2
      · exact (hrely.child q hparent hused).2.2
    rw [hstamp, (hrely.held r (hholding.held r hr)).2]
    exact h.order hs q hq hnot r hr

/-- The locks of an agent survive the steps of the others that do not touch them. -/
theorem Holding.other (h : Holding s a own)
    (hlock : ∀ q, (s'.proc q).lock = some a ↔ (s.proc q).lock = some a)
    (hcpu : ∀ c, a = .cpu c → s'.cpuProc c = s.cpuProc c)
    (hstate : ∀ q, a = .proc q → (s.proc q).lock = some a → (s.proc q).state = .RUNNING →
      (s'.proc q).state = .RUNNING) : Holding s' a own where
  wf := h.wf
  held := fun q hq => (hlock q).mpr (h.held q hq)
  holder := fun q hq => h.holder q ((hlock q).mp hq)
  cpu := by
    intro c q hc hq
    rw [hcpu c hc] at hq
    exact h.cpu c q hc hq
  arriving := by
    intro p hp haway hl
    have hl' := (hlock p).mp hl
    exact hstate p hp hl' (h.arriving p hp haway hl')

variable {f : Proc → Proc}

/-- An agent that holds the lock of slot `q` neither before nor after a write to that slot. -/
theorem Inv.holding_modify {b : Agent} (h : Inv strict quiet s g)
    (hproc : s'.proc = (s.modify q f).proc)
    (hcpu : ∀ c, b = .cpu c → s'.cpuProc c = s.cpuProc c) (hold : (s.proc q).lock ≠ some b)
    (hnew : (f (s.proc q)).lock ≠ some b) : Holding s' b (g b) := by
  refine (h.holding b).other ?_ hcpu ?_
  · rw [hproc]
    exact forall_modify (P := fun r new => new.lock = some b ↔ (s.proc r).lock = some b)
      (iff_of_false hnew hold) fun _ _ => Iff.rfl
  · intro r _ hr hrunning
    have hne : r ≠ q := by
      rintro rfl
      exact hold hr
    rwa [hproc, proc_modify_of_ne hne]

theorem forall_self {P : Slot → Prop} (h : P p) : ∀ r, Agent.proc p = .proc r → P r := by
  rintro r ⟨⟩
  exact h

/-- The rules for an operation of a process, from what it knows and holds. -/
theorem triple_proc {o : Op} {post : Res o → Own → Prop} (hneeds : needs strict o own)
    (hstep : ∀ s g ok, Inv strict quiet s g → g (.proc p) = own → Knows strict s p own →
      Holding s (.proc p) own → (discipline strict quiet).guard (.proc p) o s →
      (exec (.proc p) ok o s).Ensures (fun _ => True) fun result s' =>
        ∃ own', Inv strict quiet s' (update g (.proc p) own') ∧ post result own') :
    Triple strict quiet (.proc p) own (.perform o) post := by
  refine .perform rfl hneeds fun s g ok hinv hown hguard => ?_
  refine hstep s g ok hinv hown ?_ ?_ hguard
  · exact hown ▸ hinv.knows p
  · exact hown ▸ hinv.holding (.proc p)

theorem moves_proc {o : Op} {own' : Own} (hneeds : needs strict o own)
    (hstep : ∀ s g ok, Inv strict quiet s g → g (.proc p) = own → Knows strict s p own →
      Holding s (.proc p) own → (discipline strict quiet).guard (.proc p) o s →
      (exec (.proc p) ok o s).Ensures (fun _ => True) fun _ s' =>
        Inv strict quiet s' (update g (.proc p) own')) :
    Moves strict quiet (.proc p) own (.perform o) own' :=
  triple_proc hneeds fun s g ok hinv hown hknows hholding hguard =>
    (hstep s g ok hinv hown hknows hholding hguard).mono fun _ _ h => ⟨own', h, rfl⟩

/-! ### Steps that create and free no process -/

/-- The new slot is as free and as dead as the old one. -/
structure Mild (old new : Proc) : Prop where
  unused : new.state = .UNUSED ↔ old.state = .UNUSED
  zombie : new.state = .ZOMBIE ↔ old.state = .ZOMBIE
  record : old.state = .ZOMBIE → new.pid = old.pid ∧ new.xstate = old.xstate

theorem Mild.refl (old : Proc) : Mild old old := ⟨Iff.rfl, Iff.rfl, fun _ => ⟨rfl, rfl⟩⟩

variable {old new : Proc}

theorem Mild.of_live (hold : old.state.Live) (hnew : new.state.Live) : Mild old new where
  unused := iff_of_false hnew.1 hold.1
  zombie := iff_of_false hnew.2 hold.2
  record := fun hzombie => absurd hzombie hold.2

theorem Mild.of_unused (hold : old.state = .UNUSED) (hnew : new.state = .UNUSED) :
    Mild old new where
  unused := iff_of_true hnew hold
  zombie := by simp [hold, hnew]
  record := fun hzombie => absurd (hold.symm.trans hzombie) (by decide)

theorem Mild.of_eq (hstate : new.state = old.state) (hpid : new.pid = old.pid)
    (hxstate : new.xstate = old.xstate) : Mild old new where
  unused := by rw [hstate]
  zombie := by rw [hstate]
  record := fun _ => ⟨hpid, hxstate⟩

theorem Mild.live_iff (h : Mild old new) : new.state.Live ↔ old.state.Live :=
  and_congr (not_congr h.unused) (not_congr h.zombie)

/-- No process is created, exits or is freed. -/
structure Calm (s s' : State) : Prop where
  mild : ∀ q, Mild (s.proc q) (s'.proc q)
  stamp : s'.stamp = s.stamp
  nextStamp : s'.nextStamp = s.nextStamp
  exits : s'.exits = s.exits
  waits : s'.waits = s.waits

theorem Calm.modify (h : Mild (s.proc q) (f (s.proc q))) : Calm s (s.modify q f) where
  mild := forall_modify h fun _ _ => .refl _
  stamp := rfl
  nextStamp := rfl
  exits := rfl
  waits := rfl

theorem RecordsOk.calm (h : RecordsOk s) (hcalm : Calm s s') : RecordsOk s' where
  distinct := by
    intro q r hq hr
    rw [hcalm.stamp]
    exact h.distinct q r (mt (hcalm.mild q).unused.mpr hq) (mt (hcalm.mild r).unused.mpr hr)
  fresh := by
    rw [hcalm.exits, hcalm.nextStamp]
    exact h.fresh
  live := by
    intro q hq
    rw [hcalm.exits, hcalm.stamp]
    exact h.live q ((hcalm.mild q).live_iff.mp hq)
  zombie := by
    intro q hq
    have hzombie := (hcalm.mild q).zombie.mp hq
    obtain ⟨hpid, hxstate⟩ := (hcalm.mild q).record hzombie
    rw [hcalm.exits, hcalm.stamp, hcalm.waits, hpid, hxstate]
    exact h.zombie q hzombie
  exits := by
    rw [hcalm.exits, hcalm.waits]
    intro e he
    rcases h.exits e he with ⟨q, hq, hstamp⟩ | hwait
    · exact .inl ⟨q, (hcalm.mild q).zombie.mpr hq, by rw [hcalm.stamp]; exact hstamp⟩
    · exact .inr hwait
  waits := by
    rw [hcalm.exits, hcalm.waits]
    exact h.waits
  exitOnce := by
    rw [hcalm.exits]
    exact h.exitOnce
  waitOnce := by
    rw [hcalm.waits]
    exact h.waitOnce

/-- The parents may change as long as those of the processes that exist stay alive and older. -/
theorem TreeOk.calm (h : TreeOk s) (hcalm : Calm s s') (hinit : (s'.proc initproc).parent = none)
    (hparent : ∀ q, q ≠ initproc → (s.proc q).state ≠ .UNUSED →
      (s'.proc q).parent = (s.proc q).parent ∨ (s'.proc q).parent = some initproc) :
    TreeOk s' where
  init := (hcalm.mild _).live_iff.mpr h.init
  initParent := hinit
  initStamp := (congrFun hcalm.stamp _).trans h.initStamp
  tree := by
    intro q hq hused
    have hused' := mt (hcalm.mild q).unused.mpr hused
    obtain ⟨r, hr, hlive, hlt⟩ := h.tree q hq hused'
    rw [hcalm.stamp]
    rcases hparent q hq hused' with hsame | hnew
    · exact ⟨r, hsame.trans hr, (hcalm.mild r).live_iff.mpr hlive, hlt⟩
    · refine ⟨initproc, hnew, (hcalm.mild _).live_iff.mpr h.init, ?_⟩
      rw [h.initStamp]
      omega
  stamps := by
    rw [hcalm.stamp, hcalm.nextStamp]
    exact h.stamps

variable {alive : ProcState → Bool}

theorem KillsOk.calm (h : KillsOk alive s) (hcalm : Calm s s')
    (hkilled : ∀ q, (s'.proc q).killed = true → (s.proc q).killed = true)
    (hnamed : s'.namedAt = s.namedAt) (hbirths : s'.births = s.births)
    (hhits : s'.killHits = s.killHits) : KillsOk alive s' where
  unused := h.unused
  killed := by
    intro q hq
    rw [ne_eq, (hcalm.mild q).unused, hnamed]
    exact h.killed q (hkilled q hq)
  births := by
    rw [hbirths]
    exact h.births
  hits := by
    rw [hhits]
    exact h.hits

/-- A change that sets no flag `killed` keeps what is known about killing. -/
theorem KillsOk.modify (h : KillsOk alive s) (hcalm : Calm s (s.modify q f))
    (hkilled : (f (s.proc q)).killed = true → (s.proc q).killed = true) :
    KillsOk alive (s.modify q f) :=
  h.calm hcalm (forall_modify (P := fun r new => new.killed = true →
    (s.proc r).killed = true) hkilled
    fun _ _ h => h) rfl rfl rfl

/-! ### Steps that only change locks, channels, flags, and the states of live processes -/

/-- Besides creating and freeing no process, the step changes no parent. -/
structure Same (s s' : State) : Prop extends Calm s s' where
  parent : ∀ q, (s'.proc q).parent = (s.proc q).parent
  originalParent : s'.originalParent = s.originalParent

theorem Same.refl (s : State) : Same s s :=
  ⟨⟨fun _ => .refl _, rfl, rfl, rfl, rfl⟩, fun _ => rfl, rfl⟩

theorem Same.modify (hmild : Mild (s.proc q) (f (s.proc q)))
    (hparent : (f (s.proc q)).parent = (s.proc q).parent) : Same s (s.modify q f) where
  toCalm := .modify hmild
  parent := forall_modify (P := fun r new => new.parent = (s.proc r).parent) hparent fun _ _ => rfl
  originalParent := rfl

theorem TreeOk.same (h : TreeOk s) (hsame : Same s s') : TreeOk s' :=
  h.calm hsame.toCalm ((hsame.parent _).trans h.initParent) fun q _ _ => .inl (hsame.parent q)

theorem Knows.same (h : Knows strict s p own) (hsame : Same s s')
    (hrunning : (s.proc p).state = .RUNNING → (s'.proc p).state = .RUNNING) :
    Knows strict s' p own where
  running := fun hphase => hrunning (h.running hphase)
  live := fun hphase => (hsame.mild p).live_iff.mpr (h.live hphase)
  forking := by
    intro np adopted hphase
    rw [(hsame.mild np).unused, hsame.parent np]
    exact h.forking np adopted hphase
  exiting := by
    intro parent left hphase
    obtain ⟨hinit, hleft⟩ := h.exiting parent left hphase
    refine ⟨hinit, fun q hq => ?_⟩
    rw [hsame.parent q]
    exact hleft q hq
  target := by
    intro q hq
    rw [(hsame.mild p).live_iff, hsame.parent q, ne_eq, (hsame.mild q).unused]
    exact h.target q hq
  remembered := by
    rw [hsame.originalParent, hsame.stamp]
    exact h.remembered
  order := by
    rw [hsame.stamp]
    exact h.order

theorem Same.rely (hsame : Same s s')
    (hheld : ∀ q, (s.proc q).lock = some (.proc p) → s'.proc q = s.proc q)
    (hrunning : (s.proc p).state = .RUNNING → (s'.proc p).state = .RUNNING) :
    Rely strict p s s' where
  running := hrunning
  live := fun hlive => ⟨(hsame.mild p).live_iff.mpr hlive, congrFun hsame.stamp p⟩
  held := fun q hq => ⟨hheld q hq, congrFun hsame.stamp q⟩
  child := by
    intro q hparent hused
    exact ⟨(hsame.parent q).trans hparent, mt (hsame.mild q).unused.mp hused,
      congrFun hsame.stamp q⟩
  parent := fun _ q hq => (hsame.parent q).symm.trans hq
  remembered := congrFun hsame.originalParent p
  parentStamp := fun _ r _ => congrFun hsame.stamp r

section

variable (h : Inv strict quiet s g) (hsame : Same s s') (hself : Holding s' a own)
  (hothers : ∀ b, b ≠ a → Holding s' b (g b))
include h

include hself hothers in
theorem Inv.step (hrely : ∀ p, a ≠ .proc p → Rely strict p s s')
    (hknows : ∀ p, a = .proc p → Knows strict s' p own) (htree : TreeOk s')
    (hadopted : ∀ q r, (s'.proc q).parent = some r → (s'.proc q).state ≠ .UNUSED ∨
      (update g a own (.proc r)).phase = .forking q true)
    (hrecords : RecordsOk s') (hkills : ∀ alive, quiet alive → KillsOk alive s') :
    Inv strict quiet s' (update g a own) where
  holding := (forall_update_iff g fun b own => Holding s' b own).mpr ⟨hself, hothers⟩
  knows := by
    intro p
    by_cases hp : a = .proc p
    · subst hp
      simpa using hknows p rfl
    · have hne : Agent.proc p ≠ a := fun he => hp he.symm
      rw [update_of_ne hne]
      exact (h.knows p).rely (h.holding (.proc p)) (hrely p hp)
  tree := htree
  adopted := hadopted
  records := hrecords
  kills := hkills

include hsame

/-- The slots that `fork` has adopted, after a step that changes no parent. -/
theorem Inv.adopted_same
    (hphase : ∀ q, (g a).phase = .forking q true → own.phase = .forking q true) (q r : Slot)
    (hparent : (s'.proc q).parent = some r) : (s'.proc q).state ≠ .UNUSED ∨
      (update g a own (.proc r)).phase = .forking q true := by
  rw [hsame.parent q] at hparent
  rw [ne_eq, (hsame.mild q).unused]
  refine (h.adopted q r hparent).imp_right fun hforking => ?_
  by_cases hr : Agent.proc r = a
  · subst hr
    simpa using hphase q hforking
  · simpa [hr] using hforking

include hself hothers

/-- A step that only changes locks, channels, flags, and the states of live processes. -/
theorem Inv.step_same
    (hheld : ∀ p, a ≠ .proc p → ∀ q, (s.proc q).lock = some (.proc p) → s'.proc q = s.proc q)
    (hrunning : ∀ p, a ≠ .proc p → (s.proc p).state = .RUNNING → (s'.proc p).state = .RUNNING)
    (hknows : ∀ p, a = .proc p → Knows strict s' p own)
    (hphase : ∀ q, (g a).phase = .forking q true → own.phase = .forking q true)
    (hkills : ∀ alive, quiet alive → KillsOk alive s') : Inv strict quiet s' (update g a own) :=
  h.step hself hothers (fun p hp => hsame.rely (hheld p hp) (hrunning p hp)) hknows
    (h.tree.same hsame) (h.adopted_same hsame hphase) (h.records.calm hsame.toCalm) hkills

end

end Xv6.ProcTable
