import Xv6.ProcTable.Code

/-!
# Properties of the process table

What holds in every configuration that the processes and the schedulers can reach: who waits for
whose lock, what becomes of exit statuses, and which processes are killed.
-/

namespace Xv6.ProcTable

open Interleave Discipline Machine List

/-! ### The invariant in every configuration -/

section Invariant

variable {strict : Prop} {quiet : (ProcState → Bool) → Prop}
  {config : Config Agent Op Res State Label}

theorem proc_boot_init :
    State.boot.proc initproc = { Proc.zero with state := .RUNNABLE, pid := 1 } := by
  simp [State.boot]

theorem proc_boot_of_ne {q : Slot} (h : q ≠ initproc) : State.boot.proc q = .zero := by
  simp [State.boot, h]

theorem eq_init_of_used {q : Slot} (h : (State.boot.proc q).state ≠ .UNUSED) : q = initproc := by
  by_contra hq
  rw [proc_boot_of_ne hq] at h
  exact h rfl

theorem proc_boot (q : Slot) : (State.boot.proc q).lock = none ∧
    (State.boot.proc q).parent = none ∧ (State.boot.proc q).killed = false ∧
      (State.boot.proc q).state ≠ .ZOMBIE := by
  by_cases hq : q = initproc
  · rw [hq, proc_boot_init]
    exact ⟨rfl, rfl, rfl, by simp⟩
  · rw [proc_boot_of_ne hq]
    exact ⟨rfl, rfl, rfl, by simp [Proc.zero]⟩

/-- What every agent knows when the schedulers start. -/
def bootOwn : Agent → Own
  | .proc _ => ⟨[], none, .out⟩
  | .cpu _ => ⟨[], none, .idle⟩

theorem holding_boot (a : Agent) : Holding .boot a (bootOwn a) where
  wf := by
    cases a with
    | proc p =>
      exact ⟨nodup_nil, fun _ => rfl, nofun, nofun, fun _ _ h => h.elim nofun nofun,
        fun _ _ => ⟨nofun, nofun⟩, nofun⟩
    | cpu c => exact ⟨nodup_nil, nofun, nofun, nofun, nofun, nofun, fun _ _ => rfl⟩
  held := by
    intro q hq
    cases a <;> simp [bootOwn] at hq
  holder := by
    intro q hq
    rw [(proc_boot q).1] at hq
    cases hq
  cpu := nofun
  arriving := by
    intro p _ _ hp
    rw [(proc_boot p).1] at hp
    cases hp

section

variable (hquiet : ∀ alive, quiet alive → alive .UNUSED = false)
include hquiet

theorem inv_boot : Inv strict quiet .boot bootOwn where
  holding := holding_boot
  knows := fun _ => ⟨nofun, fun h => h.elim nofun nofun, nofun, nofun, nofun, nofun, nofun⟩
  tree := by
    refine ⟨?_, (proc_boot _).2.1, rfl, ?_, fun _ => Nat.zero_lt_one⟩
    · rw [proc_boot_init]
      exact ProcState.live_runnable
    · exact fun q hq hused => absurd (eq_init_of_used hused) hq
  adopted := by
    intro q r hr
    rw [(proc_boot q).2.1] at hr
    cases hr
  records := by
    refine ⟨?_, nofun, fun _ _ => nofun, ?_, nofun, nofun, nodup_nil, nodup_nil⟩
    · intro q r hq hr _
      rw [eq_init_of_used hq, eq_init_of_used hr]
    · exact fun q hq => absurd hq (proc_boot q).2.2.2
  kills := by
    intro alive halive
    refine ⟨hquiet alive halive, ?_, nofun, nofun⟩
    intro q hq
    rw [(proc_boot q).2.2.1] at hq
    cases hq

/-- The invariant holds in every configuration of every run whose operations meet the guard. -/
theorem holds_run {cond : Agent → Op → State → Bool}
    (hguard : ∀ a o s, cond a o s = true → (discipline strict quiet).guard a o s)
    (h : machine.Run (fun c e => Machine.atStep cond c e = true) powerOn config) :
    (discipline strict quiet).Holds config := by
  have hstart : (discipline strict quiet).Holds powerOn := by
    refine ⟨⟨bootOwn, inv_boot hquiet, fun a => ?_⟩, nofun⟩
    cases a <;> rfl
  exact holds_of_run codeSafe hstart (h.mono fun c e he => meets_of_atStep hguard he)

end

end Invariant

/-! ### Waiting for locks -/

section Waiting

variable {config : Config Agent Op Res State Label} {a b : Agent}

/-- The slot whose lock an agent is about to acquire. -/
def waitsOn (config : Config Agent Op Res State Label) (a : Agent) : Option Slot :=
  match config.prog a with
  | .op (.acquire q) _ => some q
  | _ => none

/-- Agent `a` is about to acquire a lock that agent `b` holds. -/
def WaitsFor (config : Config Agent Op Res State Label) (a b : Agent) : Prop :=
  ∃ q, waitsOn config a = some q ∧ (config.state.proc q).lock = some b

theorem eq_acquire_of_waitsOn {q : Slot} (h : waitsOn config a = some q) :
    ∃ next, config.prog a = .op (.acquire q) next := by
  unfold waitsOn at h
  split at h
  next r next hprog =>
    cases h
    exact ⟨next, hprog⟩
  next => cases h

section

variable (hholds : (discipline True fun _ => False).Holds config)
include hholds

/-- Who holds a lock and waits for another one waits for that of a younger process. -/
theorem stamp_lt_of_waitsFor {q r : Slot}
    (hlock : (config.state.proc q).lock = some b) (hwaits : waitsOn config b = some r) :
    config.state.stamp q < config.state.stamp r := by
  obtain ⟨g, hinv, hready⟩ := hholds.state
  obtain ⟨next, hprog⟩ := eq_acquire_of_waitsOn hwaits
  have hb := hready b
  rw [hprog] at hb
  obtain ⟨⟨hactive, hwant⟩, -⟩ := hb
  have hq : q ∈ (g b).held := ((hinv.holding b).mem_iff hactive).mpr hlock
  rcases hwant with hnone | ⟨htarget, hnot⟩
  · rw [hnone] at hq
    cases hq
  · cases b with
    | proc p => exact (hinv.knows p).order trivial r htarget (hnot trivial) q hq
    | cpu c => simpa using ((hinv.holding (.cpu c)).wf.cpu c rfl).symm.trans htarget

/-- Along a chain of agents that wait for each other, the locks that they want get younger. -/
theorem stamp_lt_of_transGen
    (h : Relation.TransGen (WaitsFor config) a b) {r : Slot} (hwaits : waitsOn config b = some r) :
    ∃ q, waitsOn config a = some q ∧ config.state.stamp q < config.state.stamp r := by
  induction h generalizing r with
  | single hab =>
    obtain ⟨q, hq, hlock⟩ := hab
    exact ⟨q, hq, stamp_lt_of_waitsFor hholds hlock hwaits⟩
  | tail _ hbc ih =>
    obtain ⟨q, hq, hlock⟩ := hbc
    obtain ⟨t, ht, hlt⟩ := ih hq
    exact ⟨t, ht, hlt.trans (stamp_lt_of_waitsFor hholds hlock hwaits)⟩

end

/-- In every run in which no child is put into the slot that a process in `exit` remembers as
its parent's, no configuration has a cycle of agents each waiting for a lock of the next. -/
theorem locks_acyclic {config : Config Agent Op Res State Label}
    (h : machine.Run (fun c e => Machine.atStep (fun _ => noReuse) c e = true) powerOn config)
    (a : Agent) : ¬Relation.TransGen (WaitsFor config) a a := by
  have hholds : (discipline True fun _ => False).Holds config :=
    holds_run (fun _ hf => hf.elim) (fun _ _ _ hcond => ⟨fun _ => hcond, fun _ hf => hf.elim⟩) h
  intro hcycle
  obtain ⟨b, ⟨r, hr, -⟩, -⟩ := Relation.TransGen.head'_iff.mp hcycle
  obtain ⟨q, hq, hlt⟩ := stamp_lt_of_transGen hholds hcycle hr
  obtain rfl : r = q := Option.some.inj (hr.symm.trans hq)
  exact lt_irrefl _ hlt

end Waiting

/-- A call of an agent and a number of its steps, in which allocations and copies succeed. -/
def callSteps (a : Agent) (call : Call) (steps : Nat) : List (Event Agent Call Bool) :=
  .call a call true :: List.replicate steps (.step a true)

/-- The scheduler of CPU `c` passes over `n` slots and switches to the process in the next one,
which returns to user space. -/
def dispatch (c : Cpu) (n : Nat) : List (Event Agent Call Bool) :=
  (List.replicate n (callSteps (.cpu c) .goOn 3)).flatten ++ callSteps (.cpu c) .goOn 2 ++
    callSteps (.proc (Fin.ofNat NPROC n)) .start 2

/-- Process 0 forks process 1, which forks process 2, which forks process 3. Each `fork` passes
over the slots before the one it finds. -/
def threeForks : List (Event Agent Call Bool) :=
  dispatch 0 0 ++ callSteps (.proc 0) .fork 12 ++ dispatch 1 1 ++ callSteps (.proc 1) .fork 15 ++
    dispatch 2 2 ++ callSteps (.proc 2) .fork 18 ++ dispatch 3 3

/-- Process 1 exits, and its scheduler takes its lock and releases it. -/
def exitOne : List (Event Agent Call Bool) :=
  callSteps (.proc 1) (.exit 7) 26 ++ [.step (.cpu 1) true, .step (.cpu 1) true]

/-- Process 0 waits for process 1. -/
def waitOne : List (Event Agent Call Bool) :=
  callSteps (.proc 0) (.wait 4096) 1 ++ callSteps (.proc 0) .goOn 6

theorem locks_acyclic_threeForks :
    ∃ config, machine.Run (fun c e => Machine.atStep (fun _ => noReuse) c e = true)
        powerOn config ∧ waitsOn config (.proc 2) = some 1 ∧
      ∀ a, ¬Relation.TransGen (WaitsFor config) a a := by
  have hplay : (machine.play (Machine.atStep fun _ => noReuse)
      (threeForks ++ callSteps (.proc 2) (.exit 0) 7) powerOn).map
        (fun c => waitsOn c (.proc 2)) = some (some 1) := by
    decide +kernel
  obtain ⟨config, hrun, hwaits⟩ := exists_run_of_play hplay
  exact ⟨config, hrun, hwaits, locks_acyclic hrun⟩

/-- Process 2 begins to exit and remembers slot 1. Process 1 exits, process 0 frees it, and
process 3 forks into slot 1. Process 3 locks itself and looks for its child in slot 1, while
process 2 locks slot 1, locks itself and looks for its child, process 3. -/
def reusedSlot : List (Event Agent Call Bool) :=
  threeForks ++ callSteps (.proc 2) (.exit 0) 7 ++ exitOne ++ waitOne ++
    callSteps (.proc 3) .fork 12 ++ callSteps (.proc 3) (.wait 0) 1 ++
    callSteps (.proc 3) .goOn 2 ++ List.replicate 6 (.step (.proc 2) true)

/-- Two processes can wait for each other's locks. -/
theorem locks_deadlock :
    ∃ config, machine.Run (fun _ _ => True) powerOn config ∧ config.panicked = none ∧
      WaitsFor config (.proc 2) (.proc 3) ∧ WaitsFor config (.proc 3) (.proc 2) ∧
      Relation.TransGen (WaitsFor config) (.proc 2) (.proc 2) := by
  have hplay : (machine.play (fun _ _ => true) reusedSlot powerOn).map
      (fun c => (c.panicked, waitsOn c (.proc 2), (c.state.proc 3).lock, waitsOn c (.proc 3),
        (c.state.proc 1).lock)) =
      some (none, some 3, some (.proc 3), some 1, some (.proc 2)) := by
    decide +kernel
  obtain ⟨config, hrun, hvalue⟩ := exists_any_run hplay
  simp only [Prod.mk.injEq] at hvalue
  obtain ⟨hpanicked, htwo, hlock, hthree, hlock'⟩ := hvalue
  have hfirst : WaitsFor config (.proc 2) (.proc 3) := ⟨3, htwo, hlock⟩
  have hsecond : WaitsFor config (.proc 3) (.proc 2) := ⟨1, hthree, hlock'⟩
  exact ⟨config, hrun, hpanicked, hfirst, hsecond, .tail (.single hfirst) hsecond⟩

/-! ### Parents -/

/-- The processes are a tree: `initproc` has no parent, and from every other process the parents
lead to it, all of them alive. -/
theorem processes_form_tree (c : machine.Reachable powerOn) :
    (c.1.state.proc initproc).parent = none ∧ ∀ q, (c.1.state.proc q).state ≠ .UNUSED →
      Relation.ReflTransGen (fun child r => (c.1.state.proc child).parent = some r ∧
        (c.1.state.proc r).state.Live) q initproc := by
  have hholds : (discipline False fun _ => False).Holds c.1 :=
    holds_run (fun _ hf => hf.elim) (fun _ _ _ _ => ⟨fun hf => hf.elim, fun _ hf => hf.elim⟩)
      (c.2.mono fun c e _ => atStep_true c e)
  obtain ⟨g, hinv, -⟩ := hholds.state
  refine ⟨hinv.tree.initParent, fun q hq => ?_⟩
  -- parents are older than their children
  induction hk : c.1.state.stamp q using Nat.strong_induction_on generalizing q with
  | _ k ih =>
    by_cases hinit : q = initproc
    · exact hinit ▸ .refl
    · obtain ⟨r, hparent, hlive, hlt⟩ := hinv.tree.tree q hinit hq
      exact .head ⟨hparent, hlive⟩ (ih _ (hk ▸ hlt) r hlive.1 rfl)

theorem processes_form_tree_threeForks : ∃ c : machine.Reachable powerOn,
    (c.1.state.proc 3).parent = some 2 ∧
      Relation.ReflTransGen (fun child r => (c.1.state.proc child).parent = some r ∧
        (c.1.state.proc r).state.Live) 3 initproc := by
  have hplay : (machine.play (fun _ _ => true) threeForks powerOn).map
      (fun c => ((c.state.proc 3).parent, (c.state.proc 3).state)) = some (some 2, .RUNNING) := by
    decide +kernel
  obtain ⟨config, hany, hvalue⟩ := exists_any_run hplay
  obtain ⟨hparent, hstate⟩ := Prod.mk.inj hvalue
  refine ⟨⟨config, hany⟩, hparent, (processes_form_tree ⟨config, hany⟩).2 3 ?_⟩
  exact fun hunused => nomatch hstate.symm.trans hunused

/-! ### Exit statuses -/

/-- Exit statuses are delivered exactly once. Every process but the first has a parent that is
neither free nor a zombie. A process that has exited is a zombie with its status until a `wait`
frees it; no two `wait`s free the same process, the caller was the parent, and it returned the pid
and the status of the process. Nothing else is ever freed by `wait`. A `wait` whose `copyout` fails
changes nothing. -/
theorem exit_status_once {config : Config Agent Op Res State Label}
    (h : machine.Run (fun _ _ => True) powerOn config) :
    (∀ q, q ≠ initproc → (config.state.proc q).state ≠ .UNUSED →
      ∃ r, (config.state.proc q).parent = some r ∧ (config.state.proc r).state ≠ .UNUSED ∧
        (config.state.proc r).state ≠ .ZOMBIE) ∧
    (∀ e ∈ config.state.exits,
      (∃ q, config.state.stamp q = e.stamp ∧ (config.state.proc q).state = .ZOMBIE ∧
        (config.state.proc q).pid = e.pid ∧ (config.state.proc q).xstate = e.status ∧
        ∀ w ∈ config.state.waits, w.child ≠ e.stamp) ∨
      ∃ w ∈ config.state.waits, w.child = e.stamp ∧ w.parent = some w.caller ∧ w.pid = e.pid ∧
        (∀ status ∈ w.status, status = e.status) ∧
        ∀ w' ∈ config.state.waits, w'.child = e.stamp → w' = w) ∧
    (∀ w ∈ config.state.waits, ∃ e ∈ config.state.exits, e.stamp = w.child) ∧
    (config.state.waits.map WaitRecord.child).Nodup ∧
    (∀ q, (config.state.proc q).state = .ZOMBIE →
      ∀ w ∈ config.state.waits, w.child ≠ config.state.stamp q) ∧
    ∀ (p q : Slot) (addr : Nat) (s : State), addr ≠ 0 → (s.proc q).state = .ZOMBIE →
      exec (.proc p) false (.collect q addr) s = .done .fault s := by
  have hholds : (discipline False fun _ => False).Holds config :=
    holds_run (fun _ hf => hf.elim) (fun _ _ _ _ => ⟨fun hf => hf.elim, fun _ hf => hf.elim⟩)
      (h.mono fun c e _ => atStep_true c e)
  obtain ⟨g, hinv, -⟩ := hholds.state
  have hrecords := hinv.records
  -- records of the same process are equal, since stamps occur once in each list
  have hexit : ∀ e ∈ config.state.exits, ∀ e' ∈ config.state.exits, e.stamp = e'.stamp → e = e' :=
    fun e he e' he' => inj_on_of_nodup_map hrecords.exitOnce he he'
  have hwait : ∀ w ∈ config.state.waits, ∀ w' ∈ config.state.waits, w.child = w'.child → w = w' :=
    fun w hw w' hw' => inj_on_of_nodup_map hrecords.waitOnce hw hw'
  refine ⟨?_, ?_, ?_, hrecords.waitOnce, fun q hq => (hrecords.zombie q hq).2, ?_⟩
  · intro q hq hused
    obtain ⟨r, hr, hlive, -⟩ := hinv.tree.tree q hq hused
    exact ⟨r, hr, hlive⟩
  · intro e he
    rcases hrecords.exits e he with ⟨q, hzombie, hstamp⟩ | ⟨w, hw, hchild⟩
    · obtain ⟨hrecord, hnone⟩ := hrecords.zombie q hzombie
      obtain rfl := hexit _ hrecord e he hstamp
      exact .inl ⟨q, hstamp, hzombie, rfl, rfl, hnone⟩
    · obtain ⟨hparent, e', he', hstamp, hpid, hstatus⟩ := hrecords.waits w hw
      obtain rfl := hexit e' he' e he (hstamp.trans hchild)
      refine .inr ⟨w, hw, hchild, hparent, hpid.symm, hstatus, fun w' hw' hchild' => ?_⟩
      exact hwait w' hw' w hw (hchild'.trans hchild.symm)
  · intro w hw
    obtain ⟨-, e, he, hstamp, -⟩ := hrecords.waits w hw
    exact ⟨e, he, hstamp⟩
  · intro p q addr s haddr hzombie
    simp only [exec, execProc, hzombie, if_pos, haddr, ne_eq, not_false_eq_true, and_self]

theorem exit_status_once_waitOne : ∃ config, machine.Run (fun _ _ => True) powerOn config ∧
      (config.state.exits.map fun e => (e.pid, e.status)) = [(2, 7)] ∧
      (config.state.waits.map fun w => (w.caller, w.pid, w.status)) = [(0, 2, some 7)] ∧
      ∀ w ∈ config.state.waits, ∃ e ∈ config.state.exits, e.stamp = w.child := by
  have hplay : (machine.play (fun _ _ => true) (threeForks ++ exitOne ++ waitOne) powerOn).map
      (fun c => (c.state.exits.map fun e => (e.pid, e.status),
        c.state.waits.map fun w => (w.caller, w.pid, w.status))) =
      some ([(2, 7)], [(0, 2, some 7)]) := by
    decide +kernel
  obtain ⟨config, hany, hvalue⟩ := exists_any_run hplay
  simp only [Prod.mk.injEq] at hvalue
  exact ⟨config, hany, hvalue.1, hvalue.2, (exit_status_once hany).2.2.1⟩

/-! ### Kill -/

/-- In every run in which a slot in which `kill` finds its pid always has a process that is alive,
for any notion of being alive under which a free slot is not: a process is killed only if a `kill`
named its pid while it was alive, the child of a `fork` starts without being killed, and `kill`
returns 0 only for a process that is alive. -/
theorem kill_only_named {alive : ProcState → Bool} (halive : alive .UNUSED = false)
    {config : Config Agent Op Res State Label}
    (h : machine.Run (fun c e => Machine.atStep (fun _ => noStray alive) c e = true)
      powerOn config) :
    (∀ q, (config.state.proc q).killed = true →
      ∃ state ∈ config.state.namedAt q, alive state = true) ∧
    (∀ killed ∈ config.state.births, killed = false) ∧
    ∀ state ∈ config.state.killHits, alive state = true := by
  have hholds : (discipline False fun x => x = alive).Holds config := by
    refine holds_run ?_ ?_ h
    · intro x hx
      rwa [hx]
    · intro a o s hcond
      refine ⟨fun hf => hf.elim, fun x hx => ?_⟩
      rwa [hx]
  obtain ⟨g, hinv, -⟩ := hholds.state
  have hkills := hinv.kills alive rfl
  exact ⟨fun q hq => (hkills.killed q hq).2, hkills.births, hkills.hits⟩

/-- Being in use. -/
def inUse (state : ProcState) : Bool := state ≠ .UNUSED

/-- Process 0 forks a child and kills it. -/
def killChild : List (Event Agent Call Bool) :=
  dispatch 0 0 ++ callSteps (.proc 0) .fork 12 ++ callSteps (.proc 0) (.kill 2) 6

theorem kill_only_named_killChild :
    ∃ config, machine.Run (fun c e => Machine.atStep (fun _ => noStray inUse) c e = true)
        powerOn config ∧ (config.state.proc 1).killed = true ∧
      (∀ q, (config.state.proc q).killed = true →
        ∃ state ∈ config.state.namedAt q, inUse state = true) ∧
      (∀ killed ∈ config.state.births, killed = false) ∧
      ∀ state ∈ config.state.killHits, inUse state = true := by
  have hplay : (machine.play (Machine.atStep fun _ => noStray inUse) killChild powerOn).map
      (fun c => (c.state.proc 1).killed) = some true := by
    decide +kernel
  obtain ⟨config, hrun, hkilled⟩ := exists_run_of_play hplay
  exact ⟨config, hrun, hkilled, kill_only_named rfl hrun⟩

/-- Process 0 calls `kill(0)` and then forks. -/
def killZero : List (Event Agent Call Bool) :=
  dispatch 0 0 ++ callSteps (.proc 0) (.kill 0) 6 ++ callSteps (.proc 0) .fork 12

/-- A `fork` of process 0 fails in `kalloc`, and process 0 kills the pid that it used up. -/
def killFailed : List (Event Agent Call Bool) :=
  dispatch 0 0 ++ [.call (.proc 0) .fork true] ++ List.replicate 8 (.step (.proc 0) false) ++
    callSteps (.proc 0) (.kill 2) 6

/-- A free slot has pid 0, or the pid of a `fork` that has failed. `kill` of that pid returns 0
and marks the slot, and the next child in that slot starts killed though no `kill` has named its
pid. -/
theorem kill_marks_free_slot : (∃ config, machine.Run (fun _ _ => True) powerOn config ∧
      (config.state.killHits, config.state.births, (config.state.proc 1).state,
        (config.state.proc 1).killed, config.state.namedAt 1) =
      ([.UNUSED], [true], .RUNNABLE, true, [])) ∧
    ∃ config, machine.Run (fun _ _ => True) powerOn config ∧
      (config.state.killHits, (config.state.proc 1).state, (config.state.proc 1).killed) =
      ([.UNUSED], .UNUSED, true) := by
  constructor
  · have hplay : (machine.play (fun _ _ => true) killZero powerOn).map
        (fun c => (c.state.killHits, c.state.births, (c.state.proc 1).state,
          (c.state.proc 1).killed, c.state.namedAt 1)) =
        some ([.UNUSED], [true], .RUNNABLE, true, []) := by
      decide +kernel
    exact exists_any_run hplay
  · have hplay : (machine.play (fun _ _ => true) killFailed powerOn).map
        (fun c => (c.state.killHits, (c.state.proc 1).state, (c.state.proc 1).killed)) =
        some ([.UNUSED], .UNUSED, true) := by
      decide +kernel
    exact exists_any_run hplay

end Xv6.ProcTable
