import Xv6.Sched.System
import Mathlib.Data.Finset.Basic

/-!
# The invariant of the scheduler

What a CPU knows: the process locks it holds, how far it is in giving itself to a process and back,
and what it has seen in a slot that it has locked. A CPU claims a process from the moment at which
its scheduler has set the state `RUNNING` to the moment at which it has cleared `c->proc`. Two CPUs
never claim one process, a process that is `RUNNING` is claimed, and the context of a process is
saved unless a CPU uses it.

A CPU writes only to slots whose lock it holds. `Frame` says what the other CPUs may assume about
its steps, and `Inv.step` puts a step together.
-/

namespace Xv6.Sched

open Interleave Function Option

variable {n m : Nat}

/-! ### The history of a lock -/

/-- The thread that holds the lock after the events, if every event was possible: an `acquire` of
the free lock, a `release` by the thread that holds it, and a `swtch` away from the thread that
holds it, which leaves the lock to the other thread. -/
def holderAfter : List (LockEvent n m) → Option (Option (Thread n m))
  | [] => some none
  | .acquire t :: log => if holderAfter log = some none then some (some t) else none
  | .swtch old new :: log => if holderAfter log = some (some old) then some (some new) else none
  | .release t :: log => if holderAfter log = some (some t) then some none else none

/-! ### What a CPU knows -/

/-- How far a CPU is in giving itself to a process and back. -/
inductive Phase (n : Nat) where
  /-- A scheduler that has not chosen a process. -/
  | idle
  /-- A scheduler that has set the state `RUNNING`. -/
  | chosen (p : Fin n)
  /-- A scheduler that has also set `c->proc`. -/
  | lending (p : Fin n)
  /-- A process that runs. -/
  | running (p : Fin n)
  /-- A process that has changed its state and is about to leave the CPU. -/
  | parking (p : Fin n)
  /-- A scheduler to which a process has switched back. -/
  | returned (p : Fin n)

namespace Phase

/-- The field `c->proc`. -/
def cpuProc : Phase n → Option (Fin n)
  | .idle => none
  | .chosen _ => none
  | .lending p => some p
  | .running p => some p
  | .parking p => some p
  | .returned p => some p

/-- The process that the CPU claims. -/
def claims : Phase n → Option (Fin n)
  | .idle => none
  | .chosen p => some p
  | .lending p => some p
  | .running p => some p
  | .parking p => some p
  | .returned p => some p

/-- The process that has state `RUNNING`. -/
def runs : Phase n → Option (Fin n)
  | .chosen p => some p
  | .lending p => some p
  | .running p => some p
  | _ => none

/-- The process whose stack the CPU uses. -/
def onStack : Phase n → Option (Fin n)
  | .running p => some p
  | .parking p => some p
  | _ => none

/-- The thread that the CPU executes. -/
def thread (c : Fin m) (phase : Phase n) : Thread n m := phase.onStack.elim (.scheduler c) .proc

variable {phase : Phase n} {p : Fin n}

theorem claims_of_cpuProc (h : phase.cpuProc = some p) : phase.claims = some p := by
  cases phase with
  | idle => exact h
  | chosen q => cases h
  | _ => exact h

theorem cpuProc_of_onStack (h : phase.onStack = some p) : phase.cpuProc = some p := by
  cases phase with
  | running q | parking q => exact h
  | _ => cases h

theorem thread_eq_proc {c : Fin m} : phase.thread c = .proc p ↔ phase.onStack = some p := by
  unfold thread
  cases phase.onStack with
  | none => simp
  | some q => simp

end Phase

/-- What a CPU has seen in a slot that it has locked. -/
inductive View (n : Nat) where
  | none
  | unused (q : Fin n)
  /-- The slot is free, and its context is that of a new process. -/
  | ready (q : Fin n)
  | runnable (q : Fin n)

/-- What a CPU knows. -/
structure Own (n : Nat) where
  held : Finset (Fin n)
  phase : Phase n
  view : View n

/-- The callers of `sleep`: `wait` sleeps with the lock of the process, the others do not. -/
def SleepOk (p : Fin n) (lk : Lock n) : Option Nat → Prop
  | some _ => lk = .proc p
  | none => ∃ address, lk = .other address

/-- A context of process `p` from which it can go on. -/
def Label.Resumes (p : Fin n) : Label n → Prop
  | .forkret => True
  | .yielded q _ => q = p
  | .slept q lk caller _ => q = p ∧ SleepOk p lk caller
  | .exited q _ => q = p
  | _ => False

/-- The point to which a process returns that the CPU was given to. -/
def Label.Back (p : Fin n) (label : Label n) : Prop := ∃ rest, label = .back p rest

/-- What the phase of a CPU says about the process it is about. -/
def PhaseOk (s : State n m) (c : Fin m) (held : Finset (Fin n)) : Phase n → Prop
  | .idle => True
  | .chosen p | .lending p => p ∈ held ∧ (s.proc p).state = .RUNNING ∧ s.saved p = true
  | .running p => (s.proc p).state = .RUNNING ∧ s.saved p = false ∧ (s.cpu c).scheduler.Back p
  | .parking p => p ∈ held ∧ (s.proc p).state ≠ .RUNNING ∧ s.saved p = false ∧
      (s.cpu c).scheduler.Back p
  | .returned p => p ∈ held ∧ (s.proc p).state ≠ .RUNNING

/-- What a CPU has seen is still so. -/
def ViewOk (s : State n m) (held : Finset (Fin n)) : View n → Prop
  | .none => True
  | .unused q => q ∈ held ∧ (s.proc q).state = .UNUSED
  | .ready q => q ∈ held ∧ (s.proc q).state = .UNUSED ∧ s.saved q = true
  | .runnable q => q ∈ held ∧ (s.proc q).state = .RUNNABLE

/-- What a CPU knows is true. -/
structure Knows (s : State n m) (c : Fin m) (own : Own n) : Prop where
  held : ∀ q, s.lock (.proc q) = some c ↔ q ∈ own.held
  proc : (s.cpu c).proc = own.phase.cpuProc
  live : s.live c = own.phase.thread c
  phase : PhaseOk s c own.held own.phase
  view : ViewOk s own.held own.view

/-- The invariant. -/
structure Inv (s : State n m) (g : Fin m → Own n) : Prop where
  knows : ∀ c, Knows s c (g c)
  unique : ∀ c c' p, (g c).phase.claims = some p → (g c').phase.claims = some p → c = c'
  running : ∀ p, (s.proc p).state = .RUNNING → ∃ c, (g c).phase.runs = some p
  context : ∀ p, (s.proc p).state ≠ .UNUSED → s.saved p = true ∨ ∃ c, (g c).phase.onStack = some p
  resumes : ∀ p, s.saved p = true → (s.proc p).context.Resumes p
  log : ∀ p, holderAfter (s.log p) = some ((s.lock (.proc p)).map s.live)

/-- What a CPU knows between two calls. -/
def idle : Label n → Own n → Prop
  | .boot, own | .window, own | .scan _ _, own => own = ⟨∅, .idle, .none⟩
  | .back q _, own => own = ⟨{q}, .returned q, .none⟩
  | .forkret, own => ∃ p, own = ⟨{p}, .running p, .none⟩
  | .user, own => ∃ p, own = ⟨∅, .running p, .none⟩
  | .waiting p _, own | .yielded p _, own | .exited p _, own => own = ⟨{p}, .running p, .none⟩
  | .slept p lk caller _, own => own = ⟨{p}, .running p, .none⟩ ∧ SleepOk p lk caller

/-- Who switches has the lock of the process and no lock of another one. -/
def needs (o : Op n) (own : Own n) : Prop :=
  match o with
  | .swtchTo q point => own.held = {q} ∧ own.phase = .lending q ∧ point.Back q
  | .swtchOut p point => own.held = {p} ∧ own.phase = .parking p ∧ point.Resumes p
  | _ => True

/-- How the CPUs share the process table. Every panic is allowed. -/
def discipline (n m : Nat) [NeZero n] : Discipline (machine n m) (Own n) where
  inv := Inv
  needs := fun _ => needs
  idle := fun _ => idle
  allowed := fun _ => True
  guard := fun _ _ _ => True

section Triples

variable {α : Type} [NeZero n] (c : Fin m) (own : Own n) (prog : Code n α)

abbrev Triple (post : α → Own n → Prop) : Prop := (discipline n m).Triple c own prog post

abbrev Moves (own' : Own n) : Prop := (discipline n m).Moves c own prog own'

end Triples

/-! ### One step -/

variable {s s' : State n m} {g : Fin m → Own n} {c : Fin m} {own own' : Own n} {p q : Fin n}

/-- What the other CPUs may assume about a step of CPU `c`, which is in the given phase. -/
structure Frame (c : Fin m) (phase : Phase n) (s s' : State n m) : Prop where
  cpu : ∀ c', c' ≠ c → s'.cpu c' = s.cpu c'
  live : ∀ c', c' ≠ c → s'.live c' = s.live c'
  lock : ∀ q c', c' ≠ c → (s'.lock (.proc q) = some c' ↔ s.lock (.proc q) = some c')
  slot : ∀ q, s.lock (.proc q) ≠ some c → s'.proc q = s.proc q ∧ s'.saved q = s.saved q
  running : ∀ q, (s.proc q).state = .RUNNING → phase.claims ≠ some q →
    (s'.proc q).state = .RUNNING ∧ s'.saved q = s.saved q

variable {phase : Phase n} {held held' : Finset (Fin n)}

/-- The phase of a CPU stays right while its process keeps its lock and goes on running or not. -/
theorem PhaseOk.keep (h : PhaseOk s c held phase)
    (hback : (s'.cpu c).scheduler = (s.cpu c).scheduler)
    (hslot : ∀ p, phase.claims = some p → (phase ≠ .running p → p ∈ held → p ∈ held') ∧
      ((s'.proc p).state = .RUNNING ↔ (s.proc p).state = .RUNNING) ∧ s'.saved p = s.saved p) :
    PhaseOk s' c held' phase := by
  cases phase with
  | idle => trivial
  | chosen p | lending p =>
    obtain ⟨hheld, hstate, hsaved⟩ := hslot p rfl
    exact ⟨hheld nofun h.1, hstate.mpr h.2.1, hsaved.trans h.2.2⟩
  | running p =>
    obtain ⟨-, hstate, hsaved⟩ := hslot p rfl
    exact ⟨hstate.mpr h.1, hsaved.trans h.2.1, hback ▸ h.2.2⟩
  | parking p =>
    obtain ⟨hheld, hstate, hsaved⟩ := hslot p rfl
    exact ⟨hheld nofun h.1, fun hr => h.2.1 (hstate.mp hr), hsaved.trans h.2.2.1, hback ▸ h.2.2.2⟩
  | returned p =>
    obtain ⟨hheld, hstate, -⟩ := hslot p rfl
    exact ⟨hheld nofun h.1, fun hr => h.2 (hstate.mp hr)⟩

/-- What a CPU has seen stays right while the slot keeps its lock and its state. -/
theorem ViewOk.keep {view : View n} (h : ViewOk s held view)
    (hslot : ∀ q ∈ held, q ∈ held' ∧ (s'.proc q).state = (s.proc q).state ∧
      s'.saved q = s.saved q) : ViewOk s' held' view := by
  cases view with
  | none => trivial
  | unused q | runnable q =>
    obtain ⟨hheld, hstate, -⟩ := hslot q h.1
    exact ⟨hheld, hstate.trans h.2⟩
  | ready q =>
    obtain ⟨hheld, hstate, hsaved⟩ := hslot q h.1
    exact ⟨hheld, hstate.trans h.2.1, hsaved.trans h.2.2⟩

variable {held : Finset (Fin n)}

/-- A process that a CPU claims is `RUNNING`, or the CPU has locked it. -/
theorem PhaseOk.cases (h : PhaseOk s c held phase)
    (hclaims : phase.claims = some p) : (s.proc p).state = .RUNNING ∨ p ∈ held := by
  cases phase with
  | idle => cases hclaims
  | running r =>
    cases hclaims
    exact .inl h.1
  | chosen r | lending r | parking r | returned r =>
    cases hclaims
    exact .inr h.1

/-- A process whose stack a CPU uses has no saved context, and the CPU's scheduler waits for it. -/
theorem PhaseOk.of_onStack (h : PhaseOk s c held phase) (hstack : phase.onStack = some p) :
    s.saved p = false ∧ (s.cpu c).scheduler.Back p := by
  cases phase with
  | running r =>
    cases hstack
    exact h.2
  | parking r =>
    cases hstack
    exact h.2.2
  | _ => cases hstack

theorem PhaseOk.not_saved (h : PhaseOk s c held phase)
    (hstack : phase.onStack = some p) : s.saved p = false := (h.of_onStack hstack).1

theorem Knows.other {c' : Fin m} (h : Knows s c' own) (hne : c' ≠ c) (hframe : Frame c phase s s')
    (hclaims : ∀ p, own.phase.claims = some p → phase.claims ≠ some p) : Knows s' c' own := by
  -- a slot that this CPU has locked has not changed
  have hslot : ∀ q ∈ own.held, s'.proc q = s.proc q ∧ s'.saved q = s.saved q := by
    intro q hq
    refine hframe.slot q ?_
    rw [(h.held q).mpr hq]
    simpa using hne
  refine ⟨fun q => (hframe.lock q c' hne).trans (h.held q), ?_, ?_, ?_, ?_⟩
  · rw [hframe.cpu c' hne]
    exact h.proc
  · rw [hframe.live c' hne]
    exact h.live
  · refine h.phase.keep (by rw [hframe.cpu c' hne]) fun p hp => ⟨fun _ hheld => hheld, ?_⟩
    rcases h.phase.cases hp with hrunning | hheld
    · obtain ⟨hstate, hsaved⟩ := hframe.running p hrunning (hclaims p hp)
      exact ⟨iff_of_true hstate hrunning, hsaved⟩
    · rw [(hslot p hheld).1]
      exact ⟨Iff.rfl, (hslot p hheld).2⟩
  · refine h.view.keep fun q hq => ⟨hq, ?_⟩
    rw [(hslot q hq).1]
    exact ⟨rfl, (hslot q hq).2⟩

section

variable (h : Inv s g) (hown : g c = own) (hself : Knows s' c own')
include h

/-- Nobody claims a process that does not run and whose lock a CPU has that does not claim it. -/
theorem Inv.unclaimed (hlock : s.lock (.proc p) = some c)
    (hstate : (s.proc p).state ≠ .RUNNING) {c' : Fin m} (hne : c' ≠ c) :
    (g c').phase.claims ≠ some p := by
  intro hclaims
  rcases (h.knows c').phase.cases hclaims with hrunning | hheld
  · exact hstate hrunning
  · rw [((h.knows c').held p).mpr hheld] at hlock
    exact hne (some.inj hlock)

include hown hself

theorem Inv.step (hframe : Frame c own.phase s s')
    (hunique : ∀ p, own'.phase.claims = some p → own.phase.claims = some p ∨
      ∀ c', c' ≠ c → (g c').phase.claims ≠ some p)
    (hrunning : ∀ p, (s'.proc p).state = .RUNNING → own'.phase.runs = some p ∨
      (s.proc p).state = .RUNNING ∧ (own.phase.runs = some p → own'.phase.runs = some p))
    (hcontext : ∀ p, (s'.proc p).state ≠ .UNUSED → s'.saved p = true ∨
      own'.phase.onStack = some p ∨ (s.proc p).state ≠ .UNUSED ∧ s.saved p = s'.saved p ∧
        (own.phase.onStack = some p → own'.phase.onStack = some p))
    (hresumes : ∀ p, s'.saved p = true → (s'.proc p).context.Resumes p)
    (hlog : ∀ p, holderAfter (s'.log p) = some ((s'.lock (.proc p)).map s'.live)) :
    Inv s' (update g c own') := by
  have hupdate : update g c own' c = own' := update_self ..
  refine ⟨?_, ?_, ?_, ?_, hresumes, hlog⟩
  · intro c'
    by_cases hc : c' = c
    · rwa [hc, hupdate]
    · rw [update_of_ne hc]
      refine (h.knows c').other hc hframe fun p hp hc' => hc ?_
      exact h.unique c' c p hp (hown ▸ hc')
  · -- only CPU `c` may have a new claim
    refine unique_step (r := c) h.unique (fun c' hc p hp => ?_) fun c' hc p hother hp => ?_
    · rwa [update_of_ne hc] at hp
    · rw [hupdate] at hp
      rcases hunique p hp with hold | hnone
      · exact hc (h.unique c' c p hother (hown ▸ hold))
      · exact hnone c' hc hother
  · intro p hp
    rcases hrunning p hp with hnew | ⟨hold, hkeep⟩
    · exact ⟨c, by rw [hupdate]; exact hnew⟩
    · obtain ⟨c', hc'⟩ := h.running p hold
      by_cases hc : c' = c
      · exact ⟨c, by rw [hupdate]; exact hkeep (hown ▸ hc ▸ hc')⟩
      · exact ⟨c', by rw [update_of_ne hc]; exact hc'⟩
  · intro p hp
    rcases hcontext p hp with hsaved | hnew | ⟨hused, hsame, hkeep⟩
    · exact .inl hsaved
    · exact .inr ⟨c, by rw [hupdate]; exact hnew⟩
    · rcases h.context p hused with hsaved | ⟨c', hc'⟩
      · exact .inl (hsame ▸ hsaved)
      · by_cases hc : c' = c
        · exact .inr ⟨c, by rw [hupdate]; exact hkeep (hown ▸ hc ▸ hc')⟩
        · exact .inr ⟨c', by rw [update_of_ne hc]; exact hc'⟩

/-- A step that writes to no slot. -/
theorem Inv.still (hproc : s'.proc = s.proc) (hsaved : s'.saved = s.saved)
    (hcpu : ∀ c', c' ≠ c → s'.cpu c' = s.cpu c') (hlive : s'.live = s.live)
    (hlock : ∀ q c', c' ≠ c → (s'.lock (.proc q) = some c' ↔ s.lock (.proc q) = some c'))
    (hclaims : ∀ p, own'.phase.claims = some p → own.phase.claims = some p)
    (hruns : own'.phase.runs = own.phase.runs) (hstack : own'.phase.onStack = own.phase.onStack)
    (hlog : ∀ p, holderAfter (s'.log p) = some ((s'.lock (.proc p)).map s'.live)) :
    Inv s' (update g c own') := by
  have hframe : Frame c own.phase s s' := by
    refine ⟨hcpu, fun _ _ => by rw [hlive], hlock, ?_, ?_⟩
    · intro q _
      rw [hproc, hsaved]
      exact ⟨rfl, rfl⟩
    · intro q hq _
      rw [hproc, hsaved]
      exact ⟨hq, rfl⟩
  refine h.step hown hself hframe (fun p hp => .inl (hclaims p hp)) ?_ ?_ ?_ hlog
  · intro p hp
    rw [hproc] at hp
    exact .inr ⟨hp, fun hr => hruns.trans hr⟩
  · intro p hp
    rw [hproc] at hp
    exact .inr (.inr ⟨hp, by rw [hsaved], fun hr => hstack.trans hr⟩)
  · rw [hproc, hsaved]
    exact h.resumes

/-- A step that writes to slot `q` only, which the CPU has locked. -/
theorem Inv.slot (hq : s.lock (.proc q) = some c) (hlock : s'.lock = s.lock)
    (hcpu : ∀ c', c' ≠ c → s'.cpu c' = s.cpu c') (hlive : ∀ c', c' ≠ c → s'.live c' = s.live c')
    (hslot : ∀ r, r ≠ q → s'.proc r = s.proc r ∧ s'.saved r = s.saved r)
    (hphase : ∀ r, r ≠ q → (own'.phase.claims = some r → own.phase.claims = some r) ∧
      (own.phase.runs = some r → own'.phase.runs = some r) ∧
      (own.phase.onStack = some r → own'.phase.onStack = some r))
    (hclaims : own'.phase.claims = some q → own.phase.claims = some q ∨
      ∀ c', c' ≠ c → (g c').phase.claims ≠ some q)
    (hkeep : (s.proc q).state = .RUNNING → own.phase.claims ≠ some q →
      (s'.proc q).state = .RUNNING ∧ s'.saved q = s.saved q)
    (hrunning : (s'.proc q).state = .RUNNING → own'.phase.runs = some q ∨
      (s.proc q).state = .RUNNING ∧ (own.phase.runs = some q → own'.phase.runs = some q))
    (hcontext : (s'.proc q).state ≠ .UNUSED → s'.saved q = true ∨
      own'.phase.onStack = some q ∨ (s.proc q).state ≠ .UNUSED ∧ s.saved q = s'.saved q ∧
        (own.phase.onStack = some q → own'.phase.onStack = some q))
    (hresumes : s'.saved q = true → (s'.proc q).context.Resumes q)
    (hlog : ∀ p, holderAfter (s'.log p) = some ((s'.lock (.proc p)).map s'.live)) :
    Inv s' (update g c own') := by
  refine h.step hown hself ⟨hcpu, hlive, fun _ _ _ => by rw [hlock], ?_, ?_⟩ ?_ ?_ ?_ ?_ hlog
  · intro r hr
    refine hslot r ?_
    rintro rfl
    exact hr hq
  · intro r hr hnot
    by_cases hrq : r = q
    · subst hrq
      exact hkeep hr hnot
    · rw [(hslot r hrq).1]
      exact ⟨hr, (hslot r hrq).2⟩
  · intro r hr
    by_cases hrq : r = q
    · subst hrq
      exact hclaims hr
    · exact .inl ((hphase r hrq).1 hr)
  · intro r hr
    by_cases hrq : r = q
    · subst hrq
      exact hrunning hr
    · rw [(hslot r hrq).1] at hr
      exact .inr ⟨hr, (hphase r hrq).2.1⟩
  · intro r hr
    by_cases hrq : r = q
    · subst hrq
      exact hcontext hr
    · rw [(hslot r hrq).1] at hr
      exact .inr (.inr ⟨hr, (hslot r hrq).2.symm, (hphase r hrq).2.2⟩)
  · intro r hr
    by_cases hrq : r = q
    · subst hrq
      exact hresumes hr
    · rw [(hslot r hrq).2] at hr
      rw [(hslot r hrq).1]
      exact h.resumes r hr

end

end Xv6.Sched
