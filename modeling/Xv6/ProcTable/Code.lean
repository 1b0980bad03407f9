import Xv6.ProcTable.Family

/-!
# The code of `proc.c` keeps the invariant

The rules of the operations, put together along the code of `fork`, `exit`, `wait`, `kill`,
`sleep`, `wakeup`, `yield` and `scheduler`. The loops are followed by induction over the slots
that are left.
-/

namespace Xv6.ProcTable

open Interleave List

variable {strict : Prop} {quiet : (ProcState → Bool) → Prop} {p q : Slot} {a : Agent}
  {phase : Phase}

theorem triple_acquire_first (hactive : phase.active = true) :
    Moves strict quiet a ⟨[], none, phase⟩ (.perform (.acquire q)) ⟨[q], none, phase⟩ :=
  triple_acquire hactive (.inl ⟨rfl, rfl⟩)

variable {held : List Slot}

theorem triple_acquire_next (hactive : phase.active = true) (hnot : strict → q ∉ held) :
    Moves strict quiet a ⟨held, some q, phase⟩ (.perform (.acquire q)) ⟨q :: held, some q, phase⟩ :=
  triple_acquire hactive (.inr ⟨rfl, hnot⟩)

theorem triple_release_head {target : Option Slot}
    (hphase : phase = .running ∨ phase = .idle ∨ ∃ parent left, phase = .exiting parent left) :
    Moves strict quiet a ⟨q :: held, target, phase⟩ (.perform (.release q))
      ⟨held, none, phase⟩ := by
  have hactive : phase.active = true ∧ (∀ adopted, phase ≠ .forking q adopted) ∧
      ¬(phase = .parking ∨ phase = .exited) := by
    rcases hphase with rfl | rfl | ⟨parent, left, rfl⟩ <;> exact ⟨rfl, nofun, by simp⟩
  refine .mono (triple_release hactive.1 mem_cons_self hactive.2.1
    fun h => absurd h hactive.2.2) fun _ own' h => ?_
  rw [h, erase_cons_head]

/-! ### fork -/

/-- What a process knows when `allocproc` has returned. -/
def allocated : Option Slot → Own
  | some np => ⟨[np], none, .forking np false⟩
  | none => ⟨[], none, .running⟩

theorem triple_allocprocFound :
    Triple strict quiet (.proc p) ⟨[q], none, .forking q false⟩ (allocprocFound q)
      fun found own' => own' = allocated found := by
  refine .seq triple_allocpid ?_
  refine .bind_eq triple_kalloc fun tf => ?_
  cases tf with
  | true => exact .seq triple_uvmcreate (.ret rfl)
  | false => exact .seq (triple_release_head (.inl rfl)) (.ret rfl)

theorem triple_allocproc (rest : List Slot) :
    Triple strict quiet (.proc p) ⟨[], none, .running⟩ (allocproc rest)
      fun found own' => own' = allocated found := by
  induction rest with
  | nil => exact .ret rfl
  | cons q rest ih =>
    refine .seq (triple_acquire_first rfl) ?_
    refine .bind_eq triple_isUnused fun unused => ?_
    cases unused with
    | true => exact triple_allocprocFound
    | false => exact .seq (triple_release_head (.inl rfl)) <| ih

theorem triple_forkInto {np : Slot} :
    Moves strict quiet (.proc p) ⟨[np], none, .forking np false⟩ (forkInto np)
      ⟨[], none, .running⟩ := by
  refine .bind_eq triple_uvmcopy fun copied => ?_
  cases copied with
  | true =>
    refine .seq triple_setParent ?_
    refine .bind_eq triple_setRunnable fun pid => ?_
    exact .seq (triple_release_head (.inl rfl)) (.ret rfl)
  | false =>
    refine .seq triple_freeproc ?_
    exact .seq (triple_release_head (.inl rfl)) (.ret rfl)

theorem triple_fork : Moves strict quiet (.proc p) ⟨[], none, .running⟩ fork
      ⟨[], none, .running⟩ := by
  refine .bind_eq (triple_allocproc slots) fun found => ?_
  cases found with
  | some np => exact triple_forkInto
  | none => exact .ret rfl

/-! ### exit -/

theorem triple_reparent {parent : Slot} (left : List Slot) :
    Moves strict quiet (.proc p) ⟨[p, parent], none, .exiting (some parent) left⟩
      (reparent left) ⟨[p, parent], none, .exiting (some parent) []⟩ := by
  induction left with
  | nil => exact .ret rfl
  | cons pp left ih =>
    refine .bind triple_parentIsMe_exit fun mine own' h => ?_
    rcases h with ⟨rfl, rfl, hnot⟩ | ⟨rfl, rfl⟩
    · refine .seq (triple_acquire_next rfl hnot) ?_
      refine .seq (triple_giveToInit mem_cons_self) ?_
      exact .seq (triple_release_head (.inr (.inr ⟨_, _, rfl⟩))) <| ih
    · exact ih

variable {status : BitVec 32}

theorem triple_exitUnder {parent : Slot} :
    Moves strict quiet (.proc p) ⟨[], none, .exiting (some parent) slots⟩
      (exitUnder p parent status) ⟨[], none, .out⟩ := by
  refine .bind triple_acquire_parent ?_
  rintro _ own' ⟨rfl, hne⟩
  refine .bind (triple_acquire_self rfl rfl fun hs => by simpa using hne hs) ?_
  rintro _ own' ⟨rfl, hnot⟩
  refine .seq (triple_reparent slots) ?_
  refine .seq (triple_wakeup1 rfl (by simp)) ?_
  refine .seq (triple_setZombie mem_cons_self) ?_
  have hparent : p ≠ parent := by simpa using hnot
  refine .bind_eq (triple_release rfl (by simp) nofun fun _ h => hparent (Agent.proc.inj h))
    fun _ => ?_
  have herase : [p, parent].erase parent = [p] := by
    rw [erase_cons_tail (by simpa using hparent), erase_cons_head]
  simp only [herase]
  exact triple_sched (.inr rfl)

theorem triple_exit : Moves strict quiet (.proc p) ⟨[], none, .running⟩ (exit p status)
      ⟨[], none, .out⟩ := by
  refine .bind triple_isInit ?_
  rintro isInit own' ⟨rfl, hinit⟩
  cases isInit with
  | true => exact triple_panic
  | false =>
    refine .seq (triple_acquire_first rfl) ?_
    refine .seq (triple_wakeup1 rfl mem_cons_self) ?_
    refine .seq (triple_release_head (.inl rfl)) ?_
    refine .seq (triple_acquire_first rfl) ?_
    refine .bind_eq (triple_originalParent (hinit rfl)) fun originalParent => ?_
    refine .seq (triple_release_head (.inr (.inr ⟨_, _, rfl⟩))) ?_
    cases originalParent with
    | some parent => exact triple_exitUnder
    | none => exact triple_panic

/-! ### wait -/

/-- What a process knows when `wait` has looked at all children. -/
def scanned (p : Slot) : BitVec 32 ⊕ Bool → Own
  | .inl _ => ⟨[], none, .running⟩
  | .inr _ => ⟨[p], none, .running⟩

theorem triple_waitScan {addr : Nat} (rest : List Slot) (havekids : Bool) :
    Triple strict quiet (.proc p) ⟨[p], none, .running⟩
      (waitScan p addr havekids rest) fun result own' => own' = scanned p result := by
  induction rest generalizing havekids with
  | nil => exact .ret rfl
  | cons np rest ih =>
    refine .bind triple_parentIsMe_wait fun mine own' h => ?_
    rcases h with ⟨rfl, rfl, hnot⟩ | ⟨rfl, rfl⟩
    · refine .seq (triple_acquire_next rfl hnot) ?_
      refine .bind_eq triple_collect fun child => ?_
      cases child with
      | running => exact .seq (triple_release_head (.inl rfl)) <| ih true
      | fault =>
        refine .seq (triple_release_head (.inl rfl)) ?_
        exact .seq (triple_release_head (.inl rfl)) (.ret rfl)
      | freed pid =>
        refine .seq (triple_release_head (.inl rfl)) ?_
        exact .seq (triple_release_head (.inl rfl)) (.ret rfl)
    · exact ih havekids

variable {chan : Chan}

theorem triple_sleepLocked : Moves strict quiet (.proc p) ⟨[p], none, .running⟩ (sleepLocked chan)
      ⟨[p], none, .running⟩ := by
  refine .seq triple_setSleeping ?_
  refine .seq (triple_sched (.inl rfl)) ?_
  refine .seq (triple_resume rfl) ?_
  exact triple_clearChan rfl mem_cons_self

theorem triple_waitRound {addr : Nat} :
    Triple strict quiet (.proc p) ⟨[p], none, .running⟩ (waitRound p addr)
      fun label own' => idle (.proc p) label own' := by
  refine .bind_eq (triple_waitScan slots false) fun result => ?_
  cases result with
  | inl a0 => exact .ret rfl
  | inr havekids =>
    refine .bind_eq triple_isKilled fun killed => ?_
    split
    · exact .seq (triple_release_head (.inl rfl)) (.ret rfl)
    · exact .seq triple_sleepLocked (.ret rfl)

/-! ### kill, wakeup, sleep, yield, and the scheduler -/

theorem triple_killLoop {pid : BitVec 32} (rest : List Slot) :
    Moves strict quiet (.proc p) ⟨[], none, .running⟩ (kill pid rest) ⟨[], none, .running⟩ := by
  induction rest with
  | nil => exact .ret rfl
  | cons q rest ih =>
    refine .seq (triple_acquire_first rfl) ?_
    refine .bind_eq (triple_kill rfl mem_cons_self) fun hit => ?_
    refine .seq (triple_release_head (.inl rfl)) ?_
    cases hit with
    | true => exact .ret rfl
    | false => exact ih

theorem triple_wakeupLoop (rest : List Slot) :
    Moves strict quiet (.proc p) ⟨[], none, .running⟩ (wakeup chan rest) ⟨[], none, .running⟩ := by
  induction rest with
  | nil => exact .ret rfl
  | cons q rest ih =>
    refine .seq (triple_acquire_first rfl) ?_
    refine .seq (triple_wakeup rfl mem_cons_self) ?_
    exact .seq (triple_release_head (.inl rfl)) <| ih

theorem triple_sleep : Moves strict quiet (.proc p) ⟨[], none, .running⟩ (sleep p chan)
      ⟨[], none, .running⟩ := by
  refine .seq (triple_acquire_first rfl) ?_
  refine .seq triple_sleepLocked ?_
  exact triple_release_head (.inl rfl)

theorem triple_yield : Moves strict quiet (.proc p) ⟨[], none, .running⟩ (yield p)
      ⟨[], none, .running⟩ := by
  refine .seq (triple_acquire_first rfl) ?_
  refine .seq triple_giveUp ?_
  refine .seq (triple_sched (.inl rfl)) ?_
  refine .seq (triple_resume rfl) ?_
  exact triple_release_head (.inl rfl)

theorem triple_forkret : Moves strict quiet (.proc p) ⟨[], none, .out⟩ (forkret p)
      ⟨[], none, .running⟩ := by
  refine .seq (triple_resume rfl) ?_
  exact triple_release_head (.inl rfl)

theorem triple_scheduleSlot {c : Cpu} :
    Moves strict quiet (.cpu c) ⟨[], none, .idle⟩ (scheduleSlot q) ⟨[], none, .idle⟩ := by
  refine .seq (triple_acquire_first rfl) ?_
  refine .bind_eq triple_swtch fun switched => ?_
  cases switched with
  | true =>
    refine .seq triple_regain ?_
    exact triple_release_head (.inr (.inl rfl))
  | false => exact triple_release_head (.inr (.inl rfl))

theorem codeSafe : (discipline strict quiet).CodeSafe := by
  refine Discipline.codeSafe_of_calls ?_
  intro a label own what hidle
  cases a with
  | cpu c =>
    cases label with
    | scheduler q =>
      cases what with
      | goOn =>
        refine .made ?_
        rw [show own = _ from hidle]
        exact .seq triple_scheduleSlot (.ret rfl)
      | _ => exact .refused
    | _ => exact .refused
  | proc p =>
    cases label with
    | out =>
      cases what with
      | start =>
        refine .made ?_
        rw [show own = _ from hidle]
        exact .seq triple_forkret (.ret rfl)
      | _ => exact .refused
    | waiting addr =>
      cases what with
      | goOn =>
        refine .made ?_
        rw [show own = _ from hidle]
        exact triple_waitRound
      | _ => exact .refused
    | user a0 =>
      rw [show own = _ from hidle]
      cases what with
      | start | goOn => exact .refused
      | fork => exact .made (.bind_eq triple_fork fun _ => .ret rfl)
      | exit status => exact .made (.bind_eq triple_exit fun _ => .ret rfl)
      | wait addr => exact .made (.bind_eq (triple_acquire_first rfl) fun _ => .ret rfl)
      | kill pid => exact .made (.bind_eq (triple_killLoop slots) fun _ => .ret rfl)
      | sleep address => exact .made (.bind_eq triple_sleep fun _ => .ret rfl)
      | wakeup address => exact .made (.bind_eq (triple_wakeupLoop slots) fun _ => .ret rfl)
      | yield => exact .made (.bind_eq triple_yield fun _ => .ret rfl)
    | scheduler q => exact hidle.elim

end Xv6.ProcTable
