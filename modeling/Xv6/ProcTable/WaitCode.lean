import Xv6.ProcTable.Waiting

/-!
# `wait` misses no exit

The rules of `Xv6.ProcTable.Waiting`, put together along the code of every call. The loop of `wait`
is followed by induction over the slots that are left: when it ends, the note of the process lists
every slot, and the process may go to sleep. Read `wait_misses_no_exit` first.
-/

namespace Xv6.ProcTable

open Interleave Discipline Machine

variable {p q : Slot}

/-! ### fork and exit -/

theorem wait_allocproc (rest : List Slot) : Recalls (.proc p) .none (allocproc rest) .none := by
  induction rest with
  | nil => exact .ret rfl
  | cons q rest ih =>
    refine .seq wait_acquire_none ?_
    refine .bind_eq (wait_read fun _ _ => rfl) fun unused => ?_
    cases unused with
    | true =>
      refine .seq wait_allocpid ?_
      refine .bind_eq (wait_read fun _ _ => rfl) fun tf => ?_
      cases tf with
      | true =>
        refine .bind_eq (wait_read fun s ok => ?_) fun _ => .ret rfl
        cases ok with
        | true => rfl
        | false => trivial
      | false => exact .seq wait_release_none (.ret rfl)
    | false => exact .seq wait_release_none <| ih

theorem wait_fork : Recalls (.proc p) .none fork .none := by
  refine .bind_eq (wait_allocproc slots) fun found => ?_
  cases found with
  | none => exact .ret rfl
  | some np =>
    refine .bind_eq (wait_read fun _ _ => rfl) fun copied => ?_
    cases copied with
    | true =>
      refine .seq wait_setParent ?_
      refine .bind_eq wait_setRunnable fun pid => ?_
      exact .seq wait_release_none (.ret rfl)
    | false =>
      refine .seq wait_freeproc ?_
      exact .seq wait_release_none (.ret rfl)

theorem wait_reparent {parent : Slot} (rest : List Slot) :
    Recalls (.proc p) (.both parent) (reparent rest) (.both parent) := by
  induction rest with
  | nil => exact .ret rfl
  | cons pp rest ih =>
    refine .bind_eq (wait_read fun _ _ => rfl) fun mine => ?_
    cases mine with
    | true =>
      refine .bind wait_acquire_keep ?_
      rintro _ note' ⟨rfl, hnot⟩
      refine .seq wait_giveToInit ?_
      exact .seq (wait_release hnot) <| ih
    | false => exact ih

variable {status : BitVec 32}

theorem wait_exitUnder {parent : Slot} :
    Recalls (.proc p) (.remembers parent) (exitUnder p parent status) .none := by
  refine .seq wait_acquire_parent ?_
  refine .seq wait_acquire_both ?_
  refine .seq (wait_reparent slots) ?_
  refine .seq wait_wakeup1_parent ?_
  refine .seq wait_setZombie ?_
  refine .seq wait_release_none ?_
  exact wait_sched

theorem wait_exit : Recalls (.proc p) .none (exit p status) .none := by
  refine .bind_eq (wait_read fun _ _ => rfl) fun isInit => ?_
  cases isInit with
  | true => exact wait_read fun _ _ => trivial
  | false =>
    refine .seq wait_acquire_none ?_
    refine .seq wait_wakeup1 ?_
    refine .seq wait_release_none ?_
    refine .seq wait_acquire_none ?_
    refine .bind_eq wait_originalParent fun originalParent => ?_
    cases originalParent with
    | none => exact .seq wait_release_none <| wait_read fun _ _ => trivial
    | some parent =>
      exact .bind_eq (wait_release fun _ _ => List.not_mem_nil) fun _ => wait_exitUnder

/-! ### wait -/

theorem wait_waitScan {addr : Nat} (havekids : Bool) (done rest : List Slot) :
    waitDiscipline.Triple (.proc p) (.scan done) (waitScan p addr havekids rest)
      fun result note' => match result with
        | .inl _ => note' = .none
        | .inr _ => ∃ done', note' = .scan done' ∧ ∀ q, q ∈ done ∨ q ∈ rest → q ∈ done' := by
  induction rest generalizing havekids done with
  | nil => exact .ret ⟨done, rfl, fun q hq => hq.elim id nofun⟩
  | cons np rest ih =>
    -- the slots still to come are those of the rest once this one is done
    have hrest : ∀ havekids', waitDiscipline.Triple (.proc p) (.scan (np :: done))
        (waitScan p addr havekids' rest) fun result note' => match result with
          | .inl _ => note' = .none
          | .inr _ => ∃ done', note' = .scan done' ∧
              ∀ q, q ∈ done ∨ q ∈ np :: rest → q ∈ done' := by
      intro havekids'
      refine (ih havekids' (np :: done)).mono fun result note' h => ?_
      cases result with
      | inl a0 => exact h
      | inr kids =>
        obtain ⟨done', hnote, hall⟩ := h
        refine ⟨done', hnote, fun q hq => hall q ?_⟩
        simp only [List.mem_cons] at hq ⊢
        tauto
    refine .bind_eq wait_parentIsMe_scan fun mine => ?_
    cases mine with
    | false => exact hrest havekids
    | true =>
      refine .bind wait_acquire_keep ?_
      rintro _ note' ⟨rfl, hnot⟩
      refine .bind_eq wait_collect fun child => ?_
      cases child with
      | running => exact .seq (wait_release hnot) <| hrest true
      | fault =>
        refine .seq wait_release_none ?_
        exact .seq wait_release_none (.ret rfl)
      | freed pid =>
        refine .seq wait_release_none ?_
        exact .seq wait_release_none (.ret rfl)

theorem wait_sleepLocked {done : List Slot} {chan : Chan} (hdone : chan = .proc p → ∀ q, q ∈ done) :
    Recalls (.proc p) (.scan done) (sleepLocked chan) (.scan []) := by
  refine .seq (wait_setSleeping hdone) ?_
  refine .seq wait_sched ?_
  refine .seq wait_resume ?_
  exact wait_clearChan

theorem wait_waitRound {addr : Nat} : waitDiscipline.Triple (.proc p) (.scan []) (waitRound p addr)
      fun label note' => waitIdle label note' := by
  refine .bind (wait_waitScan false [] slots) fun result note' h => ?_
  cases result with
  | inl a0 => exact .ret h
  | inr havekids =>
    obtain ⟨done, rfl, hall⟩ := h
    have hdone : ∀ q, q ∈ done := fun q => hall q (.inr (List.mem_finRange q))
    refine .bind_eq (wait_read fun _ _ => rfl) fun killed => ?_
    split
    · refine wait_forget ?_
      exact .seq wait_release_none (.ret rfl)
    · exact .bind_eq (wait_sleepLocked fun _ => hdone) fun _ => .ret rfl

/-! ### The other calls -/

theorem wait_killLoop {pid : BitVec 32} (rest : List Slot) :
    Recalls (.proc p) .none (kill pid rest) .none := by
  induction rest with
  | nil => exact .ret rfl
  | cons q rest ih =>
    refine .seq wait_acquire_none ?_
    refine .bind_eq wait_kill fun hit => ?_
    refine .seq wait_release_none ?_
    cases hit with
    | true => exact .ret rfl
    | false => exact ih

theorem wait_wakeupLoop {chan : Chan} (rest : List Slot) :
    Recalls (.proc p) .none (wakeup chan rest) .none := by
  induction rest with
  | nil => exact .ret rfl
  | cons q rest ih =>
    refine .seq wait_acquire_none ?_
    refine .seq wait_wakeup ?_
    exact .seq wait_release_none <| ih

theorem wait_sleep {address : Nat} : Recalls (.proc p) .none (sleep p (.other address)) .none := by
  refine .seq wait_acquire_self ?_
  refine .seq (wait_sleepLocked nofun) ?_
  exact wait_forget wait_release_none

theorem wait_yield : Recalls (.proc p) .none (yield p) .none := by
  refine .seq wait_acquire_self ?_
  refine .seq wait_giveUp ?_
  refine .seq wait_sched ?_
  refine .seq wait_resume ?_
  exact wait_forget wait_release_none

theorem wait_forkret : Recalls (.proc p) .none (forkret p) .none := by
  refine .seq wait_resume ?_
  exact wait_forget wait_release_none

theorem wait_scheduleSlot {c : Cpu} : Recalls (.cpu c) .none (scheduleSlot q) .none := by
  refine .seq wait_acquire_none ?_
  refine .bind_eq wait_swtch fun switched => ?_
  cases switched with
  | true => exact .seq wait_regain <| wait_release_none
  | false => exact wait_release_none

theorem wait_codeSafe : waitDiscipline.CodeSafe := by
  refine codeSafe_of_calls fun a label note call hidle => ?_
  cases a with
  | cpu c =>
    cases label with
    | scheduler q =>
      cases call with
      | goOn =>
        refine .made ?_
        rw [show note = .none from hidle]
        exact .seq wait_scheduleSlot (.ret rfl)
      | _ => exact .refused
    | _ => exact .refused
  | proc p =>
    cases label with
    | out =>
      cases call with
      | start =>
        refine .made ?_
        rw [show note = .none from hidle]
        exact .seq wait_forkret (.ret rfl)
      | _ => exact .refused
    | waiting addr =>
      cases call with
      | goOn =>
        refine .made ?_
        rw [show note = .scan [] from hidle]
        exact wait_waitRound
      | _ => exact .refused
    | user a0 =>
      rw [show note = .none from hidle]
      cases call with
      | start | goOn => exact .refused
      | fork => exact .made (.bind_eq wait_fork fun _ => .ret rfl)
      | exit status => exact .made (.bind_eq wait_exit fun _ => .ret rfl)
      | wait addr => exact .made (.bind_eq wait_acquire_self fun _ => .ret rfl)
      | kill pid => exact .made (.bind_eq (wait_killLoop slots) fun _ => .ret rfl)
      | sleep address => exact .made (.bind_eq wait_sleep fun _ => .ret rfl)
      | wakeup address => exact .made (.bind_eq (wait_wakeupLoop slots) fun _ => .ret rfl)
      | yield => exact .made (.bind_eq wait_yield fun _ => .ret rfl)
    | scheduler q => exact .refused

/-! ### Every run -/

theorem waitInv_boot : WaitInv .boot fun _ => .none where
  notes := fun _ => trivial
  quiet := fun _ _ _ q _ => (proc_boot q).2.2.2

theorem wait_holds {config : Config Agent Op Res State Label}
    (h : machine.Run (fun _ _ => True) powerOn config) : waitDiscipline.Holds config := by
  have hstart : waitDiscipline.Holds powerOn := by
    refine ⟨⟨fun _ => .none, waitInv_boot, fun a => ?_⟩, nofun⟩
    cases a <;> rfl
  refine holds_of_run wait_codeSafe hstart (h.strengthen fun c event hrun _ => ?_)
  have hholds : (discipline False fun _ => False).Holds c :=
    holds_run (fun _ hf => hf.elim) (fun _ _ _ _ => ⟨fun hf => hf.elim, fun _ hf => hf.elim⟩)
      (hrun.mono fun c e _ => atStep_true c e)
  refine hholds.meets ?_ event
  exact fun _ _ _ ghost hinv hneeds => ⟨ghost, hinv, hneeds⟩

/-- `wait` misses no exit: a process other than init that sleeps in `wait` has no child that is a
zombie. -/
theorem wait_misses_no_exit {config : Config Agent Op Res State Label}
    (h : machine.Run (fun _ _ => True) powerOn config) (p : Slot) (hp : p ≠ initproc)
    (hstate : (config.state.proc p).state = .SLEEPING)
    (hchan : (config.state.proc p).chan = some (.proc p)) (q : Slot)
    (hparent : (config.state.proc q).parent = some p) :
    (config.state.proc q).state ≠ .ZOMBIE := by
  obtain ⟨g, hinv, -⟩ := (wait_holds h).state
  exact hinv.quiet p hp ⟨hstate, hchan⟩ q hparent

/-- Process 1 sleeps in `wait`, and its child, process 2, exits up to the wake-up of its parent. -/
def exitUnderWait : List (Event Agent Call Bool) :=
  threeForks ++ callSteps (.proc 1) (.wait 0) 1 ++ callSteps (.proc 1) .goOn 16 ++
    [.step (.cpu 1) true, .step (.cpu 1) true] ++ callSteps (.proc 2) (.exit 3) 22

theorem wait_misses_no_exit_exitUnderWait : ∃ config, machine.Run (fun _ _ => True) powerOn config ∧
      (config.state.proc 1).state = .SLEEPING ∧
      (config.state.proc 1).chan = some (.proc 1) ∧
      (config.state.proc 1).lock = some (.proc 2) ∧
      (config.state.proc 2).parent = some 1 ∧ (config.state.proc 2).state ≠ .ZOMBIE := by
  have hplay : (machine.play (fun _ _ => true) exitUnderWait powerOn).map
      (fun c => ((c.state.proc 1).state, (c.state.proc 1).chan, (c.state.proc 1).lock,
        (c.state.proc 2).parent)) =
      some (.SLEEPING, some (.proc 1), some (.proc 2), some 1) := by
    decide +kernel
  obtain ⟨config, hany, hvalue⟩ := exists_any_run hplay
  simp only [Prod.mk.injEq] at hvalue
  obtain ⟨hstate, hchan, hlock, hparent⟩ := hvalue
  exact ⟨config, hany, hstate, hchan, hlock, hparent,
    wait_misses_no_exit hany 1 (by decide) hstate hchan 2 hparent⟩

end Xv6.ProcTable
