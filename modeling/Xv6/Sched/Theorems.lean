import Xv6.Sched.Ops

/-!
# No two CPUs run one process

The rules of the operations, put together along the code of every call. Read `sched_exclusive`
first: it holds for any number of processes and CPUs, in every configuration that they can reach.
-/

namespace Xv6.Sched

open Interleave Finset Discipline

variable {n m : Nat} [NeZero n] {c : Fin m} {p q : Fin n} {held : Finset (Fin n)} {phase : Phase n}

/-! ### Locking a slot for a while -/

/-- `release` of the last lock, by a scheduler that claims no process or by a process that runs. -/
theorem triple_unlock {view : View n} (hq : q ∉ held)
    (hphase : phase = .idle ∨ ∃ p, phase = .running p) :
    Moves c ⟨insert q held, phase, view⟩ (.perform (.release (.proc q))) ⟨held, phase, .none⟩ := by
  have hclaims : ∀ p, phase.claims = some p → phase ≠ .running p → p ≠ q := by
    intro p hp hnot
    rcases hphase with rfl | ⟨r, rfl⟩
    · cases hp
    · cases hp
      exact absurd rfl hnot
  refine .mono (triple_release hclaims) fun _ own' h => ?_
  rw [h, erase_insert hq]

theorem triple_unlock_only {view : View n} (hphase : phase = .idle ∨ ∃ p, phase = .running p) :
    Moves c ⟨{q}, phase, view⟩ (.perform (.release (.proc q))) ⟨∅, phase, .none⟩ := by
  exact triple_unlock (notMem_empty q) hphase

variable {chan : Chan n}

/-- The loop of `wakeup`. -/
theorem triple_wakeupLoop (hphase : phase = .idle ∨ ∃ p, phase = .running p) (rest : List (Fin n)) :
    Moves c ⟨held, phase, .none⟩ (wakeup chan rest) ⟨held, phase, .none⟩ := by
  induction rest with
  | nil => exact .ret rfl
  | cons q rest ih =>
    refine .bind triple_acquire ?_
    rintro _ own' ⟨rfl, hq⟩
    refine .seq (triple_wakeup (mem_insert_self q held)) ?_
    exact .seq (triple_unlock hq hphase) <| ih

/-- The loop of `kill`. -/
theorem triple_killLoop {pid : BitVec 32} (rest : List (Fin n)) :
    Moves c ⟨held, .running p, .none⟩ (kill pid rest) ⟨held, .running p, .none⟩ := by
  induction rest with
  | nil => exact .ret rfl
  | cons q rest ih =>
    refine .bind triple_acquire ?_
    rintro _ own' ⟨rfl, hq⟩
    refine .bind_eq (triple_kill (mem_insert_self q held)) fun hit => ?_
    refine .seq (triple_unlock hq (.inr ⟨p, rfl⟩)) ?_
    cases hit with
    | true => exact .ret rfl
    | false => exact ih

/-! ### scheduler -/

variable {label : Label n}

omit [NeZero n] in
theorem idle_of_resumes (h : label.Resumes p) : idle label ⟨{p}, .running p, .none⟩ := by
  cases label with
  | forkret => exact ⟨p, rfl⟩
  | yielded q intena | exited q intena =>
    obtain rfl : q = p := h
    rfl
  | slept q lk caller intena =>
    obtain ⟨rfl, hcaller⟩ := h
    exact ⟨rfl, hcaller⟩
  | _ => exact h.elim

variable {rest : List (Fin n)}

theorem triple_scheduleSlot {found : Bool} :
    Triple c ⟨∅, .idle, .none⟩ (scheduleSlot q rest found) idle := by
  refine .bind triple_acquire ?_
  rintro _ own' ⟨rfl, -⟩
  refine .bind_eq (triple_isRunnable (mem_singleton_self q)) fun runnable => ?_
  cases runnable with
  | true =>
    refine .seq (triple_setRunning (mem_singleton_self q)) ?_
    refine .seq triple_setCpuProc ?_
    refine .mono (triple_swtchTo ⟨rest, rfl⟩) fun label own' h => ?_
    rw [h.1]
    exact idle_of_resumes h.2
  | false =>
    refine .bind_eq (triple_flag trivial (fun cpu => { cpu with intena := false })
      (fun _ _ => rfl) (fun _ => rfl) fun _ => rfl) fun _ => ?_
    exact .seq (triple_unlock_only (.inl rfl)) (.ret rfl)

theorem triple_scheduleBack : Triple c ⟨{q}, .returned q, .none⟩ (scheduleBack q rest) idle := by
  refine .seq (triple_clearCpuProc (.inr ⟨q, rfl⟩)) ?_
  refine .bind_eq (triple_flag trivial (fun cpu => { cpu with intena := false })
    (fun _ _ => rfl) (fun _ => rfl) fun _ => rfl) fun _ => ?_
  exact .seq (triple_unlock_only (.inl rfl)) (.ret rfl)

/-! ### sched, yield and sleep -/

theorem triple_sched {point : Bool → Label n} (hpoint : ∀ intena, (point intena).Resumes p) :
    Triple c ⟨{p}, .parking p, .none⟩ (sched p point) idle := by
  refine .bind_eq triple_schedChecks fun intena => ?_
  refine .mono (triple_swtchOut (hpoint intena)) fun label own' h => ?_
  obtain ⟨rest, rfl⟩ := h.2
  exact h.1

theorem triple_yield : Triple c ⟨∅, .running p, .none⟩ (yield p) idle := by
  refine .bind triple_acquire ?_
  rintro _ own' ⟨rfl, -⟩
  refine .bind_eq (triple_park (fun proc => { proc with state := .RUNNABLE }) trivial
    (mem_singleton_self p) (fun _ _ => rfl) (fun _ => by simp) fun _ => rfl) fun _ => ?_
  exact triple_sched fun _ => rfl

variable {intena : Bool} {own : Own n}

theorem triple_setIntena : Moves c own (.perform (.setIntena intena)) own :=
  triple_flag trivial (fun cpu => { cpu with intena := intena }) (fun _ _ => rfl) (fun _ => rfl)
    fun _ => rfl

theorem triple_yieldBack : Triple c ⟨{p}, .running p, .none⟩ (yieldBack p intena) idle := by
  refine .seq triple_setIntena ?_
  exact .seq (triple_unlock_only (.inr ⟨p, rfl⟩)) (.ret ⟨p, rfl⟩)

variable {caller : Option Nat}

theorem triple_sleepLocked {lk : Lock n} (hcaller : SleepOk p lk caller) :
    Triple c ⟨{p}, .running p, .none⟩ (sleepLocked p chan lk caller) idle := by
  refine .bind_eq (triple_park
    (fun proc => { proc with chan := some chan, state := .SLEEPING }) trivial
    (mem_singleton_self p) (fun _ _ => rfl) (fun _ => by simp) fun _ => rfl) fun _ => ?_
  exact triple_sched fun _ => ⟨rfl, hcaller⟩

theorem triple_sleep {address : Nat} :
    Triple c ⟨∅, .running p, .none⟩ (sleep p chan (.other address) none) idle := by
  refine .bind triple_acquire ?_
  rintro _ own' ⟨rfl, -⟩
  exact .seq triple_release_other <| triple_sleepLocked ⟨address, rfl⟩

variable {addr : Nat}

theorem triple_sleep_wait : Triple c ⟨{p}, .running p, .none⟩ (sleep p chan (.proc p) (some addr))
      idle := by
  unfold sleep
  rw [if_pos rfl]
  exact triple_sleepLocked rfl

theorem triple_sleepBack {lk : Lock n} (hcaller : SleepOk p lk caller) :
    Triple c ⟨{p}, .running p, .none⟩ (sleepBack p lk caller intena) idle := by
  refine .seq triple_setIntena ?_
  refine .seq (triple_clearChan (mem_singleton_self p)) ?_
  cases caller with
  | some addr =>
    obtain rfl : lk = .proc p := hcaller
    rw [if_pos rfl]
    exact .ret rfl
  | none =>
    obtain ⟨address, rfl⟩ := hcaller
    refine .seq (triple_unlock_only (.inr ⟨p, rfl⟩)) ?_
    exact .seq triple_acquire_other (.ret ⟨p, rfl⟩)

theorem triple_forkret : Triple c ⟨{p}, .running p, .none⟩ (forkret p) idle := by
  exact .seq (triple_unlock_only (.inr ⟨p, rfl⟩)) (.ret ⟨p, rfl⟩)

/-! ### fork -/

/-- What a process knows when `allocproc` has returned. -/
def allocated (p : Fin n) : Option (Fin n) → Own n
  | some np => ⟨{np}, .running p, .ready np⟩
  | none => ⟨∅, .running p, .none⟩

theorem triple_allocproc (rest : List (Fin n)) : Triple c ⟨∅, .running p, .none⟩ (allocproc rest)
      fun found own' => own' = allocated p found := by
  induction rest with
  | nil => exact .ret rfl
  | cons q rest ih =>
    refine .bind triple_acquire ?_
    rintro _ own' ⟨rfl, -⟩
    refine .bind_eq (triple_isUnused (mem_singleton_self q)) fun unused => ?_
    cases unused with
    | true =>
      refine .seq (triple_allocpid (mem_singleton_self q)) ?_
      refine .bind_eq (triple_skip trivial fun _ _ => rfl) fun tf => ?_
      cases tf with
      | true => exact .seq (triple_initContext (mem_singleton_self q)) (.ret rfl)
      | false => exact .seq (triple_unlock_only (.inr ⟨p, rfl⟩)) (.ret rfl)
    | false => exact .seq (triple_unlock_only (.inr ⟨p, rfl⟩)) <| ih

theorem triple_fork : Moves c ⟨∅, .running p, .none⟩ (fork p) ⟨∅, .running p, .none⟩ := by
  refine .bind_eq (triple_allocproc (slots n)) fun found => ?_
  cases found with
  | none => exact .ret rfl
  | some np =>
    refine .bind_eq (triple_skip trivial fun _ _ => rfl) fun copied => ?_
    cases copied with
    | true =>
      refine .seq (triple_setParent (mem_singleton_self np)) ?_
      refine .seq (triple_setRunnable (mem_singleton_self np)) ?_
      exact triple_unlock_only (.inr ⟨p, rfl⟩)
    | false =>
      refine .seq (triple_freeproc (mem_singleton_self np)) ?_
      exact triple_unlock_only (.inr ⟨p, rfl⟩)

/-! ### exit -/

theorem triple_reparent (rest : List (Fin n)) : Moves c ⟨held, .running p, .none⟩ (reparent p rest)
      ⟨held, .running p, .none⟩ := by
  induction rest with
  | nil => exact .ret rfl
  | cons pp rest ih =>
    refine .bind_eq (triple_skip trivial fun _ _ => rfl) fun mine => ?_
    cases mine with
    | true =>
      refine .bind triple_acquire ?_
      rintro _ own' ⟨rfl, hpp⟩
      refine .seq (triple_giveToInit (mem_insert_self pp held)) ?_
      exact .seq (triple_unlock hpp (.inr ⟨p, rfl⟩)) <| ih
    | false => exact ih

theorem triple_exitUnder {parent : Fin n} :
    Triple c ⟨∅, .running p, .none⟩ (exitUnder p parent) idle := by
  refine .bind triple_acquire ?_
  rintro _ own' ⟨rfl, -⟩
  refine .bind triple_acquire ?_
  rintro _ own' ⟨rfl, hp⟩
  refine .seq (triple_reparent (slots n)) ?_
  refine .seq (triple_wakeup1 (by simp)) ?_
  refine .bind_eq (triple_park (fun proc => { proc with state := .ZOMBIE }) trivial
    (by simp) (fun _ _ => rfl) (fun _ => by simp) fun _ => rfl) fun _ => ?_
  have hne : p ≠ parent := by simpa using hp
  refine .bind_eq (triple_release fun r hr _ => ?_) fun _ => ?_
  · cases hr
    exact hne
  · have hheld : (insert p (insert parent ∅) : Finset (Fin n)).erase parent = {p} := by
      rw [erase_insert_of_ne hne, erase_insert (notMem_empty parent), insert_empty_eq]
    rw [hheld]
    exact triple_sched fun _ => rfl

theorem triple_exit : Triple c ⟨∅, .running p, .none⟩ (exit p) idle := by
  unfold exit
  split
  · exact .bind triple_panic fun _ _ h => .ret ⟨p, h⟩
  · refine .bind triple_acquire ?_
    rintro _ own' ⟨rfl, -⟩
    refine .seq (triple_wakeup1 (mem_singleton_self _)) ?_
    refine .seq (triple_unlock_only (.inr ⟨p, rfl⟩)) ?_
    refine .bind triple_acquire ?_
    rintro _ own' ⟨rfl, -⟩
    refine .bind_eq (triple_skip trivial fun _ _ => rfl) fun originalParent => ?_
    refine .seq (triple_unlock_only (.inr ⟨p, rfl⟩)) ?_
    cases originalParent with
    | some parent => exact triple_exitUnder
    | none => exact .bind triple_panic fun _ _ h => .ret ⟨p, h⟩

/-! ### wait -/

/-- What a process knows when the scan of `wait` has ended. -/
def scanned (p : Fin n) : Option Bool → Own n
  | some _ => ⟨{p}, .running p, .none⟩
  | none => ⟨∅, .running p, .none⟩

theorem triple_waitScan (havekids : Bool) (rest : List (Fin n)) :
    Triple c ⟨{p}, .running p, .none⟩ (waitScan p addr havekids rest)
      fun result own' => own' = scanned p result := by
  induction rest generalizing havekids with
  | nil => exact .ret rfl
  | cons np rest ih =>
    refine .bind_eq (triple_skip trivial fun _ _ => rfl) fun mine => ?_
    cases mine with
    | false => exact ih havekids
    | true =>
      refine .bind triple_acquire ?_
      rintro _ own' ⟨rfl, hnp⟩
      refine .bind_eq (triple_collect (mem_insert_self np _)) fun child => ?_
      have hrunning : (Phase.running p : Phase n) = .idle ∨ ∃ q, Phase.running p = .running q :=
        .inr ⟨p, rfl⟩
      cases child with
      | running => exact .seq (triple_unlock hnp hrunning) <| ih true
      | fault | freed pid =>
        refine .seq (triple_unlock hnp hrunning) ?_
        exact .seq (triple_unlock_only hrunning) (.ret rfl)

theorem triple_waitRound : Triple c ⟨{p}, .running p, .none⟩ (waitRound p addr) idle := by
  refine .bind_eq (triple_waitScan false (slots n)) fun result => ?_
  cases result with
  | none => exact .ret ⟨p, rfl⟩
  | some havekids =>
    refine .bind_eq (triple_skip trivial fun _ _ => rfl) fun killed => ?_
    split
    · exact .seq (triple_unlock_only (.inr ⟨p, rfl⟩)) (.ret ⟨p, rfl⟩)
    · exact triple_sleep_wait

/-! ### Every call -/

theorem triple_syscall {call : Fin n → Code n (Label n)} {post : Label n → Own n → Prop}
    (hcall : Triple c ⟨held, .running p, .none⟩ (call p) post) :
    Triple c ⟨held, .running p, .none⟩ (syscall call) post := by
  refine .bind triple_myproc ?_
  rintro result own' ⟨rfl, hresult⟩
  rwa [show result = some p from hresult]

theorem calls_user {call : Call} :
    (discipline n m).Calls c ⟨∅, .running p, .none⟩ (code .user call) := by
  cases call with
  | goOn => exact .refused
  | yield => exact .made (triple_syscall triple_yield)
  | sleep chan lk => exact .made (triple_syscall triple_sleep)
  | wakeup chan =>
    exact .made (.bind_eq (triple_wakeupLoop (.inr ⟨p, rfl⟩) (slots n)) fun _ => .ret ⟨p, rfl⟩)
  | kill pid => exact .made (.bind_eq (triple_killLoop (slots n)) fun _ => .ret ⟨p, rfl⟩)
  | fork => exact .made (triple_syscall (.bind_eq triple_fork fun _ => .ret ⟨p, rfl⟩))
  | exit => exact .made (triple_syscall triple_exit)
  | wait addr =>
    refine .made ?_
    refine triple_syscall (.bind triple_acquire fun _ own' h => .ret ?_)
    rw [h.1, insert_empty_eq p]
    rfl
  | acquire lk => exact .made (.bind_eq triple_acquire_other fun _ => .ret ⟨p, rfl⟩)
  | release lk => exact .made (.bind_eq triple_release_other fun _ => .ret ⟨p, rfl⟩)

theorem triple_intrOn : Moves c own (.perform .intrOn) own :=
  triple_flag trivial (fun cpu => { cpu with interrupts := true }) (fun _ _ => rfl)
    (fun _ => rfl) fun _ => rfl

theorem calls_goOn (hidle : idle label own) : (discipline n m).Calls c own (code label .goOn) := by
  cases label with
  | user => exact .refused
  | boot =>
    refine .made ?_
    rw [show own = _ from hidle]
    refine .seq (triple_clearCpuProc (.inl rfl)) ?_
    exact .seq triple_intrOn (.ret rfl)
  | window =>
    refine .made ?_
    rw [show own = _ from hidle]
    exact .bind_eq (triple_flag trivial (fun cpu => { cpu with interrupts := false })
      (fun _ _ => rfl) (fun _ => rfl) fun _ => rfl) fun _ => .ret rfl
  | scan rest found =>
    rw [show own = _ from hidle]
    cases rest with
    | nil => exact .made (.bind_eq triple_intrOn fun _ => .ret rfl)
    | cons q rest => exact .made triple_scheduleSlot
  | back q rest =>
    refine .made ?_
    rw [show own = _ from hidle]
    exact triple_scheduleBack
  | forkret =>
    refine .made ?_
    obtain ⟨p, rfl⟩ := hidle
    exact triple_syscall triple_forkret
  | waiting p addr =>
    refine .made ?_
    rw [show own = _ from hidle]
    exact triple_waitRound
  | yielded p intena =>
    refine .made ?_
    rw [show own = _ from hidle]
    exact triple_yieldBack
  | slept p lk caller intena =>
    refine .made ?_
    obtain ⟨rfl, hcaller⟩ := hidle
    exact triple_sleepBack hcaller
  | exited p intena => exact .made (.bind triple_panic fun _ _ h => .ret ⟨p, h⟩)

theorem codeSafe : (discipline n m).CodeSafe := by
  refine codeSafe_of_calls fun c label own call hidle => ?_
  have hidle : idle label own := hidle
  cases label with
  | user =>
    obtain ⟨p, rfl⟩ := hidle
    exact calls_user
  | window =>
    cases call with
    | goOn => exact calls_goOn hidle
    | wakeup chan =>
      refine .made ?_
      rw [show own = _ from hidle]
      exact .seq (triple_wakeupLoop (.inl rfl) (slots n)) (.ret rfl)
    | _ => exact .refused
  | scan rest found =>
    cases call with
    | goOn => exact calls_goOn hidle
    | _ => cases rest <;> exact .refused
  | _ =>
    cases call with
    | goOn => exact calls_goOn hidle
    | _ => exact .refused

/-! ### Every run -/

theorem inv_boot : Inv (boot n m) fun _ => ⟨∅, .idle, .none⟩ where
  knows := fun c => ⟨by simp [boot], rfl, rfl, trivial, trivial⟩
  unique := nofun
  running := by
    intro p hp
    by_cases hinit : p = initproc
    · simp [boot, hinit] at hp
    · simp [boot, hinit, Proc.zero] at hp
  context := by
    intro p hp
    by_cases hinit : p = initproc
    · exact .inl (by simp [boot, hinit])
    · simp [boot, hinit, Proc.zero] at hp
  resumes := by
    intro p hp
    have hinit : p = initproc := by simpa [boot] using hp
    simp [boot, hinit, Proc.zero, Label.Resumes]
  log := fun _ => rfl

theorem holds_run {config : Config (Fin m) (Op n) Res (State n m) (Label n)}
    (h : (machine n m).Run (fun _ _ => True) (powerOn n m) config) :
    (discipline n m).Holds config := by
  have hstart : (discipline n m).Holds (powerOn n m) :=
    ⟨⟨fun _ => ⟨∅, .idle, .none⟩, inv_boot, fun _ => rfl⟩, nofun⟩
  exact holds_of_run codeSafe hstart (h.mono fun c e _ => meets_of_guard (fun _ _ _ => trivial) c e)

/-- No two CPUs ever run one process. In every configuration: at most one CPU has `c->proc`
pointing to a process, and a CPU that uses the stack of a process is that one. If the lock of a
process is free, it is `RUNNING` if and only if exactly one CPU has `c->proc` pointing to it. When a
scheduler is about to restore the context of a process, that context has been saved since it was
last restored and no CPU uses it. Whoever is about to switch holds the lock of the process. And the
history of each lock is one in which `swtch` hands the lock from the thread that holds it to the
other thread, and every acquired lock is released once, by the thread that it has been handed to. -/
theorem sched_exclusive {config : Config (Fin m) (Op n) Res (State n m) (Label n)}
    (h : (machine n m).Run (fun _ _ => True) (powerOn n m) config) :
    (∀ c c' p, (config.state.cpu c).proc = some p → (config.state.cpu c').proc = some p → c = c') ∧
    (∀ c p, config.state.live c = .proc p → (config.state.cpu c).proc = some p) ∧
    (∀ p, config.state.lock (.proc p) = none →
      ((config.state.proc p).state = .RUNNING ↔ ∃! c, (config.state.cpu c).proc = some p)) ∧
    (∀ c p point next, config.prog c = .op (.swtchTo p point) next →
      config.state.saved p = true ∧ (∀ c', config.state.live c' ≠ .proc p) ∧
        config.state.lock (.proc p) = some c) ∧
    (∀ c p point next, config.prog c = .op (.swtchOut p point) next →
      config.state.live c = .proc p ∧ config.state.lock (.proc p) = some c) ∧
    ∀ p, holderAfter (config.state.log p) =
      some ((config.state.lock (.proc p)).map config.state.live) := by
  obtain ⟨g, hinv, hready⟩ := (holds_run h).state
  have hproc : ∀ c p, (config.state.cpu c).proc = some p → (g c).phase.cpuProc = some p :=
    fun c p hp => (hinv.knows c).proc.symm.trans hp
  have hunique : ∀ c c' p, (config.state.cpu c).proc = some p →
      (config.state.cpu c').proc = some p → c = c' := fun c c' p hc hc' =>
    hinv.unique c c' p (Phase.claims_of_cpuProc (hproc c p hc))
      (Phase.claims_of_cpuProc (hproc c' p hc'))
  have hstack : ∀ c p, config.state.live c = .proc p → (g c).phase.onStack = some p := by
    intro c p hlive
    rw [(hinv.knows c).live] at hlive
    exact Phase.thread_eq_proc.mp hlive
  refine ⟨hunique, ?_, ?_, ?_, ?_, hinv.log⟩
  · intro c p hlive
    exact (hinv.knows c).proc.trans (Phase.cpuProc_of_onStack (hstack c p hlive))
  · intro p hfree
    -- nobody has locked the process
    have hnot : ∀ c, p ∉ (g c).held := by
      intro c hp
      rw [((hinv.knows c).held p).mpr hp] at hfree
      cases hfree
    constructor
    · intro hrunning
      obtain ⟨c, hc⟩ := hinv.running p hrunning
      have hphase := (hinv.knows c).phase
      have hcpu : (g c).phase.cpuProc = some p := by
        cases hown : (g c).phase with
        | idle | parking r | returned r =>
          rw [hown] at hc
          cases hc
        | chosen r =>
          rw [hown] at hc hphase
          cases hc
          exact absurd hphase.1 (hnot c)
        | lending r | running r =>
          rwa [hown] at hc
      have hc' := (hinv.knows c).proc.trans hcpu
      exact ⟨c, hc', fun c' h' => hunique c' c p h' hc'⟩
    · rintro ⟨c, hc, -⟩
      have hclaims := Phase.claims_of_cpuProc (hproc c p hc)
      exact ((hinv.knows c).phase.cases hclaims).resolve_right (hnot c)
  · intro c p point next hprog
    have hown := hready c
    rw [hprog] at hown
    obtain ⟨⟨hheld, hphase, -⟩, -⟩ := hown
    have hknows := hinv.knows c
    have hsaved : config.state.saved p = true := by
      have hok := hknows.phase
      rw [hphase] at hok
      exact hok.2.2
    refine ⟨hsaved, ?_, (hknows.held p).mpr (by rw [hheld]; exact mem_singleton_self p)⟩
    intro c' hlive
    have hnot := (hinv.knows c').phase.not_saved (hstack c' p hlive)
    rw [hsaved] at hnot
    exact nomatch hnot
  · intro c p point next hprog
    have hown := hready c
    rw [hprog] at hown
    obtain ⟨⟨hheld, hphase, -⟩, -⟩ := hown
    have hknows := hinv.knows c
    refine ⟨?_, (hknows.held p).mpr (by rw [hheld]; exact mem_singleton_self p)⟩
    rw [hknows.live, hphase]
    rfl

/-- A step of a CPU and a number of its operations. -/
def steps {m : Nat} (c : Fin m) (call : Call) (operations : Nat) : List (Event (Fin m) Call Bool) :=
  .call c call true :: List.replicate operations (.step c true)

/-- The scheduler of CPU `c` starts and switches to process 0. -/
def dispatch (c : Fin 2) : List (Event (Fin 2) Call Bool) :=
  steps c .goOn 2 ++ steps c .goOn 1 ++ steps c .goOn 5

/-- Process 0 starts on CPU 0 and yields, and goes on on CPU 1. -/
def migrate : List (Event (Fin 2) Call Bool) :=
  dispatch 0 ++ steps 0 .goOn 2 ++ steps 0 .yield 5 ++ steps 0 .goOn 3 ++ dispatch 1 ++
    steps 1 .goOn 2

theorem sched_exclusive_migrate :
    ∃ config, (machine 2 2).Run (fun _ _ => True) (powerOn 2 2) config ∧
      (config.state.cpu 1).proc = some 0 ∧ (config.state.log 0).length = 9 ∧
      ∃! c, (config.state.cpu c).proc = some 0 := by
  have hplay : ((machine 2 2).play (fun _ _ => true) migrate (powerOn 2 2)).map
      (fun c => (c.state.lock (.proc 0), (c.state.proc 0).state, (c.state.cpu 1).proc,
        (c.state.log 0).length)) =
      some (none, .RUNNING, some 0, 9) := by
    decide +kernel
  obtain ⟨config, hany, hvalue⟩ := Machine.exists_any_run hplay
  simp only [Prod.mk.injEq] at hvalue
  obtain ⟨hfree, hrunning, hcpu, hlog⟩ := hvalue
  exact ⟨config, hany, hcpu, hlog, ((sched_exclusive hany).2.2.1 0 hfree).mp hrunning⟩

/-- Every process has one place to go on from. Either its context is saved, it is one of its own,
and no CPU uses its stack; or one CPU uses its stack, and the scheduler of that CPU waits for it. -/
theorem one_continuation {n : Nat} (config : (machine (n + 1) m).Reachable (powerOn (n + 1) m))
    (p : Fin (n + 1)) :
    (config.1.state.proc p).state = .UNUSED ∨
    (config.1.state.saved p = true ∧ (config.1.state.proc p).context.Resumes p ∧
      ∀ c, config.1.state.live c ≠ .proc p) ∨
    config.1.state.saved p = false ∧ (∃! c, config.1.state.live c = .proc p) ∧
      ∀ c, config.1.state.live c = .proc p → (config.1.state.cpu c).scheduler.Back p := by
  obtain ⟨g, hinv, -⟩ := (holds_run config.2).state
  have hlive : ∀ c, config.1.state.live c = .proc p ↔ (g c).phase.onStack = some p := by
    intro c
    rw [(hinv.knows c).live]
    exact Phase.thread_eq_proc
  simp only [ne_eq, hlive]
  by_cases hunused : (config.1.state.proc p).state = .UNUSED
  · exact .inl hunused
  rcases hinv.context p hunused with hsaved | ⟨c, hc⟩
  · refine .inr (.inl ⟨hsaved, hinv.resumes p hsaved, fun c hc => ?_⟩)
    simpa using hsaved.symm.trans ((hinv.knows c).phase.not_saved hc)
  · have hstack : ∀ c, (g c).phase.onStack = some p → config.1.state.saved p = false ∧
        (config.1.state.cpu c).scheduler.Back p := fun c hc => (hinv.knows c).phase.of_onStack hc
    refine .inr (.inr ⟨(hstack c hc).1, ⟨c, hc, fun c' hc' => hinv.unique c' c p ?_ ?_⟩,
      fun c hc => (hstack c hc).2⟩)
    · exact Phase.claims_of_cpuProc (Phase.cpuProc_of_onStack hc')
    · exact Phase.claims_of_cpuProc (Phase.cpuProc_of_onStack hc)

theorem one_continuation_migrate : ∃ config : (machine 2 2).Reachable (powerOn 2 2),
    (config.1.state.proc 0).state = .RUNNING ∧ ∃! c, config.1.state.live c = .proc 0 := by
  have hplay : ((machine 2 2).play (fun _ _ => true) migrate (powerOn 2 2)).map
      (fun c => ((c.state.proc 0).state, c.state.saved 0)) = some (.RUNNING, false) := by
    decide +kernel
  obtain ⟨config, hany, hvalue⟩ := Machine.exists_any_run hplay
  obtain ⟨hrunning, hsaved⟩ := Prod.mk.inj hvalue
  refine ⟨⟨config, hany⟩, hrunning, ?_⟩
  rcases one_continuation ⟨config, hany⟩ 0 with hunused | ⟨hsaved', -⟩ | ⟨-, hunique, -⟩
  · exact nomatch hrunning.symm.trans hunused
  · exact nomatch hsaved.symm.trans hsaved'
  · exact hunique

end Xv6.Sched
