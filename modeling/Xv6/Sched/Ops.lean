import Xv6.Sched.Invariant

/-!
# The operations of the scheduler keep the invariant

One rule for each operation. Most of them leave the phase of the CPU as it is: they read, they
change a flag of the CPU, they lock or unlock, or they write to a slot that the CPU has locked. The
others are the steps in which a CPU gives itself to a process and gets itself back.
-/

namespace Xv6.Sched

open Interleave Function Finset Option

section State

variable {n m : Nat} {s : State n m} {q : Fin n} {c : Fin m} {f : Proc n → Proc n}

@[simp] theorem proc_modify_self : (s.modify q f).proc q = f (s.proc q) := by
  simp [State.modify]

@[simp] theorem proc_modify_of_ne {r : Fin n} (h : r ≠ q) : (s.modify q f).proc r = s.proc r := by
  simp [State.modify, h]

variable {f : Cpu n → Cpu n}

@[simp] theorem cpu_modifyCpu_self : (s.modifyCpu c f).cpu c = f (s.cpu c) := by
  simp [State.modifyCpu]

@[simp] theorem cpu_modifyCpu_of_ne {c' : Fin m} (h : c' ≠ c) :
    (s.modifyCpu c f).cpu c' = s.cpu c' := by
  simp [State.modifyCpu, h]

variable {l : Lock n} {event : LockEvent n m}

@[simp] theorem proc_note : (s.note l event).proc = s.proc := by
  cases l <;> rfl

@[simp] theorem cpu_note : (s.note l event).cpu = s.cpu := by
  cases l <;> rfl

@[simp] theorem lock_note : (s.note l event).lock = s.lock := by
  cases l <;> rfl

@[simp] theorem live_note : (s.note l event).live = s.live := by
  cases l <;> rfl

@[simp] theorem saved_note : (s.note l event).saved = s.saved := by
  cases l <;> rfl

theorem lock_setLock {holder : Option (Fin m)} {k : Lock n} :
    (s.setLock l holder).lock k = if k = l then holder else s.lock k := by
  by_cases hk : k = l
  · subst hk
    simp [State.setLock]
  · simp [State.setLock, hk]

theorem log_note {p : Fin n} :
    (s.note l event).log p = if l = .proc p then event :: s.log p else s.log p := by
  cases l with
  | other address => simp [State.note]
  | proc r =>
    by_cases hr : r = p
    · subst hr
      simp [State.note]
    · have hne : ¬(Lock.proc r = .proc p) := fun h => hr (Lock.proc.inj h)
      simp [State.note, hne, update_of_ne (Ne.symm hr)]

variable {point : Label n}

theorem cpu_swtchTo : (s.swtchTo c q point).cpu =
    (s.modifyCpu c fun cpu => { cpu with scheduler := point }).cpu := rfl

theorem saved_swtchTo : (s.swtchTo c q point).saved = update s.saved q false := rfl

theorem proc_swtchOut : (s.swtchOut c q point).proc =
    (s.modify q fun proc => { proc with context := point }).proc := rfl

end State

variable {n m : Nat} {s s' : State n m} {g : Fin m → Own n} {c : Fin m}
  {own own' : Own n} {p q : Fin n} {held : Finset (Fin n)} {phase : Phase n} {view : View n}
  {o : Op n}

theorem Inv.look (h : Inv s g) (hown : g c = own) (hview : ViewOk s own.held view) :
    Inv s (update g c { own with view := view }) := by
  have hknows : Knows s c own := hown ▸ h.knows c
  exact h.still hown ⟨hknows.held, hknows.proc, hknows.live, hknows.phase, hview⟩ rfl rfl
    (fun _ _ => rfl) rfl (fun _ _ _ => Iff.rfl) (fun _ hp => hp) rfl rfl h.log

/-- `acquire` and `release` change one lock, and the flags of one CPU. -/
theorem Inv.relock (h : Inv s g) (hown : g c = own) {l : Lock n} {holder : Option (Fin m)}
    {event : LockEvent n m} {cpu : Cpu n} (hproc : cpu.proc = (s.cpu c).proc)
    (hscheduler : cpu.scheduler = (s.cpu c).scheduler)
    (hlock : s.lock l = none ∨ s.lock l = some c) (hholder : holder = none ∨ holder = some c)
    (hheld : ∀ q, (if Lock.proc q = l then holder else s.lock (.proc q)) = some c ↔ q ∈ own'.held)
    (hphase : own'.phase = own.phase)
    (hclaims : ∀ p, own.phase.claims = some p → own.phase ≠ .running p → p ∈ own.held →
      p ∈ own'.held)
    (hview : ViewOk s own'.held own'.view)
    (hevent : ∀ p, l = .proc p → holderAfter (event :: s.log p) = some (holder.map s.live)) :
    Inv (((s.modifyCpu c fun _ => cpu).setLock l holder).note l event) (update g c own') := by
  have hknows : Knows s c own := hown ▸ h.knows c
  refine h.still hown ⟨?_, ?_, ?_, ?_, ?_⟩ proc_note saved_note ?_ live_note ?_
    (by rw [hphase]; exact fun _ hp => hp) (by rw [hphase]) (by rw [hphase]) ?_
  · intro q
    rw [lock_note, lock_setLock]
    exact hheld q
  · rw [cpu_note, hphase]
    show ((s.modifyCpu c fun _ => cpu).cpu c).proc = _
    rw [cpu_modifyCpu_self, hproc]
    exact hknows.proc
  · rw [live_note, hphase]
    exact hknows.live
  · rw [hphase]
    refine hknows.phase.keep ?_ fun p hp => ⟨hclaims p hp, ?_⟩
    · rw [cpu_note]
      show ((s.modifyCpu c fun _ => cpu).cpu c).scheduler = _
      rw [cpu_modifyCpu_self, hscheduler]
    · rw [proc_note, saved_note]
      exact ⟨Iff.rfl, rfl⟩
  · refine hview.keep fun q hq => ⟨hq, ?_⟩
    rw [proc_note, saved_note]
    exact ⟨rfl, rfl⟩
  · intro c' hc
    rw [cpu_note]
    show (s.modifyCpu c fun _ => cpu).cpu c' = _
    exact cpu_modifyCpu_of_ne hc
  · intro q c' hc
    rw [lock_note, lock_setLock]
    split
    next hl =>
      rw [hl]
      rcases hlock with hlock | hlock <;> rcases hholder with rfl | rfl <;> simp [hlock, Ne.symm hc]
    next => exact Iff.rfl
  · intro p
    rw [log_note, lock_note, live_note, lock_setLock]
    by_cases hl : l = .proc p
    · rw [if_pos hl, if_pos hl.symm]
      exact hevent p hl
    · rw [if_neg hl, if_neg (Ne.symm hl)]
      exact h.log p

theorem popOff_eq {cpu cpu' : Cpu n} (h : cpu.popOff = .ok cpu') :
    cpu'.proc = cpu.proc ∧ cpu'.scheduler = cpu.scheduler := by
  unfold Cpu.popOff at h
  split at h
  · cases h
  · split at h
    · cases h
    · cases h
      exact ⟨rfl, rfl⟩

/-- The step writes `f` to slot `q` and leaves the rest that the invariant is about. -/
structure Writes (q : Fin n) (f : Proc n → Proc n) (s s' : State n m) : Prop where
  proc : s'.proc = (s.modify q f).proc
  cpu : s'.cpu = s.cpu
  lock : s'.lock = s.lock
  live : s'.live = s.live
  saved : s'.saved = s.saved
  log : s'.log = s.log

variable {f : Proc n → Proc n}

theorem writes_modify : Writes q f s (s.modify q f) := ⟨rfl, rfl, rfl, rfl, rfl, rfl⟩

theorem Writes.self (h : Writes q f s s') : s'.proc q = f (s.proc q) := by
  rw [h.proc, proc_modify_self]

theorem Writes.other (h : Writes q f s s') (r : Fin n) (hr : r ≠ q) :
    s'.proc r = s.proc r ∧ s'.saved r = s.saved r := by
  rw [h.proc, h.saved, proc_modify_of_ne hr]
  exact ⟨rfl, rfl⟩

/-- A write after which the process runs or does not run as before. -/
theorem Inv.write (h : Inv s g) (hown : g c = own) (hwrites : Writes q f s s') (hq : q ∈ own.held)
    (hrun : (f (s.proc q)).state = .RUNNING ↔ (s.proc q).state = .RUNNING)
    (hused : (f (s.proc q)).state ≠ .UNUSED → (s.proc q).state ≠ .UNUSED ∨ s.saved q = true)
    (hcontext : (f (s.proc q)).context = (s.proc q).context)
    (hview : ViewOk s' own.held view) :
    Inv s' (update g c { own with view := view }) := by
  have hknows : Knows s c own := hown ▸ h.knows c
  refine h.slot hown ⟨?_, ?_, ?_, ?_, hview⟩ ((hknows.held q).mpr hq) hwrites.lock
    (fun _ _ => by rw [hwrites.cpu]) (fun _ _ => by rw [hwrites.live]) hwrites.other
    (fun _ _ => ⟨id, id, id⟩) .inl ?_ ?_ ?_ ?_ ?_
  · rw [hwrites.lock]
    exact hknows.held
  · rw [hwrites.cpu]
    exact hknows.proc
  · rw [hwrites.live]
    exact hknows.live
  · refine hknows.phase.keep (by rw [hwrites.cpu]) fun p _ => ⟨fun _ hp => hp, ?_, ?_⟩
    · by_cases hp : p = q
      · rwa [hp, hwrites.self]
      · rw [(hwrites.other p hp).1]
    · rw [hwrites.saved]
  · intro hr _
    rw [hwrites.self, hwrites.saved]
    exact ⟨hrun.mpr hr, rfl⟩
  · intro hr
    rw [hwrites.self] at hr
    exact .inr ⟨hrun.mp hr, id⟩
  · intro hr
    rw [hwrites.self] at hr
    rw [hwrites.saved]
    rcases hused hr with hold | hsaved
    · exact .inr (.inr ⟨hold, rfl, id⟩)
    · exact .inl hsaved
  · intro hr
    rw [hwrites.saved] at hr
    rw [hwrites.self, hcontext]
    exact h.resumes q hr
  · intro p
    rw [hwrites.log, hwrites.lock, hwrites.live]
    exact h.log p

/-- What an operation may write to a slot that the CPU has locked: a process that runs goes on
running, no other one starts to, and a free slot is used only with a new context. -/
structure Proper (saved : Bool) (old new : Proc n) : Prop where
  run : new.state = .RUNNING ↔ old.state = .RUNNING
  used : new.state ≠ .UNUSED → old.state ≠ .UNUSED ∨ saved = true
  context : new.context = old.context

variable {saved : Bool} {old new : Proc n}

theorem Proper.of_state (hstate : new.state = old.state)
    (hcontext : new.context = old.context) : Proper saved old new :=
  ⟨by rw [hstate], fun h => .inl (hstate ▸ h), hcontext⟩

theorem Proper.of_sleeping (hold : old.state = .SLEEPING)
    (hnew : new.state = .RUNNABLE) (hcontext : new.context = old.context) :
    Proper saved old new :=
  ⟨by simp [hold, hnew], fun _ => .inl (by simp [hold]), hcontext⟩

theorem Proper.of_freed (hold : old.state ≠ .RUNNING)
    (hnew : new.state = .UNUSED) (hcontext : new.context = old.context) :
    Proper saved old new :=
  ⟨by rw [hnew]; simpa using hold, fun h => absurd hnew h, hcontext⟩

theorem proper_wakeupOn (chan : Chan n) (proc : Proc n) :
    Proper saved proc (wakeupOn chan proc) := by
  unfold wakeupOn
  split
  next h => exact .of_sleeping h.1 rfl rfl
  next => exact .of_state rfl rfl

theorem proper_wakeup1 (q : Fin n) (proc : Proc n) : Proper saved proc (wakeup1 q proc) := by
  unfold wakeup1
  split
  next h => exact .of_sleeping h.2 rfl rfl
  next => exact .of_state rfl rfl

theorem proper_killProc (proc : Proc n) : Proper saved proc (killProc proc) := by
  by_cases hsleeping : proc.state = .SLEEPING
  · exact .of_sleeping hsleeping (by simp [killProc, hsleeping]) rfl
  · exact .of_state (by simp [killProc, hsleeping]) rfl

theorem writes_id : Writes q id s s := by
  refine ⟨?_, rfl, rfl, rfl, rfl, rfl⟩
  simp [State.modify]

/-- A write to `c->proc`, in a scheduler. -/
theorem Inv.setCpuProc (h : Inv s g) (hown : g c = own) {phase' : Phase n} {x : Option (Fin n)}
    (hproc : phase'.cpuProc = x) (hstack : phase'.onStack = own.phase.onStack)
    (hphase : PhaseOk s c own.held phase')
    (hclaims : ∀ p, phase'.claims = some p → own.phase.claims = some p)
    (hruns : phase'.runs = own.phase.runs) :
    Inv (s.modifyCpu c fun cpu => { cpu with proc := x })
      (update g c { own with phase := phase' }) := by
  have hknows : Knows s c own := hown ▸ h.knows c
  refine h.still hown ⟨hknows.held, ?_, ?_, ?_, hknows.view⟩ rfl rfl
    (fun c' hc => cpu_modifyCpu_of_ne hc) rfl (fun _ _ _ => Iff.rfl) hclaims hruns hstack h.log
  · rw [cpu_modifyCpu_self, hproc]
  · show s.live c = phase'.thread c
    unfold Phase.thread
    rw [hstack]
    exact hknows.live
  · refine hphase.keep ?_ fun p _ => ⟨fun _ hp => hp, Iff.rfl, rfl⟩
    rw [cpu_modifyCpu_self]

/-- The histories after a `swtch` of process `p`, by a CPU that holds no lock of another one. -/
theorem Inv.log_swtch {new : Thread n m} (h : Inv s g)
    (hlock : ∀ q, s.lock (.proc q) = some c ↔ q = p)
    (q : Fin n) :
    holderAfter (update s.log p (.swtch (s.live c) new :: s.log p) q) =
      some ((s.lock (.proc q)).map (update s.live c new)) := by
  have hlog := h.log q
  by_cases hq : q = p
  · subst hq
    rw [(hlock q).mpr rfl, map_some] at hlog ⊢
    simp [holderAfter, hlog]
  · rw [update_of_ne hq, hlog]
    cases hheld : s.lock (.proc q) with
    | none => rfl
    | some c' =>
      have hne : c' ≠ c := by
        rintro rfl
        exact hq ((hlock q).mp hheld)
      rw [map_some, map_some, update_of_ne hne]

variable [NeZero n]

theorem triple_step {post : Res o → Own n → Prop} (hneeds : needs o own)
    (hstep : ∀ s g ok, Inv s g → g c = own → Knows s c own →
      (exec c ok o s).Ensures (fun _ => True) fun result s' =>
        ∃ own', Inv s' (update g c own') ∧ post result own') :
    Triple c own (.perform o) post :=
  .perform rfl hneeds fun s g ok hinv hown _ => hstep s g ok hinv hown (hown ▸ hinv.knows c)

theorem triple_panic {message : String} {own₁ : Own n} :
    Moves c own (.perform (.panic message)) own₁ :=
  triple_step trivial fun _ _ _ _ _ _ => trivial

theorem triple_read (hneeds : needs o own) (post : Res o → Prop)
    (hstep : ∀ s ok, Knows (m := m) s c own →
      (exec c ok o s).Ensures (fun _ => True) fun result s' => s' = s ∧ post result) :
    Triple c own (.perform o) fun result own' => own' = own ∧ post result := by
  refine triple_step hneeds fun s g ok hinv hown hknows => ?_
  refine (hstep s ok hknows).mono ?_
  rintro result s' ⟨rfl, hpost⟩
  refine ⟨own, ?_, rfl, hpost⟩
  rwa [← hown, update_eq_self]

theorem triple_skip (hneeds : needs o own) (hstep : ∀ (s : State n m) ok,
      (exec c ok o s).Ensures (fun _ => True) fun _ s' => s' = s) :
    Moves c own (.perform o) own := by
  refine .mono (triple_read hneeds (fun _ => True) fun s ok _ => ?_) fun _ _ h => h.1
  exact (hstep s ok).mono fun _ _ h => ⟨h, trivial⟩

theorem triple_myproc : Triple c own (.perform .myproc)
    fun result own' => own' = own ∧ result = own.phase.cpuProc :=
  triple_read (o := .myproc) trivial (fun result => result = own.phase.cpuProc)
    fun _ _ hknows => ⟨rfl, hknows.proc⟩

theorem triple_schedChecks : Moves c own (.perform (.schedChecks p)) own := by
  refine triple_skip trivial fun s _ => ?_
  simp only [exec]
  split
  · trivial
  · split
    · trivial
    · split
      · trivial
      · split
        · trivial
        · rfl

theorem triple_isRunnable (hq : q ∈ own.held) :
    Triple c own (.perform (.isRunnable q)) fun runnable own' =>
      own' = { own with view := if runnable then .runnable q else .none } := by
  refine triple_step trivial fun s g ok hinv hown _ => ⟨_, hinv.look hown ?_, rfl⟩
  by_cases hstate : (s.proc q).state = .RUNNABLE
  · rw [hstate]
    exact ⟨hq, hstate⟩
  · simp [hstate, ViewOk]

theorem triple_isUnused (hq : q ∈ own.held) :
    Triple c own (.perform (.isUnused q)) fun unused own' =>
      own' = { own with view := if unused then .unused q else .none } := by
  refine triple_step trivial fun s g ok hinv hown _ => ⟨_, hinv.look hown ?_, rfl⟩
  by_cases hstate : (s.proc q).state = .UNUSED
  · rw [hstate]
    exact ⟨hq, hstate⟩
  · simp [hstate, ViewOk]

/-! ### Flags of the CPU -/

/-- An operation that changes neither `c->proc` nor `c->scheduler`. -/
theorem triple_flag (hneeds : needs o own) (f : Cpu n → Cpu n)
    (hexec : ∀ (s : State n m) ok, (exec c ok o s).Ensures (fun _ => True) fun _ s' =>
      s' = s.modifyCpu c f)
    (hproc : ∀ cpu, (f cpu).proc = cpu.proc)
    (hscheduler : ∀ cpu, (f cpu).scheduler = cpu.scheduler) :
    Moves c own (.perform o) own := by
  refine triple_step hneeds fun s g ok hinv hown hknows => ?_
  refine (hexec s ok).mono ?_
  rintro result s' rfl
  refine ⟨own, ?_, rfl⟩
  refine hinv.still hown ⟨hknows.held, ?_, hknows.live, ?_, hknows.view⟩ rfl rfl
    (fun c' hc => cpu_modifyCpu_of_ne hc) rfl (fun _ _ _ => Iff.rfl) (fun _ hp => hp) rfl rfl
    hinv.log
  · rw [cpu_modifyCpu_self, hproc]
    exact hknows.proc
  · refine hknows.phase.keep ?_ fun p _ => ⟨fun _ hp => hp, Iff.rfl, rfl⟩
    rw [cpu_modifyCpu_self, hscheduler]

/-! ### Locks -/

theorem triple_acquire : Triple c own (.perform (.acquire (.proc q)))
    fun _ own' => own' = { own with held := insert q own.held } ∧ q ∉ own.held := by
  refine triple_step trivial fun s g ok hinv hown hknows => ?_
  simp only [exec]
  split
  next hlock =>
    have hq : q ∉ own.held := by
      intro hmem
      rw [(hknows.held q).mpr hmem] at hlock
      cases hlock
    refine ⟨{ own with held := insert q own.held },
      hinv.relock hown rfl rfl (.inl hlock) (.inr rfl) ?_ rfl ?_ ?_ ?_, rfl, hq⟩
    · intro r
      rw [mem_insert, ← hknows.held r]
      by_cases hr : r = q
      · simp [hr]
      · simp [hr]
    · exact fun p _ _ hp => mem_insert_of_mem hp
    · exact hknows.view.keep fun r hr => ⟨mem_insert_of_mem hr, rfl, rfl⟩
    · rintro r ⟨⟩
      have hlog := hinv.log q
      rw [hlock] at hlog
      simp [holderAfter, hlog]
  next c' hlock =>
    split
    · trivial
    · trivial

theorem triple_acquire_other {address : Nat} :
    Moves c own (.perform (.acquire (.other address))) own := by
  refine triple_step trivial fun s g ok hinv hown hknows => ?_
  simp only [exec]
  split
  next hlock =>
    refine ⟨own, hinv.relock hown rfl rfl (.inl hlock) (.inr rfl) ?_ rfl
      (fun _ _ _ hp => hp) hknows.view nofun, rfl⟩
    · intro r
      exact hknows.held r
  next c' hlock =>
    split
    · trivial
    · trivial

/-- `release` of the lock of a process, unless the phase of the CPU needs it. -/
theorem triple_release (hphase : ∀ p, phase.claims = some p → phase ≠ .running p → p ≠ q) :
    Moves c ⟨held, phase, view⟩ (.perform (.release (.proc q))) ⟨held.erase q, phase, .none⟩ := by
  refine triple_step trivial fun s g ok hinv hown hknows => ?_
  simp only [exec]
  split
  next hlock =>
    split
    next cpu hpop =>
      obtain ⟨hproc, hscheduler⟩ := popOff_eq hpop
      refine ⟨⟨held.erase q, phase, .none⟩,
        hinv.relock hown hproc hscheduler (.inr hlock) (.inl rfl) ?_ rfl ?_ trivial ?_, rfl⟩
      · intro r
        rw [mem_erase, ← hknows.held r]
        by_cases hr : r = q
        · simp [hr]
        · simp [hr]
      · exact fun p hp hnot hmem => mem_erase.mpr ⟨hphase p hp hnot, hmem⟩
      · rintro r ⟨⟩
        have hlog := hinv.log q
        rw [hlock] at hlog
        simp [holderAfter, hlog]
    next => trivial
  next => trivial

theorem triple_release_other {address : Nat} :
    Moves c own (.perform (.release (.other address))) own := by
  refine triple_step trivial fun s g ok hinv hown hknows => ?_
  simp only [exec]
  split
  next hlock =>
    split
    next cpu hpop =>
      obtain ⟨hproc, hscheduler⟩ := popOff_eq hpop
      refine ⟨own, hinv.relock hown hproc hscheduler (.inr hlock) (.inl rfl) ?_ rfl
        (fun _ _ _ hp => hp) hknows.view nofun, rfl⟩
      · intro r
        exact hknows.held r
    next => trivial
  next => trivial

/-! ### Writing to a locked slot -/

theorem triple_write (hneeds : needs o ⟨held, phase, view⟩) (hq : q ∈ held) (view' : View n)
    (hstep : ∀ (s : State n m) ok, Knows s c ⟨held, phase, view⟩ →
      (exec c ok o s).Ensures (fun _ => True) fun _ s' =>
        ∃ f, Writes q f s s' ∧ Proper (s.saved q) (s.proc q) (f (s.proc q)) ∧
          ViewOk s' held view') :
    Moves c ⟨held, phase, view⟩ (.perform o) ⟨held, phase, view'⟩ := by
  refine triple_step hneeds fun s g ok hinv hown hknows => ?_
  refine (hstep s ok hknows).mono ?_
  rintro result s' ⟨f, hwrites, hproper, hview⟩
  exact ⟨_, hinv.write hown hwrites hq hproper.run hproper.used hproper.context hview, rfl⟩

/-- An operation that writes to a locked slot when the CPU remembers nothing about it. -/
theorem triple_poke (hneeds : needs o ⟨held, phase, .none⟩) (hq : q ∈ held)
    (hstep : ∀ (s : State n m) ok, (exec c ok o s).Ensures (fun _ => True) fun _ s' =>
      ∃ f, Writes q f s s' ∧ Proper (s.saved q) (s.proc q) (f (s.proc q))) :
    Moves c ⟨held, phase, .none⟩ (.perform o) ⟨held, phase, .none⟩ := by
  refine triple_write hneeds hq .none fun s ok _ => (hstep s ok).mono ?_
  rintro result s' ⟨f, hwrites, hproper⟩
  exact ⟨f, hwrites, hproper, trivial⟩

theorem triple_clearChan (hp : p ∈ held) :
    Moves c ⟨held, phase, .none⟩ (.perform (.clearChan p)) ⟨held, phase, .none⟩ :=
  triple_poke trivial hp fun _ _ => ⟨_, writes_modify, .of_state rfl rfl⟩

theorem triple_giveToInit (hq : q ∈ held) :
    Moves c ⟨held, phase, .none⟩ (.perform (.giveToInit q)) ⟨held, phase, .none⟩ :=
  triple_poke trivial hq fun _ _ => ⟨_, writes_modify, .of_state rfl rfl⟩

theorem triple_wakeup {chan : Chan n} (hq : q ∈ held) :
    Moves c ⟨held, phase, .none⟩ (.perform (.wakeup q chan)) ⟨held, phase, .none⟩ :=
  triple_poke trivial hq fun _ _ => ⟨_, writes_modify, proper_wakeupOn chan _⟩

theorem triple_wakeup1 (hq : q ∈ held) :
    Moves c ⟨held, phase, .none⟩ (.perform (.wakeup1 q)) ⟨held, phase, .none⟩ := by
  refine triple_poke trivial hq fun s _ => ?_
  simp only [exec]
  split
  · exact ⟨_, writes_modify, proper_wakeup1 q _⟩
  · trivial

theorem triple_kill {pid : BitVec 32} (hq : q ∈ held) :
    Moves c ⟨held, phase, .none⟩ (.perform (.kill q pid)) ⟨held, phase, .none⟩ := by
  refine triple_poke trivial hq fun s _ => ?_
  simp only [exec]
  split
  · exact ⟨_, writes_modify, proper_killProc _⟩
  · exact ⟨id, writes_id, .of_state rfl rfl⟩

theorem triple_collect {addr : Nat} (hq : q ∈ held) :
    Moves c ⟨held, phase, .none⟩ (.perform (.collect q addr)) ⟨held, phase, .none⟩ := by
  refine triple_poke trivial hq fun s _ => ?_
  simp only [exec]
  split
  next hzombie =>
    split
    · exact ⟨id, writes_id, .of_state rfl rfl⟩
    · exact ⟨_, writes_modify, .of_freed (by simp [hzombie]) rfl rfl⟩
  next => exact ⟨id, writes_id, .of_state rfl rfl⟩

/-! ### A new process -/

section

variable (hq : q ∈ held)
include hq

theorem triple_allocpid : Moves c ⟨held, phase, .unused q⟩ (.perform (.allocpid q))
      ⟨held, phase, .unused q⟩ := by
  refine triple_write (o := .allocpid q) trivial hq (.unused q) fun s ok hknows => ?_
  refine ⟨fun p => { p with pid := s.nextpid }, ⟨rfl, rfl, rfl, rfl, rfl, rfl⟩,
    .of_state rfl rfl, hq, ?_⟩
  rw [proc_modify_self]
  exact hknows.view.2

theorem triple_setParent : Moves c ⟨held, phase, .ready q⟩ (.perform (.setParent q p))
      ⟨held, phase, .ready q⟩ := by
  refine triple_write (o := .setParent q p) trivial hq (.ready q) fun s ok hknows => ?_
  refine ⟨_, writes_modify, .of_state rfl rfl, hq, ?_⟩
  rw [proc_modify_self]
  exact hknows.view.2

theorem triple_freeproc : Moves c ⟨held, phase, .ready q⟩ (.perform (.freeproc q))
      ⟨held, phase, .none⟩ := by
  refine triple_write (o := .freeproc q) trivial hq .none fun s ok hknows => ?_
  have hunused : (s.proc q).state = .UNUSED := hknows.view.2.1
  exact ⟨freeproc, writes_modify, .of_freed (by simp [hunused]) rfl rfl, trivial⟩

theorem triple_setRunnable : Moves c ⟨held, phase, .ready q⟩ (.perform (.setRunnable q))
      ⟨held, phase, .none⟩ := by
  refine triple_write (o := .setRunnable q) trivial hq .none fun s ok hknows => ?_
  obtain ⟨-, hunused, hsaved⟩ := hknows.view
  refine ⟨_, writes_modify, ⟨?_, fun _ => .inr hsaved, rfl⟩, trivial⟩
  rw [hunused]
  simp

/-- `allocproc` gives a free slot the context of a new process. -/
theorem triple_initContext : Moves c ⟨held, .running p, .unused q⟩ (.perform (.initContext q))
      ⟨held, .running p, .ready q⟩ := by
  refine triple_step trivial fun s g ok hinv hown hknows => ⟨_, ?_, rfl⟩
  have hlock := (hknows.held q).mpr hq
  have hunused : (s.proc q).state = .UNUSED := hknows.view.2
  have hpq : p ≠ q := by
    rintro rfl
    simpa using hknows.phase.1.symm.trans hunused
  refine hinv.slot hown ⟨hknows.held, hknows.proc, hknows.live, ?_, hq, ?_, update_self ..⟩ hlock
    rfl (fun _ _ => rfl) (fun _ _ => rfl)
    (fun r hr => ⟨proc_modify_of_ne hr, update_of_ne hr ..⟩) (fun _ _ => ⟨id, id, id⟩) .inl ?_ ?_
    (fun _ => .inl (update_self ..)) ?_ hinv.log
  · obtain ⟨hrunning, hnot, hback⟩ := hknows.phase
    exact ⟨by rwa [proc_modify_of_ne hpq], (update_of_ne hpq ..).trans hnot, hback⟩
  · rwa [proc_modify_self]
  · intro hr _
    simpa using hr.symm.trans hunused
  · intro hr
    rw [proc_modify_self] at hr
    simpa using hr.symm.trans hunused
  · intro _
    rw [proc_modify_self]
    trivial

end

/-! ### From a scheduler to a process and back -/

/-- `p->state = RUNNING`, in a slot that the scheduler has found `RUNNABLE`. -/
theorem triple_setRunning (hq : q ∈ held) :
    Moves c ⟨held, .idle, .runnable q⟩ (.perform (.setRunning q)) ⟨held, .chosen q, .none⟩ := by
  refine triple_step trivial fun s g ok hinv hown hknows => ⟨_, ?_, rfl⟩
  have hlock := (hknows.held q).mpr hq
  have hrunnable : (s.proc q).state = .RUNNABLE := hknows.view.2
  have hunclaimed : ∀ c', c' ≠ c → (g c').phase.claims ≠ some q := fun c' hc =>
    hinv.unclaimed hlock (by simp [hrunnable]) hc
  -- nobody is on the stack of the process, so its context is saved
  have hsaved : s.saved q = true := by
    rcases hinv.context q (by simp [hrunnable]) with hsaved | ⟨c', hc'⟩
    · exact hsaved
    · have hclaims := Phase.claims_of_cpuProc (Phase.cpuProc_of_onStack hc')
      by_cases hcc : c' = c
      · rw [hcc, hown] at hclaims
        cases hclaims
      · exact absurd hclaims (hunclaimed c' hcc)
  refine hinv.slot hown ⟨hknows.held, hknows.proc, hknows.live, ⟨hq, ?_, hsaved⟩, trivial⟩ hlock
    rfl (fun _ _ => rfl) (fun _ _ => rfl) writes_modify.other
    (fun r hr => ⟨fun h => absurd (some.inj h).symm hr, nofun, nofun⟩)
    (fun _ => .inr hunclaimed) ?_ (fun _ => .inl rfl) (fun _ => .inl hsaved) ?_ hinv.log
  · rw [proc_modify_self]
  · intro hr _
    rw [hrunnable] at hr
    cases hr
  · intro hr
    rw [proc_modify_self]
    exact hinv.resumes q hr

theorem triple_setCpuProc : Moves c ⟨held, .chosen q, .none⟩ (.perform (.setCpuProc q))
      ⟨held, .lending q, .none⟩ := by
  refine triple_step trivial fun s g ok hinv hown hknows => ⟨_, ?_, rfl⟩
  have hphase : PhaseOk s c held (.lending q) := hknows.phase
  exact hinv.setCpuProc hown rfl rfl hphase (fun _ hp => hp) rfl

/-- `c->proc = 0`, when the process is back or before the first one was chosen. -/
theorem triple_clearCpuProc (hphase : phase = .idle ∨ ∃ p, phase = .returned p) :
    Moves c ⟨held, phase, view⟩ (.perform .clearCpuProc) ⟨held, .idle, view⟩ := by
  have hsame : phase.onStack = none ∧ phase.runs = none := by
    rcases hphase with rfl | ⟨p, rfl⟩ <;> exact ⟨rfl, rfl⟩
  refine triple_step trivial fun s g ok hinv hown _ => ⟨_, ?_, rfl⟩
  have hidle : PhaseOk s c held .idle := trivial
  exact hinv.setCpuProc hown rfl hsame.1.symm hidle nofun hsame.2.symm

variable {point : Label n}

theorem triple_swtchTo (hpoint : point.Back q) :
    Triple c ⟨{q}, .lending q, .none⟩ (.perform (.swtchTo q point))
      fun label own' => own' = ⟨{q}, .running q, .none⟩ ∧ Label.Resumes q label := by
  refine triple_step ⟨rfl, rfl, hpoint⟩ fun s g ok hinv hown hknows => ?_
  obtain ⟨-, hrunning, hsaved⟩ := hknows.phase
  have hlock : ∀ r, s.lock (.proc r) = some c ↔ r = q := fun r =>
    (hknows.held r).trans mem_singleton
  refine ⟨⟨{q}, .running q, .none⟩, ?_, rfl, hinv.resumes q hsaved⟩
  refine hinv.slot hown ⟨hknows.held, ?_, update_self .., ⟨hrunning, update_self .., ?_⟩, trivial⟩
    ((hlock q).mpr rfl) rfl ?_ (fun c' hc => update_of_ne hc ..)
    (fun r hr => ⟨rfl, update_of_ne hr ..⟩) (fun _ _ => ⟨id, id, nofun⟩) .inl
    (fun _ hclaims => absurd rfl hclaims) (fun _ => .inl rfl) (fun _ => .inr (.inl rfl)) ?_
    (hinv.log_swtch hlock)
  · rw [cpu_swtchTo, cpu_modifyCpu_self]
    exact hknows.proc
  · rwa [cpu_swtchTo, cpu_modifyCpu_self]
  · intro c' hc
    rw [cpu_swtchTo, cpu_modifyCpu_of_ne hc]
  · intro hr
    rw [saved_swtchTo, update_self] at hr
    cases hr

theorem triple_swtchOut (hpoint : point.Resumes p) :
    Triple c ⟨{p}, .parking p, .none⟩ (.perform (.swtchOut p point))
      fun label own' => own' = ⟨{p}, .returned p, .none⟩ ∧ Label.Back p label := by
  refine triple_step ⟨rfl, rfl, hpoint⟩ fun s g ok hinv hown hknows => ?_
  obtain ⟨hheld, hstate, -, hback⟩ := hknows.phase
  have hlock : ∀ r, s.lock (.proc r) = some c ↔ r = p := fun r =>
    (hknows.held r).trans mem_singleton
  refine ⟨⟨{p}, .returned p, .none⟩, ?_, rfl, hback⟩
  have hself : (s.swtchOut c p point).proc p = { s.proc p with context := point } := by
    rw [proc_swtchOut, proc_modify_self]
  refine hinv.slot hown ⟨hknows.held, hknows.proc, update_self .., ⟨hheld, ?_⟩, trivial⟩
    ((hlock p).mpr rfl) rfl (fun _ _ => rfl) (fun c' hc => update_of_ne hc .. ) ?_
    (fun r hr => ⟨id, nofun, fun h => absurd (some.inj h).symm hr⟩) .inl
    (fun _ hclaims => absurd rfl hclaims) ?_ (fun _ => .inl (update_self ..)) ?_
    (hinv.log_swtch hlock)
  · rwa [hself]
  · intro r hr
    rw [proc_swtchOut, proc_modify_of_ne hr]
    exact ⟨rfl, update_of_ne hr ..⟩
  · intro hr
    rw [hself] at hr
    exact absurd hr hstate
  · intro _
    rwa [hself]

/-- A process that runs and has locked itself changes its state. -/
theorem triple_park (f : Proc n → Proc n) (hneeds : needs o ⟨held, .running p, .none⟩)
    (hp : p ∈ held) (hexec : ∀ (s : State n m) ok,
      (exec c ok o s).Ensures (fun _ => True) fun _ s' => s' = s.modify p f)
    (hstate : ∀ proc, (f proc).state ≠ .RUNNING)
    (hcontext : ∀ proc, (f proc).context = proc.context) :
    Moves c ⟨held, .running p, .none⟩ (.perform o) ⟨held, .parking p, .none⟩ := by
  refine triple_step hneeds fun s g ok hinv hown hknows => (hexec s ok).mono ?_
  rintro result s' rfl
  refine ⟨⟨held, .parking p, .none⟩, ?_, rfl⟩
  obtain ⟨hrunning, hsaved, hback⟩ := hknows.phase
  refine hinv.slot hown ⟨hknows.held, hknows.proc, hknows.live, ⟨hp, ?_, hsaved, hback⟩, trivial⟩
    ((hknows.held p).mpr hp) rfl (fun _ _ => rfl) (fun _ _ => rfl) writes_modify.other
    (fun r hr => ⟨id, fun h => absurd (some.inj h).symm hr, id⟩) .inl
    (fun _ hclaims => absurd rfl hclaims) ?_ (fun _ => .inr (.inl rfl)) ?_ hinv.log
  · rw [proc_modify_self]
    exact hstate _
  · intro hr
    rw [proc_modify_self] at hr
    exact absurd hr (hstate _)
  · intro hr
    rw [proc_modify_self, hcontext]
    exact hinv.resumes p hr

end Xv6.Sched
