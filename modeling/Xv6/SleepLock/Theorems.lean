import Xv6.SleepLock.Invariant

/-!
# Sleep-locks exclude, and lose no wakeup

The operations and the code of `sleeplock.c`, `sleep`, `wakeup` and `kill` keep the invariant. Read
`sleeplock_safe` first.
-/

namespace Xv6.SleepLock

open Interleave Function List Option Discipline

variable {n : Nat} {Lk : Type} [DecidableEq Lk]

/-- What a process knows between two calls. -/
def idle : Label Lk → Own n Lk → Prop
  | .user held, own => own = ⟨none, none, .plain, held⟩
  | .trying l held, own => own = ⟨some l, none, .plain, held⟩

/-- How the processes share the sleep-locks. -/
def discipline (n : Nat) (Lk : Type) [DecidableEq Lk] : Discipline (machine n Lk) (Own n Lk) where
  inv := Inv
  needs := fun _ _ _ => True
  idle := fun _ => idle
  allowed := fun _ => True
  guard := fun _ _ _ => True

abbrev Moves {α : Type} (p : Fin n) (own : Own n Lk) (prog : Code n Lk α)
    (own' : Own n Lk) : Prop :=
  (discipline n Lk).Moves p own prog own'

variable {s : State n Lk} {g : Fin n → Own n Lk} {p q : Fin n} {l : Lk} {owned : List Lk}
  {lk : Option Lk} {plock : Option (Fin n)} {mode : Mode n Lk}

/-! ### Operations on processes -/

variable {o : Op n Lk} {own own' : Own n Lk}

theorem moves_step (hstep : ∀ s g, Inv s g → g p = own → Knows s p own →
      (exec p o s).Ensures (fun _ => True) fun _ s' => Inv s' (update g p own')) :
    Moves p own (.perform o) own' :=
  .perform rfl trivial fun s g _ hinv hgp _ => hstep s g hinv hgp (hgp ▸ hinv.knows p)

theorem triple_acquire (hmode : ∀ l, mode ≠ .commits l) :
    Moves p ⟨lk, none, mode, owned⟩ (.perform (.acquire q)) ⟨lk, some q, mode, owned⟩ := by
  refine moves_step fun s g hinv hgp hknows => ?_
  simp only [exec]
  cases hlock : (s.proc q).lock with
  | some r =>
    dsimp only
    split <;> trivial
  | none =>
    refine hinv.step_modify (.inl hlock) rfl (by rw [hgp]) (by rw [hgp]) ?_ ?_ ?_
    · rintro r ⟨⟩
      simp
    · cases mode with
      | commits l => exact absurd rfl (hmode l)
      | plain => trivial
      | sees l locked => exact hknows.mode
      | releases l => exact hknows.mode
      | clears l rest => exact hknows.mode
    · refine hinv.wakes_step (fun r l => waiting_modify (fun h h' => ⟨h, h'⟩) ?_) (fun _ h => h) ?_
      · intro h
        exact absurd h (hmode l)
      · intro r l _ h
        rwa [hgp] at h

/-- `acquire(&p->lock)` in `sleep`, by a process that has seen that the sleep-lock is taken. -/
theorem triple_acquire_commit : Moves p ⟨some l, none, .sees l true, owned⟩ (.perform (.acquire p))
      ⟨some l, some p, .commits l, owned⟩ := by
  refine moves_step fun s g hinv hgp hknows => ?_
  simp only [exec]
  cases hlock : (s.proc p).lock with
  | some r =>
    dsimp only
    split <;> trivial
  | none =>
    have hlocked : (s.sleeplock l).locked = true := hknows.mode.2
    refine hinv.step_modify (.inl hlock) rfl (by rw [hgp]) (by rw [hgp]) ?_ rfl ?_
    · rintro r ⟨⟩
      simp
    · intro r l' hw
      by_cases hl : l' = l
      · rw [hl]
        exact .inl hlocked
      · have hold : Waiting s g r l' :=
          waiting_modify (fun h h' => ⟨h, h'⟩) (fun h => absurd (Mode.commits.inj h).symm hl) hw
        refine (hinv.wakes r l' hold).step id ?_
        rw [hgp]
        exact fun ⟨_, hm, _⟩ => nomatch hm

/-- An operation of a process on one whose lock it holds, after which nobody new waits. -/
theorem triple_modify {f : Proc n Lk → Proc n Lk} {plock' : Option (Fin n)}
    {post : Res o → Own n Lk → Prop}
    (hexec : ∀ s : State n Lk, (s.proc q).lock = some p →
      (exec p o s).Ensures (fun _ => True) fun result s' =>
        s' = s.modify q f ∧ post result ⟨lk, plock', mode, owned⟩)
    (hpid : ∀ proc, (f proc).pid = proc.pid)
    (hwaits : ∀ (proc : Proc n Lk) l, (f proc).state = .SLEEPING → (f proc).chan = some (.lk l) →
      proc.state = .SLEEPING ∧ proc.chan = some (.lk l))
    (hplock : plock' = none ∨ plock' = some q ∧ ∀ proc, (f proc).lock = proc.lock)
    (hmode : ∀ l, mode ≠ .commits l) :
    (discipline n Lk).Triple p ⟨lk, some q, mode, owned⟩ (.perform o) post := by
  refine .perform rfl trivial ?_
  intro s g choice hinv hgp _
  have hknows := hinv.knows p
  rw [hgp] at hknows
  have hlock := hknows.plock q rfl
  refine (hexec s hlock).mono ?_
  rintro result s' ⟨rfl, hpost⟩
  refine ⟨_, ?_, hpost⟩
  refine hinv.step_modify (.inr hlock) (hpid _) (by rw [hgp]) (by rw [hgp]) ?_ ?_ ?_
  · intro r hr
    rcases hplock with rfl | ⟨rfl, hkeep⟩
    · cases hr
    · cases hr
      rwa [proc_modify_self, hkeep]
  · have hold := hknows.mode
    cases mode with
    | commits l => exact absurd rfl (hmode l)
    | plain => trivial
    | sees l locked => exact hold
    | releases l => exact hold
    | clears l rest => exact hold
  · refine hinv.wakes_step (fun r l => waiting_modify (hwaits _ l) ?_) (fun _ h => h) ?_
    · exact fun h => absurd h (hmode l)
    · intro r l _ h
      rwa [hgp] at h

theorem triple_release (hmode : ∀ l, mode ≠ .commits l) :
    Moves p ⟨lk, some q, mode, owned⟩ (.perform (.release q)) ⟨lk, none, mode, owned⟩ := by
  refine triple_modify (f := fun proc => { proc with lock := none }) ?_ (fun _ => rfl)
    (fun _ _ h h' => ⟨h, h'⟩) (.inl rfl) hmode
  intro s hlock
  simp only [exec, if_pos hlock]
  exact ⟨rfl, trivial⟩

/-- The switch to the scheduler, which releases the lock of the process. -/
theorem triple_sched : Moves p ⟨none, some p, .plain, owned⟩ (.perform .sched)
      ⟨none, none, .plain, owned⟩ := by
  refine triple_modify (f := fun proc => { proc with lock := none }) ?_ (fun _ => rfl)
    (fun _ _ h h' => ⟨h, h'⟩) (.inl rfl) nofun
  intro s hlock
  simp only [exec, hlock, ne_eq, not_true_eq_false, if_false]
  split
  · trivial
  · exact ⟨rfl, trivial⟩

/-- `p->chan = 0`. -/
theorem triple_clearChan : Moves p ⟨none, some p, .plain, owned⟩ (.perform .clearChan)
      ⟨none, some p, .plain, owned⟩ :=
  triple_modify (f := fun proc => { proc with chan := none }) (fun _ _ => ⟨rfl, rfl⟩)
    (fun _ => rfl) (nofun) (.inr ⟨rfl, fun _ => rfl⟩) nofun

variable {pid : BitVec 32}

theorem triple_killOne : Moves p ⟨none, some q, .plain, owned⟩ (.perform (.kill q pid))
      ⟨none, some q, .plain, owned⟩ := by
  refine triple_modify (f := fun proc => if proc.pid = pid then killProc proc else proc) ?_ ?_ ?_
    (.inr ⟨rfl, ?_⟩) nofun
  · intro s _
    by_cases hpid : (s.proc q).pid = pid
    · simp only [exec, if_pos hpid]
      refine ⟨?_, trivial⟩
      simp [State.modify, hpid]
    · simp only [exec, if_neg hpid]
      refine ⟨?_, trivial⟩
      simp [State.modify, hpid]
  · intro proc
    split <;> rfl
  · intro proc l
    split
    · intro h
      simp only [killProc] at h
      split at h
      · cases h
      · next hne => exact absurd h hne
    · exact fun h h' => ⟨h, h'⟩
  · intro proc
    split <;> rfl

variable {address : Nat}

theorem triple_wakeup_other :
    Moves p ⟨none, some q, .plain, owned⟩ (.perform (.wakeup q (.other address)))
      ⟨none, some q, .plain, owned⟩ := by
  refine triple_modify (fun _ _ => ⟨rfl, rfl⟩) ?_ ?_ (.inr ⟨rfl, ?_⟩) nofun
  · intro proc
    unfold wakeupOn
    split <;> rfl
  · intro proc l
    unfold wakeupOn
    split
    · exact nofun
    · exact fun h h' => ⟨h, h'⟩
  · intro proc
    unfold wakeupOn
    split <;> rfl

theorem triple_setSleeping_other : Moves p ⟨none, some p, .plain, owned⟩
      (.perform (.setSleeping (.other address))) ⟨none, some p, .plain, owned⟩ :=
  triple_modify (fun _ _ => ⟨rfl, rfl⟩) (fun _ => rfl) (nofun) (.inr ⟨rfl, fun _ => rfl⟩) nofun

/-- Going to sleep on a sleep-lock, as decided when `lk->lk` was held. -/
theorem triple_setSleeping_lk :
    Moves p ⟨none, some p, .commits l, owned⟩ (.perform (.setSleeping (.lk l)))
      ⟨none, some p, .plain, owned⟩ := by
  refine moves_step fun s g hinv hgp hknows => ?_
  have hlock := hknows.plock p rfl
  refine hinv.step_modify (.inr hlock) rfl (by rw [hgp]) (by rw [hgp]) ?_ trivial ?_
  · rintro r ⟨⟩
    rwa [proc_modify_self]
  · refine hinv.wakes_step (fun r l' hw => ?_) (fun _ h => h) ?_
    · rcases hw with ⟨hstate, hchan⟩ | hcommits
      · by_cases hr : r = p
        · subst hr
          rw [proc_modify_self] at hchan
          cases hchan
          exact .inr (by rw [hgp])
        · rw [proc_modify_of_ne hr] at hstate hchan
          exact .inl ⟨hstate, hchan⟩
      · exact .inr (commits_of_update (by simp) hcommits)
    · intro r l' _ h
      rw [hgp] at h
      exact (fun ⟨_, hm, _⟩ => nomatch hm) h

theorem triple_resume : Moves p ⟨none, none, .plain, owned⟩ (.perform .resume)
      ⟨none, some p, .plain, owned⟩ := by
  refine moves_step fun s g hinv hgp _ => ?_
  simp only [exec]
  split
  · next hcond =>
      refine hinv.step_modify (.inl hcond.1) rfl (by rw [hgp]) (by rw [hgp]) ?_ trivial ?_
      · rintro r ⟨⟩
        simp
      · refine hinv.wakes_step (fun r l => waiting_modify nofun nofun) (fun _ h => h) ?_
        intro r l _ h
        rwa [hgp] at h
  · trivial

theorem triple_wakeup_lk {rest : List (Fin n)} :
    Moves p ⟨some l, some q, .clears l (q :: rest), owned⟩
      (.perform (.wakeup q (.lk l))) ⟨some l, some q, .clears l rest, owned⟩ := by
  refine moves_step fun s g hinv hgp hknows => ?_
  have hlock := hknows.plock q rfl
  have hkeep : ∀ proc : Proc n Lk, (wakeupOn (.lk l) proc).lock = proc.lock ∧
      (wakeupOn (.lk l) proc).pid = proc.pid := by
    intro proc
    unfold wakeupOn
    split <;> exact ⟨rfl, rfl⟩
  refine hinv.step_modify (.inr hlock) (hkeep _).2 (by rw [hgp]) (by rw [hgp]) ?_ hknows.mode ?_
  · rintro r ⟨⟩
    rwa [proc_modify_self, (hkeep _).1]
  · refine hinv.wakes_step (fun r l' => waiting_modify ?_ nofun) (fun _ h => h) ?_
    · unfold wakeupOn
      split
      · exact nofun
      · exact fun h h' => ⟨h, h'⟩
    · -- the scan covered `q`; it must not wait any more
      intro r l' hw h
      rw [hgp] at h
      obtain ⟨rest', hm, hmem⟩ := h
      cases hm
      rcases mem_cons.mp hmem with rfl | hrest
      · exfalso
        rcases hw with ⟨hstate, hchan⟩ | hcommits
        · rw [proc_modify_self] at hstate hchan
          unfold wakeupOn at hstate hchan
          split at hstate
          · cases hstate
          · next hnot =>
              rw [if_neg hnot] at hchan
              exact hnot ⟨hstate, hchan⟩
        · by_cases hr : r = p
          · subst hr
            rw [update_self] at hcommits
            cases hcommits
          · rw [update_of_ne hr] at hcommits
            have hown := (hinv.knows r).mode
            rw [hcommits] at hown
            have hlock' := (hinv.knows r).plock r hown
            rw [hlock] at hlock'
            exact hr (some.inj hlock').symm
      · exact ⟨rest, rfl, hrest⟩

/-! ### Operations on sleep-locks -/

/-- A step that keeps `lk->locked` and `lk->pid`. -/
theorem inv_spinlock {f : Sleeplock n → Sleeplock n} (hinv : Inv s g)
    (hlk : (s.sleeplock l).lk = none ∨ (s.sleeplock l).lk = some p)
    (hf : (f (s.sleeplock l)).locked = (s.sleeplock l).locked ∧
      (f (s.sleeplock l)).pid = (s.sleeplock l).pid)
    (hplock : own.plock = (g p).plock) (howned : own.owned = (g p).owned)
    (hownlk : ∀ l', own.lk = some l' → ((s.modifyLk l f).sleeplock l').lk = some p)
    (hmode : ModeOk (s.modifyLk l f) p own own.mode)
    (hcommits : ∀ l', own.mode = .commits l' → (g p).mode = .commits l')
    (hscan : ∀ q l', (g p).mode.covers l' q → own.mode.covers l' q) :
    Inv (s.modifyLk l f) (update g p own) := by
  have hsame : ∀ l', ((s.modifyLk l f).sleeplock l').locked = (s.sleeplock l').locked ∧
      ((s.modifyLk l f).sleeplock l').pid = (s.sleeplock l').pid := by
    intro l'
    by_cases heq : l' = l
    · subst heq
      simpa using hf
    · simp [heq]
  have hknows := hinv.knows p
  refine hinv.step_modifyLk hlk (fun _ _ _ => hf) ⟨hownlk, ?_, hmode, ?_, ?_⟩ ?_ ?_
  · rw [hplock]
    exact hknows.plock
  · intro l' hl'
    rw [howned] at hl'
    rw [(hsame l').1, (hsame l').2]
    exact hknows.owned l' hl'
  · rw [howned]
    exact hknows.holding
  · intro q hq l' hl'
    rw [howned] at hl'
    exact hinv.not_owned hl' hq
  · exact hinv.wakes_step (fun q l' => waiting_same rfl (hcommits l'))
      (fun l' h => (hsame l').1.trans h) fun q l' _ => hscan q l'

/-- `acquire(&lk->lk)`. -/
theorem triple_acquireLk (hmode : mode = .plain ∨ mode = .releases l) :
    Moves p ⟨none, none, mode, owned⟩ (.perform (.acquireLk l)) ⟨some l, none, mode, owned⟩ := by
  refine moves_step fun s g hinv hgp hknows => ?_
  simp only [exec]
  cases hlk : (s.sleeplock l).lk with
  | some r =>
    dsimp only
    split <;> trivial
  | none =>
    refine inv_spinlock hinv (.inl hlk) ⟨rfl, rfl⟩ (by rw [hgp]) (by rw [hgp]) ?_ ?_ ?_ ?_
    · rintro l' ⟨⟩
      simp
    · rcases hmode with rfl | rfl
      · trivial
      · exact hknows.mode
    · intro l' h
      rwa [hgp]
    · intro q l' h
      rwa [hgp] at h

/-- `release(&lk->lk)`, after the scan of `wakeup`: what was read of `lk->locked` is forgotten. -/
theorem triple_releaseLk {mode' : Mode n Lk}
    (hmode : mode' = .plain ∧ (mode = .plain ∨ mode = .clears l []) ∨
      mode' = .commits l ∧ mode = .commits l ∧ plock = some p) :
    Moves p ⟨some l, plock, mode, owned⟩ (.perform (.releaseLk l)) ⟨none, plock, mode', owned⟩ := by
  refine moves_step fun s g hinv hgp hknows => ?_
  have hlk := hknows.lk l rfl
  simp only [exec, if_pos hlk]
  refine inv_spinlock hinv (.inr hlk) ⟨rfl, rfl⟩ (by rw [hgp]) (by rw [hgp]) nofun ?_ ?_ ?_
  · rcases hmode with ⟨rfl, -⟩ | ⟨rfl, -, hplock⟩
    · trivial
    · exact hplock
  · intro l' h
    rw [hgp]
    rcases hmode with ⟨rfl, -⟩ | ⟨rfl, rfl, -⟩
    · cases h
    · exact h
  · rintro q l' ⟨rest, hm, hmem⟩
    rw [hgp] at hm
    rcases hmode with ⟨-, rfl | rfl⟩ | ⟨-, rfl, -⟩
    · cases hm
    · cases hm
      cases hmem
    · cases hm

/-- An operation that changes nothing, after which the process knows more. -/
theorem triple_look (result : State n Lk → Res o)
    (mode' : Res o → Mode n Lk) (hexec : ∀ s, exec p o s = .done (result s) s)
    (hmode : own.mode = .plain) (hnew : ∀ s, Knows s p own → ModeOk s p own (mode' (result s)))
    (hcommits : ∀ r l, mode' r ≠ .commits l) :
    (discipline n Lk).Triple p own (.perform o)
      fun r own' => own' = { own with mode := mode' r } := by
  refine .perform rfl trivial ?_
  intro s g choice hinv hgp _
  show (exec p o s).Ensures _ _
  rw [hexec s]
  have hknows := hinv.knows p
  rw [hgp] at hknows
  refine ⟨_, ?_, rfl⟩
  refine hinv.step ⟨hknows.lk, hknows.plock, ?_, hknows.owned, hknows.holding⟩
    (fun q _ => hinv.knows q) ?_ ?_
  · have := hnew s hknows
    cases hm : mode' (result s) with
    | plain => trivial
    | commits l => exact absurd hm (hcommits _ l)
    | sees l locked | releases l | clears l rest =>
      rwa [hm] at this
  · intro q hq l hl
    refine hinv.not_owned ?_ hq
    rwa [hgp]
  · refine hinv.wakes_step (fun q l => waiting_same rfl fun h => absurd h (hcommits _ l))
      (fun _ h => h) ?_
    rintro q l - ⟨rest, hm, -⟩
    rw [hgp, hmode] at hm
    cases hm

/-- Reading `lk->locked`. -/
theorem triple_isLocked :
    (discipline n Lk).Triple p ⟨some l, none, .plain, owned⟩ (.perform (.isLocked l))
      fun locked own' => own' = ⟨some l, none, .sees l locked, owned⟩ :=
  triple_look (o := .isLocked l) (fun s => (s.sleeplock l).locked) (.sees l) (fun _ => rfl) rfl
    (fun _ _ => ⟨rfl, rfl⟩) nofun

theorem triple_lock : Moves p ⟨some l, none, .sees l false, owned⟩ (.perform (.lock l))
      ⟨some l, none, .plain, l :: owned⟩ := by
  refine moves_step fun s g hinv hgp hknows => ?_
  have hlk := hknows.lk l rfl
  have hfree : (s.sleeplock l).locked = false := hknows.mode.2
  refine hinv.step_modifyLk (.inr hlk) ?_ ⟨?_, by simp, trivial, ?_, ?_⟩ ?_ ?_
  · intro q _ hmem
    exact absurd hmem (hinv.not_owned_of_unlocked hfree q)
  · rintro l' ⟨⟩
    rwa [sleeplock_modifyLk_self]
  · intro l' hl'
    by_cases heq : l' = l
    · subst heq
      simp [State.modifyLk]
    · rcases mem_cons.mp hl' with h | h
      · exact absurd h heq
      · rw [sleeplock_modifyLk_of_ne heq]
        exact hknows.owned l' h
  · exact fun l' hl' => mem_cons_of_mem l (hknows.holding l' hl')
  · intro q hq l' hl'
    rcases mem_cons.mp hl' with rfl | h
    · exact hinv.not_owned_of_unlocked hfree q
    · refine hinv.not_owned ?_ hq
      rwa [hgp]
  · refine hinv.wakes_step (fun q l' => waiting_same rfl (by simp)) ?_ ?_
    · intro l' h
      by_cases heq : l' = l
      · subst heq
        simp
      · rwa [sleeplock_modifyLk_of_ne heq]
    · rintro q l' - ⟨rest, hm, -⟩
      rw [hgp] at hm
      cases hm

/-- Freeing a sleep-lock: from now on `wakeup` has to come to every process. -/
theorem triple_unlock (hmem : l ∈ owned) :
    Moves p ⟨some l, none, .releases l, owned⟩ (.perform (.unlock l))
      ⟨some l, none, .clears l (List.finRange n), owned.filter (· ≠ l)⟩ := by
  refine moves_step fun s g hinv hgp hknows => ?_
  have hlk := hknows.lk l rfl
  have hmine : l ∈ (g p).owned := by
    rwa [hgp]
  refine hinv.step_modifyLk (.inr hlk) ?_ ⟨?_, nofun, ⟨rfl, hknows.mode.1⟩, ?_, ?_⟩ ?_ ?_
  · intro q hq h
    exact absurd h (hinv.not_owned hmine hq)
  · rintro l' ⟨⟩
    rwa [sleeplock_modifyLk_self]
  · intro l' hl'
    simp only [mem_filter, decide_eq_true_eq] at hl'
    rw [sleeplock_modifyLk_of_ne hl'.2]
    exact hknows.owned l' hl'.1
  · intro l' hl'
    have hne : l' ≠ l := ne_of_mem_of_not_mem hl' hknows.mode.2
    simpa [hne] using hknows.holding l' hl'
  · intro q hq l' hl'
    refine hinv.not_owned ?_ hq
    rw [hgp]
    exact mem_of_mem_filter hl'
  · intro q l' hw
    by_cases heq : l' = l
    · subst heq
      exact .inr ⟨p, List.finRange n, by rw [update_self], mem_finRange q⟩
    · have hold : Waiting s g q l' := by
        refine waiting_same rfl ?_ hw
        exact nofun
      refine (hinv.wakes q l' hold).step ?_ ?_
      · rw [sleeplock_modifyLk_of_ne heq]
        exact id
      · rintro ⟨rest, hm, -⟩
        rw [hgp] at hm
        cases hm

/-! ### History -/

/-- An operation that only changes what is recorded about process `p`. -/
theorem triple_record {own own' : Own n Lk} {f : State n Lk → State n Lk} {result : Res o}
    (hexec : ∀ s, exec p o s = .done result (f s))
    (hproc : ∀ s : State n Lk, (f s).proc = s.proc ∧ (f s).sleeplock = s.sleeplock)
    (hothers : ∀ (s : State n Lk) q, q ≠ p →
      (f s).holding q = s.holding q ∧ (f s).releasing q = s.releasing q)
    (hself : ∀ s, Knows s p own → Knows (f s) p own') (howned : own'.owned = own.owned)
    (hcommits : ∀ l, own'.mode ≠ .commits l) (hscan : ∀ l rest, own.mode ≠ .clears l rest) :
    (discipline n Lk).Triple p own (.perform o) fun _ own'' => own'' = own' := by
  refine .perform rfl trivial ?_
  intro s g choice hinv hgp _
  show (exec p o s).Ensures _ _
  rw [hexec s]
  have hknows := hinv.knows p
  rw [hgp] at hknows
  refine ⟨own', ?_, rfl⟩
  refine hinv.step (hself s hknows) ?_ ?_ ?_
  · intro q hq
    refine (hinv.knows q).other ?_ ?_ ?_ (by rw [(hproc s).1]) (hothers s q hq).1 (hothers s q hq).2
    · intro l hl
      rw [(hproc s).2]
      exact ⟨hl, rfl⟩
    · intro r hr
      rwa [(hproc s).1]
    · intro l _
      rw [(hproc s).2]
      exact ⟨rfl, rfl⟩
  · intro q hq l hl
    refine hinv.not_owned ?_ hq
    rwa [hgp, ← howned]
  · refine hinv.wakes_step (fun q l => waiting_same (hproc s).1 fun h => absurd h (hcommits l))
      ?_ ?_
    · intro l h
      rwa [(hproc s).2]
    · rintro q l - ⟨rest, hm, -⟩
      rw [hgp] at hm
      exact absurd hm (hscan l rest)

theorem triple_acquired (hmem : l ∈ owned) :
    Moves p ⟨none, none, .plain, owned⟩ (.perform (.acquired l)) ⟨none, none, .plain, owned⟩ := by
  refine triple_record
    (fun _ => rfl) (fun _ => ⟨rfl, rfl⟩) (fun s q hq => ⟨update_of_ne hq _ _, rfl⟩) ?_ rfl
    nofun nofun
  intro s h
  refine ⟨h.lk, h.plock, trivial, h.owned, ?_⟩
  intro l' hl'
  dsimp only at hl'
  rw [update_self] at hl'
  rcases mem_cons.mp hl' with rfl | hold
  · exact hmem
  · exact h.holding l' hold

theorem triple_releasing : Moves p ⟨none, none, .plain, owned⟩ (.perform (.releasing l))
      ⟨none, none, .releases l, owned⟩ := by
  refine triple_record (fun _ => rfl) (fun _ => ⟨rfl, rfl⟩)
    (fun s q hq => ⟨update_of_ne hq _ _, update_of_ne hq _ _⟩) ?_ rfl nofun nofun
  intro s h
  refine ⟨h.lk, h.plock, ⟨?_, ?_⟩, h.owned, ?_⟩
  · simp
  · simp
  · intro l' hl'
    dsimp only at hl'
    rw [update_self] at hl'
    exact h.holding l' (mem_of_mem_filter hl')

theorem triple_released : Moves p ⟨none, none, .plain, owned⟩ (.perform (.released l))
      ⟨none, none, .plain, owned⟩ :=
  triple_record (fun _ => rfl) (fun _ => ⟨rfl, rfl⟩) (fun _ _ hq => ⟨rfl, update_of_ne hq _ _⟩)
    (fun _ h => ⟨h.lk, h.plock, trivial, h.owned, h.holding⟩) rfl nofun nofun

/-! ### The code -/

/-- `sleep` from the moment `p->lock` is held, after the decision on which channel. -/
theorem triple_sleepLocked {chan : Chan Lk}
    (h : Moves p ⟨none, some p, mode, owned⟩ (.perform (.setSleeping chan))
      ⟨none, some p, .plain, owned⟩) :
    Moves p ⟨none, some p, mode, owned⟩ (sleepLocked p chan) ⟨none, none, .plain, owned⟩ := by
  refine .seq h ?_
  refine .seq triple_sched ?_
  refine .seq triple_resume ?_
  refine .seq triple_clearChan ?_
  exact triple_release nofun

theorem triple_sleep : Moves p ⟨some l, none, .sees l true, owned⟩ (sleep p l)
      ⟨some l, none, .plain, owned⟩ := by
  refine .seq triple_acquire_commit ?_
  refine .seq (triple_releaseLk (.inr ⟨rfl, rfl, rfl⟩)) ?_
  refine .seq (triple_sleepLocked triple_setSleeping_lk) ?_
  exact triple_acquireLk (.inl rfl)

theorem triple_acquiresleepRound : (discipline n Lk).Triple p ⟨some l, none, .plain, owned⟩
      (acquiresleepRound p l owned) idle := by
  refine .bind_eq triple_isLocked fun locked => ?_
  cases locked with
  | true => exact .seq triple_sleep (.ret rfl)
  | false =>
    refine .seq triple_lock ?_
    refine .seq (triple_releaseLk (.inl ⟨rfl, .inl rfl⟩)) ?_
    exact .seq (triple_acquired mem_cons_self) (.ret rfl)

/-- The scan of `wakeup` in `releasesleep`, by induction on the processes that are left. -/
theorem triple_wakeup_scan (rest : List (Fin n)) :
    Moves p ⟨some l, none, .clears l rest, owned⟩ (wakeup (.lk l) rest)
      ⟨some l, none, .clears l [], owned⟩ := by
  induction rest with
  | nil => exact .ret rfl
  | cons q rest ih =>
    refine .seq (triple_acquire nofun) ?_
    refine .seq triple_wakeup_lk ?_
    refine .seq (triple_release nofun) ?_
    exact ih

theorem triple_releasesleep (hmem : l ∈ owned) :
    Moves p ⟨none, none, .plain, owned⟩ (releasesleep l)
      ⟨none, none, .plain, owned.filter (· ≠ l)⟩ := by
  refine .seq triple_releasing ?_
  refine .seq (triple_acquireLk (.inr rfl)) ?_
  refine .seq (triple_unlock hmem) ?_
  refine .seq (triple_wakeup_scan (List.finRange n)) ?_
  refine .seq (triple_releaseLk (.inl ⟨rfl, .inr rfl⟩)) ?_
  exact triple_released

theorem triple_holdingsleep : Moves p ⟨none, none, .plain, owned⟩ (holdingsleep l)
      ⟨none, none, .plain, owned⟩ := by
  refine .seq (triple_acquireLk (.inl rfl)) ?_
  refine .bind_eq (triple_look _ (fun _ => .plain) (fun _ => rfl) rfl
    (fun _ _ => trivial) nofun) fun _ => ?_
  exact .seq (triple_releaseLk (.inl ⟨rfl, .inl rfl⟩)) (.ret rfl)

theorem triple_wakeup_plain (rest : List (Fin n)) :
    Moves p ⟨none, none, .plain, owned⟩ (wakeup (.other address) rest)
      ⟨none, none, .plain, owned⟩ := by
  induction rest with
  | nil => exact .ret rfl
  | cons q rest ih =>
    refine .seq (triple_acquire nofun) ?_
    refine .seq triple_wakeup_other ?_
    refine .seq (triple_release nofun) ?_
    exact ih

theorem triple_kill (rest : List (Fin n)) : Moves p ⟨none, none, .plain, owned⟩ (kill pid rest)
      ⟨none, none, .plain, owned⟩ := by
  induction rest with
  | nil => exact .ret rfl
  | cons q rest ih =>
    refine .seq (triple_acquire nofun) ?_
    refine .bind_eq triple_killOne fun hit => ?_
    refine .seq (triple_release nofun) ?_
    cases hit with
    | true => exact .ret rfl
    | false => exact ih

theorem codeSafe (n : Nat) (Lk : Type) [DecidableEq Lk] : (discipline n Lk).CodeSafe := by
  refine codeSafe_of_calls ?_
  intro p label own what hidle
  cases label with
  | user held =>
    obtain rfl : own = ⟨none, none, .plain, held⟩ := hidle
    cases what with
    | acquiresleep l => exact .made (.bind_eq (triple_acquireLk (.inl rfl)) fun _ => .ret rfl)
    | releasesleep l =>
      refine .guard fun hmem => .made ?_
      exact .seq (triple_releasesleep hmem) (.ret rfl)
    | holdingsleep l => exact .made (.bind_eq triple_holdingsleep fun _ => .ret rfl)
    | sleep address =>
      refine .made ?_
      refine .seq (triple_acquire nofun) ?_
      exact .seq (triple_sleepLocked triple_setSleeping_other) (.ret rfl)
    | wakeup address => exact .made (.bind_eq (triple_wakeup_plain _) fun _ => .ret rfl)
    | kill pid => exact .made (.bind_eq (triple_kill _) fun _ => .ret rfl)
    | goOn => exact .refused
  | trying l held =>
    obtain rfl : own = ⟨some l, none, .plain, held⟩ := hidle
    cases what with
    | goOn => exact .made triple_acquiresleepRound
    | _ => exact .refused

/-! ### Every reachable state -/

/-- At most one process is between the return of `acquiresleep` and its `releasesleep`, and
`lk->pid` names it; and if a process sleeps on a sleep-lock that is free, somebody is in
`releasesleep` for it. -/
theorem sleeplock_safe (pid : Fin n → BitVec 32)
    {config : Config (Fin n) (Op n Lk) Res (State n Lk) (Label Lk)}
    (h : (machine n Lk).Run (fun _ _ => True) (start pid) config) :
    (∀ p q l, l ∈ config.state.holding p → l ∈ config.state.holding q → p = q) ∧
      (∀ p l, l ∈ config.state.holding p → (config.state.sleeplock l).locked = true ∧
        (config.state.sleeplock l).pid = (config.state.proc p).pid) ∧
      ∀ p l, (config.state.sleeplock l).locked = false → (config.state.proc p).state = .SLEEPING →
        (config.state.proc p).chan = some (.lk l) → ∃ q, config.state.releasing q = some l := by
  have hstart : (discipline n Lk).Holds (start pid) := by
    refine ⟨⟨fun _ => ⟨none, none, .plain, []⟩, ⟨?_, ?_, ?_⟩, fun _ => rfl⟩, nofun⟩
    · exact fun _ => ⟨nofun, nofun, trivial, nofun, nofun⟩
    · exact nofun
    · rintro p l (⟨hstate, -⟩ | hcommits)
      · cases hstate
      · cases hcommits
  obtain ⟨g, hinv, -⟩ := (holds_of_run (codeSafe n Lk) hstart
    (h.mono fun c e _ => meets_of_guard (fun _ _ _ => trivial) c e)).state
  refine ⟨?_, ?_, ?_⟩
  · intro p q l hp hq
    exact hinv.unique p q l ((hinv.knows p).holding l hp) ((hinv.knows q).holding l hq)
  · intro p l hl
    exact (hinv.knows p).owned l ((hinv.knows p).holding l hl)
  · intro p l hfree hstate hchan
    rcases hinv.wakes p l (.inl ⟨hstate, hchan⟩) with hlocked | ⟨q, rest, hmode, -⟩
    · rw [hfree] at hlocked
      cases hlocked
    · have hclears := (hinv.knows q).mode
      rw [hmode] at hclears
      exact ⟨q, hclears.2⟩

/-- The pids of two processes. -/
def twoPids : Fin 2 → BitVec 32
  | 0 => 1
  | 1 => 2

/-- Process 0 takes a sleep-lock, process 1 goes to sleep on it, and process 0 has cleared
`lk->locked` but has not called `wakeup` yet. -/
def sleeperBeforeWakeup : List (Event (Fin 2) (Call Unit) Unit) :=
  [.call 0 (.acquiresleep ()) (), .step 0 (), .call 0 .goOn ()] ++ List.replicate 4 (.step 0 ()) ++
    [.call 1 (.acquiresleep ()) (), .step 1 (), .call 1 .goOn ()] ++
    List.replicate 5 (.step 1 ()) ++ [.call 0 (.releasesleep ()) ()] ++
    List.replicate 3 (.step 0 ())

theorem sleeplock_safe_sleeperBeforeWakeup :
    ∃ config, (machine 2 Unit).Run (fun _ _ => True) (start twoPids) config ∧
      (config.state.sleeplock ()).locked = false ∧ (config.state.proc 1).state = .SLEEPING ∧
      (config.state.proc 1).chan = some (.lk ()) ∧ ∃ q, config.state.releasing q = some () := by
  have hplay : ((machine 2 Unit).play (fun _ _ => true) sleeperBeforeWakeup (start twoPids)).map
      (fun c => ((c.state.sleeplock ()).locked, (c.state.proc 1).state, (c.state.proc 1).chan)) =
      some (false, .SLEEPING, some (.lk ())) := by
    decide +kernel
  obtain ⟨config, hany, hvalue⟩ := Machine.exists_any_run hplay
  simp only [Prod.mk.injEq] at hvalue
  exact ⟨config, hany, hvalue.1, hvalue.2.1, hvalue.2.2,
    (sleeplock_safe _ hany).2.2 1 () hvalue.1 hvalue.2.1 hvalue.2.2⟩

end Xv6.SleepLock
