import Xv6.SleepLock.System

/-!
# The invariant of the sleep-locks

`Inv.unique` is mutual exclusion. `Inv.wakes` is about lost wakeups: for a process that sleeps on a
sleep-lock, or has decided to, the sleep-lock is taken, or somebody in `releasesleep` has not come
to it yet in the scan of `wakeup`. A process writes only to processes and sleep-locks whose
spinlocks it holds; `Knows.other` says that this is enough to keep what the others know.
-/

namespace Xv6.SleepLock

open Interleave Function

variable {n : Nat} {Lk : Type}

/-- What a process has learnt or is about to do. -/
inductive Mode (n : Nat) (Lk : Type) where
  | plain
  /-- It has read `lk->locked` and still holds `lk->lk`. -/
  | sees (l : Lk) (locked : Bool)
  /-- It holds `p->lock` and is about to sleep on `l`. -/
  | commits (l : Lk)
  /-- It is in `releasesleep`, before it clears `lk->locked`. -/
  | releases (l : Lk)
  /-- It has cleared `lk->locked`, and `rest` is left of the scan of `wakeup`. -/
  | clears (l : Lk) (rest : List (Fin n))

/-- What a process knows: the spinlock of a sleep-lock and the process lock that it holds, its mode,
and the sleep-locks that it has taken. -/
structure Own (n : Nat) (Lk : Type) where
  lk : Option Lk
  plock : Option (Fin n)
  mode : Mode n Lk
  owned : List Lk

/-- What the mode of a process says about the state. -/
def ModeOk (s : State n Lk) (p : Fin n) (own : Own n Lk) : Mode n Lk → Prop
  | .plain => True
  | .sees l locked => own.lk = some l ∧ (s.sleeplock l).locked = locked
  | .commits _ => own.plock = some p
  | .releases l => s.releasing p = some l ∧ l ∉ s.holding p
  | .clears l _ => own.lk = some l ∧ s.releasing p = some l

/-- What a process knows is true. -/
structure Knows (s : State n Lk) (p : Fin n) (own : Own n Lk) : Prop where
  lk : ∀ l, own.lk = some l → (s.sleeplock l).lk = some p
  plock : ∀ q, own.plock = some q → (s.proc q).lock = some p
  mode : ModeOk s p own own.mode
  owned : ∀ l ∈ own.owned, (s.sleeplock l).locked = true ∧ (s.sleeplock l).pid = (s.proc p).pid
  holding : ∀ l ∈ s.holding p, l ∈ own.owned

/-- The process sleeps on `l`, or is about to. -/
def Waiting (s : State n Lk) (g : Fin n → Own n Lk) (p : Fin n) (l : Lk) : Prop :=
  ((s.proc p).state = .SLEEPING ∧ (s.proc p).chan = some (.lk l)) ∨ (g p).mode = .commits l

/-- Somebody will wake the process if it sleeps on `l`. -/
def Answered (s : State n Lk) (g : Fin n → Own n Lk) (p : Fin n) (l : Lk) : Prop :=
  (s.sleeplock l).locked = true ∨ ∃ q rest, (g q).mode = .clears l rest ∧ p ∈ rest

/-- The invariant. -/
structure Inv (s : State n Lk) (g : Fin n → Own n Lk) : Prop where
  knows : ∀ p, Knows s p (g p)
  unique : ∀ p q l, l ∈ (g p).owned → l ∈ (g q).owned → p = q
  wakes : ∀ p l, Waiting s g p l → Answered s g p l

variable {s s' : State n Lk} {g : Fin n → Own n Lk} {p q : Fin n} {own : Own n Lk} {l : Lk}

/-! ### Changing one process or one sleep-lock -/

variable {f : Proc n Lk → Proc n Lk}

@[simp] theorem proc_modify_self : (s.modify q f).proc q = f (s.proc q) := by
  simp [State.modify]

@[simp] theorem proc_modify_of_ne {r : Fin n} (h : r ≠ q) : (s.modify q f).proc r = s.proc r := by
  simp [State.modify, h]

/-- What a process knows survives a step of `p`, which changes what it has locked only. -/
theorem Knows.other (h : Knows s q own) (hlk : ∀ l, (s.sleeplock l).lk = some q →
      (s'.sleeplock l).lk = some q ∧ (s'.sleeplock l).locked = (s.sleeplock l).locked)
    (hplock : ∀ r, (s.proc r).lock = some q → (s'.proc r).lock = some q)
    (howned : ∀ l ∈ own.owned, (s'.sleeplock l).locked = (s.sleeplock l).locked ∧
      (s'.sleeplock l).pid = (s.sleeplock l).pid)
    (hpid : (s'.proc q).pid = (s.proc q).pid) (hholding : s'.holding q = s.holding q)
    (hreleasing : s'.releasing q = s.releasing q) : Knows s' q own where
  lk := fun l hl => (hlk l (h.lk l hl)).1
  plock := fun r hr => hplock r (h.plock r hr)
  mode := by
    have hmode := h.mode
    cases hm : own.mode with
    | plain => trivial
    | sees l locked =>
      rw [hm] at hmode
      exact ⟨hmode.1, (hlk l (h.lk l hmode.1)).2.trans hmode.2⟩
    | commits l =>
      rwa [hm] at hmode
    | releases l =>
      rw [hm] at hmode
      exact ⟨hreleasing.trans hmode.1, by rw [hholding]; exact hmode.2⟩
    | clears l rest =>
      rw [hm] at hmode
      exact ⟨hmode.1, hreleasing.trans hmode.2⟩
  owned := by
    intro l hl
    rw [(howned l hl).1, (howned l hl).2, hpid]
    exact h.owned l hl
  holding := by
    rw [hholding]
    exact h.holding

theorem Inv.step (h : Inv s g) (hself : Knows s' p own) (hothers : ∀ q, q ≠ p → Knows s' q (g q))
    (hunique : ∀ q, q ≠ p → ∀ l ∈ own.owned, l ∉ (g q).owned)
    (hwakes : ∀ q l, Waiting s' (update g p own) q l →
      Answered s' (update g p own) q l) : Inv s' (update g p own) where
  knows := by
    intro q
    by_cases hq : q = p
    · subst hq
      simpa using hself
    · simpa [hq] using hothers q hq
  unique := by
    refine unique_step (r := p) h.unique (fun q hq l hl => ?_) fun q hq l hl hmine => ?_
    · rwa [update_of_ne hq] at hl
    · rw [update_self] at hmine
      exact hunique q hq l hmine hl
  wakes := hwakes

/-- Sleep-locks that a process has taken already are taken by no other one. -/
theorem Inv.not_owned (h : Inv s g) {l : Lk} (hl : l ∈ (g p).owned) (hq : q ≠ p) :
    l ∉ (g q).owned := fun hmem => hq (h.unique q p l hmem hl)

theorem Inv.not_owned_of_unlocked (h : Inv s g) (hl : (s.sleeplock l).locked = false) (q : Fin n) :
    l ∉ (g q).owned := by
  intro hmem
  have hlocked := ((h.knows q).owned l hmem).1
  rw [hl] at hlocked
  cases hlocked

/-- The scan of the process that is in mode `mode` covers `q`. -/
def Mode.covers (mode : Mode n Lk) (l : Lk) (q : Fin n) : Prop :=
  ∃ rest, mode = .clears l rest ∧ q ∈ rest

/-- A process stays answered if its sleep-lock stays taken and the scans still cover it. -/
theorem Answered.step (h : Answered s g q l)
    (hlocked : (s.sleeplock l).locked = true → (s'.sleeplock l).locked = true)
    (hscan : (g p).mode.covers l q → own.mode.covers l q) :
    Answered s' (update g p own) q l := by
  rcases h with hl | ⟨r, rest, hmode, hmem⟩
  · exact .inl (hlocked hl)
  · by_cases hr : r = p
    · subst hr
      obtain ⟨rest', hmode', hmem'⟩ := hscan ⟨rest, hmode, hmem⟩
      exact .inr ⟨r, rest', by rw [update_self]; exact hmode', hmem'⟩
    · exact .inr ⟨r, rest, by rw [update_of_ne hr]; exact hmode, hmem⟩

/-- Wakeups are not lost in a step after which nobody new waits. -/
theorem Inv.wakes_step (h : Inv s g)
    (hwaiting : ∀ q l, Waiting s' (update g p own) q l → Waiting s g q l)
    (hlocked : ∀ l, (s.sleeplock l).locked = true → (s'.sleeplock l).locked = true)
    (hscan : ∀ q l, Waiting s' (update g p own) q l → (g p).mode.covers l q →
      own.mode.covers l q) (q : Fin n) (l : Lk)
    (hw : Waiting s' (update g p own) q l) :
    Answered s' (update g p own) q l :=
  (h.wakes q l (hwaiting q l hw)).step (hlocked l) (hscan q l hw)

theorem commits_of_update (hmode : own.mode = .commits l → (g p).mode = .commits l)
    (h : (update g p own q).mode = .commits l) : (g q).mode = .commits l := by
  by_cases hq : q = p
  · subst hq
    rw [update_self] at h
    exact hmode h
  · rwa [update_of_ne hq] at h

theorem waiting_modify {r : Fin n}
    (hf : (f (s.proc q)).state = .SLEEPING → (f (s.proc q)).chan = some (.lk l) →
      (s.proc q).state = .SLEEPING ∧ (s.proc q).chan = some (.lk l))
    (hmode : own.mode = .commits l → (g p).mode = .commits l)
    (h : Waiting (s.modify q f) (update g p own) r l) : Waiting s g r l := by
  rcases h with ⟨hstate, hchan⟩ | hcommits
  · left
    by_cases hr : r = q
    · subst hr
      rw [proc_modify_self] at hstate hchan
      exact hf hstate hchan
    · rw [proc_modify_of_ne hr] at hstate hchan
      exact ⟨hstate, hchan⟩
  · exact .inr (commits_of_update hmode hcommits)

theorem waiting_same (hproc : s'.proc = s.proc)
    (hmode : own.mode = .commits l → (g p).mode = .commits l)
    (h : Waiting s' (update g p own) q l) : Waiting s g q l := by
  rcases h with ⟨hstate, hchan⟩ | hcommits
  · rw [hproc] at hstate hchan
    exact .inl ⟨hstate, hchan⟩
  · exact .inr (commits_of_update hmode hcommits)

/-- A step that changes a process whose lock is free or held by `p`. -/
theorem Inv.step_modify (h : Inv s g) (hlock : (s.proc q).lock = none ∨ (s.proc q).lock = some p)
    (hpid : (f (s.proc q)).pid = (s.proc q).pid)
    (hlk : own.lk = (g p).lk) (howned : own.owned = (g p).owned)
    (hplock : ∀ r, own.plock = some r → ((s.modify q f).proc r).lock = some p)
    (hmode : ModeOk (s.modify q f) p own own.mode)
    (hwakes : ∀ r l, Waiting (s.modify q f) (update g p own) r l →
      Answered (s.modify q f) (update g p own) r l) :
    Inv (s.modify q f) (update g p own) := by
  have hpids : ∀ r, ((s.modify q f).proc r).pid = (s.proc r).pid := by
    intro r
    by_cases hr : r = q
    · subst hr
      simpa using hpid
    · simp [hr]
  have hknows := h.knows p
  refine h.step ?_ ?_ ?_ hwakes
  · refine ⟨?_, hplock, hmode, ?_, ?_⟩
    · rw [hlk]
      exact hknows.lk
    · rw [howned, hpids p]
      exact hknows.owned
    · rw [howned]
      exact hknows.holding
  · intro r hr
    refine (h.knows r).other (fun _ hl => ⟨hl, rfl⟩) ?_ (fun _ _ => ⟨rfl, rfl⟩) (hpids r) rfl rfl
    intro r' hr'
    by_cases hrq : r' = q
    · subst hrq
      rcases hlock with hnone | hsome
      · rw [hnone] at hr'
        cases hr'
      · rw [hsome] at hr'
        exact absurd (Option.some.inj hr').symm hr
    · simpa [hrq] using hr'
  · intro r hr l hl
    rw [howned] at hl
    exact h.not_owned hl hr

section Locks

variable [DecidableEq Lk]

variable {f : Sleeplock n → Sleeplock n}

@[simp] theorem sleeplock_modifyLk_self : (s.modifyLk l f).sleeplock l = f (s.sleeplock l) := by
  simp [State.modifyLk]

@[simp] theorem sleeplock_modifyLk_of_ne {l' : Lk} (h : l' ≠ l) :
    (s.modifyLk l f).sleeplock l' = s.sleeplock l' := by
  simp [State.modifyLk, h]

/-- A step that changes a sleep-lock whose spinlock is free or held by `p`, and which no other
process has taken, unless it stays as it is. -/
theorem Inv.step_modifyLk (h : Inv s g)
    (hlk : (s.sleeplock l).lk = none ∨ (s.sleeplock l).lk = some p)
    (hothers : ∀ q, q ≠ p → l ∈ (g q).owned → (f (s.sleeplock l)).locked = (s.sleeplock l).locked ∧
        (f (s.sleeplock l)).pid = (s.sleeplock l).pid)
    (hself : Knows (s.modifyLk l f) p own)
    (hunique : ∀ q, q ≠ p → ∀ l ∈ own.owned, l ∉ (g q).owned)
    (hwakes : ∀ q l', Waiting (s.modifyLk l f) (update g p own) q l' →
      Answered (s.modifyLk l f) (update g p own) q l') :
    Inv (s.modifyLk l f) (update g p own) := by
  refine h.step hself ?_ hunique hwakes
  intro q hq
  refine (h.knows q).other ?_ (fun _ hr => hr) ?_ rfl rfl rfl
  · intro l' hl'
    by_cases heq : l' = l
    · subst heq
      rcases hlk with hnone | hsome
      · rw [hnone] at hl'
        cases hl'
      · rw [hsome] at hl'
        exact absurd (Option.some.inj hl').symm hq
    · simpa [heq] using hl'
  · intro l' hl'
    by_cases heq : l' = l
    · subst heq
      simpa using hothers q hq hl'
    · simp [heq]

end Locks

end Xv6.SleepLock
