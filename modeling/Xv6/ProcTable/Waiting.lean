import Xv6.ProcTable.Theorems

/-!
# No wakeup of `wait` is lost

A second invariant of the process table, on top of `Inv`: a process other than init that sleeps in
`wait` has no child that is a zombie. `wait` holds the lock of its process from the scan of the
children to the moment it sleeps, and the notes of a process say what this lock protects: which
children `wait` has looked at, and whom `exit` remembers as its parent. An operation writes to one
slot. `Harmless` says when such a write leaves the notes of the others true, and `SelfWrite` is for
the three operations in which a process changes its own state.
-/

namespace Xv6.ProcTable

open Interleave Function Option List

/-- The process sleeps in `wait`. -/
def Asleep (s : State) (p : Slot) : Prop :=
  (s.proc p).state = .SLEEPING ∧ (s.proc p).chan = some (.proc p)

/-- What a process remembers. -/
inductive Note where
  | none
  /-- It holds its own lock, and no slot in `done` holds a child that is a zombie. -/
  | scan (done : List Slot)
  /-- It is in `exit` and remembers its parent. -/
  | remembers (parent : Slot)
  /-- It has also locked the remembered parent. -/
  | locked (parent : Slot)
  /-- It has locked itself as well. -/
  | both (parent : Slot)
  /-- It has also seen to it that the remembered parent does not sleep in `wait`. -/
  | awake (parent : Slot)

/-- A process in `exit` has the parent that it remembers, or has been given to init. -/
def Remembers (s : State) (p parent : Slot) : Prop :=
  (s.proc p).state = .RUNNING ∧
    ((s.proc p).parent = some parent ∨ (s.proc p).parent = some initproc)

/-- What a process remembers is true. -/
def NoteOk (s : State) (p : Slot) : Note → Prop
  | .none => True
  | .scan done => (s.proc p).lock = some (.proc p) ∧
      (p ≠ initproc → ∀ q ∈ done, (s.proc q).parent = some p → (s.proc q).state ≠ .ZOMBIE)
  | .remembers parent => Remembers s p parent
  | .locked parent => Remembers s p parent ∧ (s.proc parent).lock = some (.proc p)
  | .both parent => Remembers s p parent ∧ (s.proc parent).lock = some (.proc p) ∧
      (s.proc p).lock = some (.proc p)
  | .awake parent => Remembers s p parent ∧ (s.proc parent).lock = some (.proc p) ∧
      (s.proc p).lock = some (.proc p) ∧ ¬Asleep s parent

/-- The invariant. -/
structure WaitInv (s : State) (g : Agent → Note) : Prop where
  notes : ∀ p, NoteOk s p (g (.proc p))
  quiet : ∀ p, p ≠ initproc → Asleep s p → ∀ q, (s.proc q).parent = some p →
    (s.proc q).state ≠ .ZOMBIE

/-- What a process remembers between two calls. -/
def waitIdle : Label → Note → Prop
  | .waiting _, note => note = .scan []
  | _, note => note = .none

/-- How the agents share the table, as far as sleeping in `wait` is concerned, over `discipline`. -/
def waitDiscipline : Discipline machine Note where
  inv := WaitInv
  needs := fun _ _ _ => True
  idle := fun _ => waitIdle
  allowed := fun _ => True
  guard := fun a o s => ∃ g, Inv False (fun _ => False) s g ∧ needs False o (g a)

/-- The triple of code after which the agent remembers `note'`. -/
abbrev Recalls {α : Type} (a : Agent) (note : Note) (prog : Code α) (note' : Note) : Prop :=
  waitDiscipline.Moves a note prog note'

variable {s s' : State} {g : Agent → Note} {a : Agent} {p q : Slot} {note : Note} {f : Proc → Proc}

/-! ### Writing to one slot -/

/-- The write of agent `a` to slot `q` keeps a process that runs running, with its parent or given
to init, and makes no zombie and no sleeper in `wait`. -/
structure Harmless (a : Agent) (q : Slot) (old new : Proc) : Prop where
  locked : ∀ p, Agent.proc p ≠ a → old.lock ≠ some (.proc p)
  running : old.state = .RUNNING →
    new.state = .RUNNING ∧ (new.parent = old.parent ∨ new.parent = some initproc)
  zombie : new.state = .ZOMBIE → ∀ r, r ≠ initproc → new.parent = some r →
    old.state = .ZOMBIE ∧ old.parent = some r
  asleep : new.state = .SLEEPING → new.chan = some (.proc q) →
    old.state = .SLEEPING ∧ old.chan = some (.proc q)

theorem Asleep.of_write (hproc : s'.proc = (s.modify q f).proc)
    (hasleep : (f (s.proc q)).state = .SLEEPING → (f (s.proc q)).chan = some (.proc q) →
      (s.proc q).state = .SLEEPING ∧ (s.proc q).chan = some (.proc q))
    (h : Asleep s' p) : Asleep s p := by
  unfold Asleep at h ⊢
  rw [hproc] at h
  by_cases hp : p = q
  · subst hp
    rw [proc_modify_self] at h
    exact hasleep h.1 h.2
  · rwa [proc_modify_of_ne hp] at h

theorem zombie_of_write (hproc : s'.proc = (s.modify q f).proc)
    (hzombie : (f (s.proc q)).state = .ZOMBIE → ∀ r, r ≠ initproc →
      (f (s.proc q)).parent = some r → (s.proc q).state = .ZOMBIE ∧ (s.proc q).parent = some r)
    {r : Slot} (hp : p ≠ initproc) (hparent : (s'.proc r).parent = some p)
    (hstate : (s'.proc r).state = .ZOMBIE) :
    (s.proc r).state = .ZOMBIE ∧ (s.proc r).parent = some p := by
  rw [hproc] at hparent hstate
  by_cases hr : r = q
  · subst hr
    rw [proc_modify_self] at hparent hstate
    exact hzombie hstate p hp hparent
  · rw [proc_modify_of_ne hr] at hparent hstate
    exact ⟨hstate, hparent⟩

variable {parent : Slot}

theorem Remembers.write (h : Remembers s p parent) (hproc : s'.proc = (s.modify q f).proc)
    (hrunning : (s.proc q).state = .RUNNING → (f (s.proc q)).state = .RUNNING ∧
      ((f (s.proc q)).parent = (s.proc q).parent ∨ (f (s.proc q)).parent = some initproc)) :
    Remembers s' p parent := by
  unfold Remembers at h ⊢
  rw [hproc]
  by_cases hp : p = q
  · subst hp
    rw [proc_modify_self]
    obtain ⟨hstate, hparent⟩ := hrunning h.1
    refine ⟨hstate, ?_⟩
    rcases hparent with hsame | hinit
    · rw [hsame]
      exact h.2
    · exact .inr hinit
  · rwa [proc_modify_of_ne hp]

/-- The slots whose locks the note of process `p` mentions. -/
def Note.locks (p : Slot) : Note → List Slot
  | .none => []
  | .scan _ => [p]
  | .remembers _ => []
  | .locked parent => [parent]
  | .both parent => [parent, p]
  | .awake parent => [parent, p]

theorem NoteOk.lock_of_mem (h : NoteOk s p note) (hq : q ∈ note.locks p) :
    (s.proc q).lock = some (.proc p) := by
  cases note with
  | none | remembers parent => simp [Note.locks] at hq
  | scan done =>
    obtain rfl : q = p := by simpa [Note.locks] using hq
    exact h.1
  | locked parent =>
    obtain rfl : q = parent := by simpa [Note.locks] using hq
    exact h.2
  | both parent =>
    rcases mem_pair.mp hq with rfl | rfl
    · exact h.2.1
    · exact h.2.2
  | awake parent =>
    rcases mem_pair.mp hq with rfl | rfl
    · exact h.2.1
    · exact h.2.2.1

/-- What a process remembers stays true after a write that leaves the locks it mentions. -/
theorem NoteOk.write (h : NoteOk s p note) (hproc : s'.proc = (s.modify q f).proc)
    (hlock : q ∈ note.locks p → (s.proc q).lock = some (.proc p) →
      (f (s.proc q)).lock = some (.proc p))
    (hharm : Harmless a q (s.proc q) (f (s.proc q))) : NoteOk s' p note := by
  have hlocks : ∀ r ∈ note.locks p, (s'.proc r).lock = some (.proc p) := by
    intro r hr
    have hold := h.lock_of_mem hr
    rw [hproc]
    by_cases hrq : r = q
    · subst hrq
      rw [proc_modify_self]
      exact hlock hr hold
    · rwa [proc_modify_of_ne hrq]
  cases note with
  | none => trivial
  | scan done =>
    refine ⟨hlocks p (by simp [Note.locks]), fun hp r hr hparent hstate => ?_⟩
    obtain ⟨hstate', hparent'⟩ := zombie_of_write hproc hharm.zombie hp hparent hstate
    exact h.2 hp r hr hparent' hstate'
  | remembers parent => exact Remembers.write h hproc hharm.running
  | locked parent => exact ⟨h.1.write hproc hharm.running, hlocks parent (by simp [Note.locks])⟩
  | both parent =>
    exact ⟨h.1.write hproc hharm.running, hlocks parent (by simp [Note.locks]),
      hlocks p (by simp [Note.locks])⟩
  | awake parent =>
    exact ⟨h.1.write hproc hharm.running, hlocks parent (by simp [Note.locks]),
      hlocks p (by simp [Note.locks]),
      fun hasleep => h.2.2.2 (hasleep.of_write hproc hharm.asleep)⟩

/-- A harmless write, with what the writer remembers afterwards. -/
theorem WaitInv.write (h : WaitInv s g) (hproc : s'.proc = (s.modify q f).proc)
    (hharm : Harmless a q (s.proc q) (f (s.proc q)))
    (hself : ∀ p, a = .proc p → NoteOk s' p note) : WaitInv s' (update g a note) where
  notes := by
    intro p
    by_cases hp : Agent.proc p = a
    · subst hp
      rw [update_self]
      exact hself p rfl
    · rw [update_of_ne hp]
      exact (h.notes p).write hproc (fun _ hl => absurd hl (hharm.locked p hp)) hharm
  quiet := by
    intro p hp hasleep r hparent hstate
    obtain ⟨hstate', hparent'⟩ := zombie_of_write hproc hharm.zombie hp hparent hstate
    exact h.quiet p hp (hasleep.of_write hproc hharm.asleep) r hparent' hstate'

theorem WaitInv.look (h : WaitInv s g) (hproc : s'.proc = s.proc)
    (hself : ∀ p, a = .proc p → NoteOk s' p note) : WaitInv s' (update g a note) := by
  have hsame : ∀ p note, NoteOk s p note → NoteOk s' p note := by
    intro p note hnote
    cases note with
    | none => trivial
    | _ => simpa only [NoteOk, Remembers, Asleep, hproc] using hnote
  refine ⟨fun p => ?_, ?_⟩
  · by_cases hp : Agent.proc p = a
    · subst hp
      rw [update_self]
      exact hself p rfl
    · rw [update_of_ne hp]
      exact hsame p _ (h.notes p)
  · simpa only [Asleep, hproc] using h.quiet

/-! ### The operations -/

/-- The operation changes at most one slot, and does no harm. -/
def Touches (a : Agent) (s s' : State) : Prop :=
  s'.proc = s.proc ∨ ∃ q f, s'.proc = (s.modify q f).proc ∧ Harmless a q (s.proc q) (f (s.proc q))

variable {o : Op}

/-- What an operation does, performed by an agent that remembers `note`. -/
abbrev Does (a : Agent) (note : Note) (o : Op) (post : State → Res o → State → Prop) : Prop :=
  ∀ s g ok, Inv False (fun _ => False) s g → needs False o (g a) →
    (∀ p, a = .proc p → NoteOk s p note) → (exec a ok o s).Ensures (fun _ => True) (post s)

theorem wait_perform {post : Res o → Note → Prop} (hstep : Does a note o fun s result s' =>
      ∃ note', Touches a s s' ∧ (∀ p, a = .proc p → NoteOk s' p note') ∧ post result note') :
    waitDiscipline.Triple a note (.perform o) post := by
  refine .perform rfl trivial ?_
  intro s g ok hinv hga ⟨g₁, hinv₁, hneeds⟩
  have hnote : ∀ p, a = .proc p → NoteOk s p note := by
    intro p hp
    rw [← hga, hp]
    exact hinv.notes p
  refine (hstep s g₁ ok hinv₁ hneeds hnote).mono ?_
  intro result s' ⟨note', htouches, hself, hpost⟩
  refine ⟨note', ?_, hpost⟩
  rcases htouches with hsame | ⟨q, f, hproc, hharm⟩
  · exact hinv.look hsame hself
  · exact hinv.write hproc hharm hself

theorem wait_forget {α : Type} {prog : Code α} {post : α → Note → Prop}
    (h : waitDiscipline.Triple a .none prog post) : waitDiscipline.Triple a note prog post := by
  intro s g hinv
  refine h s g ⟨fun p => ?_, hinv.quiet⟩
  by_cases hp : Agent.proc p = a
  · rw [hp, update_self]
    trivial
  · have hnote := hinv.notes p
    rw [update_of_ne hp] at hnote ⊢
    exact hnote

variable {old new : Proc}

/-- A write to a slot that the agent has locked, which keeps state, parent and channel. -/
theorem Harmless.of_eq (hlock : old.lock = none ∨ old.lock = some a)
    (hstate : new.state = old.state) (hparent : new.parent = old.parent)
    (hchan : new.chan = old.chan) : Harmless a q old new where
  locked := by
    intro p hp hl
    rcases hlock with h | h
    · rw [h] at hl
      cases hl
    · rw [h] at hl
      exact hp (some.inj hl).symm
  running := fun h => ⟨hstate.trans h, .inl hparent⟩
  zombie := fun h r _ hr => ⟨hstate.symm.trans h, hparent.symm.trans hr⟩
  asleep := fun h h' => ⟨hstate.symm.trans h, hchan.symm.trans h'⟩

theorem Harmless.of_wakes (hlock : old.lock = some a)
    (hstate : new.state = old.state ∨ old.state = .SLEEPING ∧ new.state = .RUNNABLE)
    (hparent : new.parent = old.parent) (hchan : new.chan = old.chan) :
    Harmless a q old new := by
  rcases hstate with hsame | ⟨hold, hnew⟩
  · exact .of_eq (.inr hlock) hsame hparent hchan
  · refine ⟨?_, ?_, ?_, ?_⟩
    · exact (Harmless.of_eq (q := q) (.inr hlock) rfl rfl rfl).locked
    · exact fun h => absurd (hold.symm.trans h) (by simp)
    · exact fun h => absurd (hnew.symm.trans h) (by simp)
    · exact fun h => absurd (hnew.symm.trans h) (by simp)

/-- A write to a slot that the agent has locked, which is not that of a process that runs, and does
not become one of a zombie or a sleeper. -/
theorem Harmless.of_states (hlock : old.lock = some a)
    (hold : old.state ≠ .RUNNING) (hzombie : new.state ≠ .ZOMBIE)
    (hsleeping : new.state ≠ .SLEEPING) : Harmless a q old new where
  locked := (Harmless.of_eq (q := q) (.inr hlock) rfl rfl rfl).locked
  running := fun h => absurd h hold
  zombie := fun h => absurd h hzombie
  asleep := fun h => absurd h hsleeping

/-- An operation after which the process remembers what it did before. -/
theorem wait_keep (hstep : Does a note o fun s _ s' => s'.proc = s.proc ∨
      ∃ q f, s'.proc = (s.modify q f).proc ∧ Harmless a q (s.proc q) (f (s.proc q)) ∧
        ∀ p, a = .proc p → q ∈ note.locks p → (s.proc q).lock = some (.proc p) →
          (f (s.proc q)).lock = some (.proc p)) :
    Recalls a note (.perform o) note := by
  refine wait_perform fun s g ok hinv hneeds hnote => ?_
  refine (hstep s g ok hinv hneeds hnote).mono ?_
  intro result s' h
  refine ⟨note, ?_, ?_, rfl⟩
  · rcases h with hsame | ⟨q, f, hproc, hharm, -⟩
    · exact .inl hsame
    · exact .inr ⟨q, f, hproc, hharm⟩
  · intro p hp
    rcases h with hsame | ⟨q, f, hproc, hharm, hlock⟩
    · have hold := hnote p hp
      cases note with
      | none => trivial
      | _ => simpa only [NoteOk, Remembers, Asleep, hsame] using hold
    · exact (hnote p hp).write hproc (hlock p hp) hharm

theorem wait_read
    (hstep : ∀ s ok, (exec a ok o s).Ensures (fun _ => True) fun _ s' => s'.proc = s.proc) :
    Recalls a note (.perform o) note :=
  wait_keep fun s _ ok _ _ _ => (hstep s ok).mono fun _ _ h => .inl h

variable {quiet : (ProcState → Bool) → Prop} {g₁ : Agent → Own}

/-- The lock of a slot that an agent has found in its list of held locks. -/
theorem Inv.lock_of_held {strict : Prop}
    (h : Inv strict quiet s g₁) (hq : q ∈ (g₁ a).held) : (s.proc q).lock = some a :=
  (h.holding a).held q hq

/-- `acquire`, after which the process may remember what the lock protects. -/
theorem wait_acquire (note' : Note)
    (hgain : ∀ s p, a = .proc p → NoteOk s p note → (s.proc q).lock = some (.proc p) →
      NoteOk s p note') :
    waitDiscipline.Triple a note (.perform (.acquire q)) fun _ own' =>
      own' = note' ∧ ∀ p, a = .proc p → q ∉ note.locks p := by
  refine wait_perform fun s g ok hinv _ hnote => ?_
  simp only [exec]
  split
  next hlock =>
    -- the lock was free, so none of the locks that the note mentions is this one
    have hfree : ∀ p, a = .proc p → q ∉ note.locks p := by
      intro p hp hq
      rw [(hnote p hp).lock_of_mem hq] at hlock
      cases hlock
    have hharm : Harmless a q (s.proc q) { s.proc q with lock := some a } :=
      .of_eq (.inl hlock) rfl rfl rfl
    refine ⟨note', .inr ⟨q, fun p => { p with lock := some a }, rfl, hharm⟩, ?_, rfl, hfree⟩
    intro p hp
    refine hgain _ p hp ((hnote p hp).write rfl (fun hq => absurd hq (hfree p hp)) hharm) ?_
    rw [proc_modify_self, hp]
  next b hlock =>
    split
    · trivial
    · trivial

theorem wait_acquire_keep : waitDiscipline.Triple a note (.perform (.acquire q)) fun _ own' =>
      own' = note ∧ ∀ p, a = .proc p → q ∉ note.locks p :=
  wait_acquire note fun _ _ _ hnote _ => hnote

theorem wait_acquire_none : Recalls a .none (.perform (.acquire q)) .none :=
  wait_acquire_keep.mono fun _ _ h => h.1

/-- `acquire` of its own lock, by a process that remembers nothing. -/
theorem wait_acquire_self : Recalls (.proc p) .none (.perform (.acquire p)) (.scan []) := by
  refine .mono (wait_acquire (.scan []) ?_) fun _ _ h => h.1
  intro s r hr _ hlock
  cases hr
  exact ⟨hlock, nofun⟩

/-- `release` of a lock that the process does not remember anything about. -/
theorem wait_release (hq : ∀ p, a = .proc p → q ∉ note.locks p) :
    Recalls a note (.perform (.release q)) note := by
  refine wait_keep fun s g ok hinv _ hnote => ?_
  simp only [exec]
  split
  next hlock =>
    refine .inr ⟨q, fun p => { p with lock := none }, rfl, .of_eq (.inr hlock) rfl rfl rfl, ?_⟩
    exact fun p hp hmem => absurd hmem (hq p hp)
  next => trivial

theorem wait_release_none : Recalls a .none (.perform (.release q)) .none :=
  wait_release fun _ _ => by simp [Note.locks]

/-! ### Operations that do no harm -/

/-- An operation that writes to a slot which the agent has locked, and leaves the lock. -/
theorem wait_write (hstep : Does a note o fun s _ s' => s'.proc = s.proc ∨
      ∃ q f, s'.proc = (s.modify q f).proc ∧ Harmless a q (s.proc q) (f (s.proc q)) ∧
        (f (s.proc q)).lock = (s.proc q).lock) :
    Recalls a note (.perform o) note := by
  refine wait_keep fun s g ok hinv hneeds hnote => ?_
  refine (hstep s g ok hinv hneeds hnote).mono ?_
  rintro result s' (hsame | ⟨q, f, hproc, hharm, hlock⟩)
  · exact .inl hsame
  · exact .inr ⟨q, f, hproc, hharm, fun _ _ _ hl => hlock.trans hl⟩

/-- What `needs` says about a slot that a process fills in `fork`. -/
theorem Inv.forking {strict : Prop} (h : Inv strict quiet s g₁)
    (hneeds : ∃ adopted, (g₁ (.proc p)).phase = .forking q adopted) :
    (s.proc q).lock = some (.proc p) ∧ (s.proc q).state = .UNUSED := by
  obtain ⟨adopted, hphase⟩ := hneeds
  exact ⟨h.lock_of_held ((h.holding (.proc p)).wf.forking q adopted hphase),
    ((h.knows p).forking q adopted hphase).1⟩

theorem wait_allocpid : Recalls (.proc p) note (.perform (.allocpid q)) note :=
  wait_write fun s _ _ hinv hneeds _ =>
    .inr ⟨q, fun proc => { proc with pid := s.nextpid }, rfl,
      .of_eq (.inr (hinv.forking hneeds).1) rfl rfl rfl, rfl⟩

theorem wait_freeproc : Recalls (.proc p) note (.perform (.freeproc q)) note := by
  refine wait_write fun s _ _ hinv hneeds _ => .inr ⟨q, freeproc, rfl, ?_, rfl⟩
  obtain ⟨hlock, hunused⟩ := hinv.forking hneeds
  exact .of_states hlock (by simp [hunused]) (by simp [freeproc]) (by simp [freeproc])

theorem wait_setParent : Recalls (.proc p) note (.perform (.setParent q)) note := by
  refine wait_write fun s _ _ hinv hneeds _ =>
    .inr ⟨q, fun np => { np with parent := some p }, rfl, ?_, rfl⟩
  obtain ⟨hlock, hunused⟩ := hinv.forking hneeds
  exact .of_states hlock (by simp [hunused]) (by simp [hunused]) (by simp [hunused])

theorem wait_setRunnable : Recalls (.proc p) note (.perform (.setRunnable q))
    note := by
  refine wait_write fun s _ _ hinv hneeds _ =>
    .inr ⟨q, fun np => { np with state := .RUNNABLE }, rfl, ?_, rfl⟩
  obtain ⟨hlock, hunused⟩ := hinv.forking hneeds
  exact .of_states hlock (by simp [hunused]) (by simp) (by simp)

theorem wait_giveToInit : Recalls (.proc p) note (.perform (.giveToInit q)) note := by
  refine wait_write fun _ _ _ hinv hneeds _ =>
    .inr ⟨q, fun proc => { proc with parent := some initproc }, rfl, ?_, rfl⟩
  refine ⟨?_, fun h => ⟨h, .inr rfl⟩, ?_, fun h h' => ⟨h, h'⟩⟩
  · exact (Harmless.of_eq (q := q) (.inr (hinv.lock_of_held hneeds)) rfl rfl rfl).locked
  · exact fun _ r hr hparent => absurd (some.inj hparent).symm hr

theorem wakes_cases (new : Proc → Proc) (hnew : ∀ proc, new proc = proc ∨
      proc.state = .SLEEPING ∧ new proc = { proc with state := .RUNNABLE }) (proc : Proc)
    (hlock : proc.lock = some a) :
    Harmless a q proc (new proc) ∧ (new proc).lock = proc.lock := by
  rcases hnew proc with h | ⟨hstate, h⟩
  · rw [h]
    exact ⟨.of_eq (.inr hlock) rfl rfl rfl, rfl⟩
  · rw [h]
    exact ⟨.of_wakes hlock (.inr ⟨hstate, rfl⟩) rfl rfl, rfl⟩

theorem wakeup1_cases (proc : Proc) : wakeup1 q proc = proc ∨
    proc.state = .SLEEPING ∧ wakeup1 q proc = { proc with state := .RUNNABLE } := by
  unfold wakeup1
  split
  next h => exact .inr ⟨h.2, rfl⟩
  next => exact .inl rfl

theorem wakeupOn_cases (chan : Chan) (proc : Proc) : wakeupOn chan proc = proc ∨
    proc.state = .SLEEPING ∧ wakeupOn chan proc = { proc with state := .RUNNABLE } := by
  unfold wakeupOn
  split
  next h => exact .inr ⟨h.1, rfl⟩
  next => exact .inl rfl

theorem wait_wakeup1 : Recalls (.proc p) note (.perform (.wakeup1 q)) note := by
  refine wait_write fun s _ _ _ _ _ => ?_
  simp only [exec]
  split
  next hlock => exact .inr ⟨q, wakeup1 q, rfl, wakes_cases _ wakeup1_cases _ hlock⟩
  next => trivial

theorem wait_wakeup {chan : Chan} : Recalls (.proc p) note (.perform (.wakeup q chan))
      note :=
  wait_write fun _ _ _ hinv hneeds _ =>
    .inr ⟨q, wakeupOn chan, rfl, wakes_cases _ (wakeupOn_cases chan) _ (hinv.lock_of_held hneeds)⟩

theorem wait_kill {pid : BitVec 32} : Recalls (.proc p) note (.perform (.kill q pid)) note := by
  refine wait_write fun s _ _ hinv hneeds _ => ?_
  simp only [exec]
  split
  next =>
    refine .inr ⟨q, killProc, rfl, .of_wakes (hinv.lock_of_held hneeds) ?_ rfl rfl, rfl⟩
    by_cases hsleeping : (s.proc q).state = .SLEEPING
    · exact .inr ⟨hsleeping, by simp [killProc, hsleeping]⟩
    · exact .inl (by simp [killProc, hsleeping])
  next => exact .inl rfl

theorem wait_swtch {c : Cpu} : Recalls (.cpu c) note (.perform (.swtch q)) note := by
  refine wait_keep fun s _ _ hinv hneeds _ => ?_
  simp only [exec, execCpu]
  split
  next hrunnable =>
    refine .inr ⟨q, fun proc => { proc with state := .RUNNING, lock := some (.proc q) }, rfl, ?_,
      by simp⟩
    exact .of_states (hinv.lock_of_held hneeds) (by simp [hrunnable]) (by simp) (by simp)
  next => exact .inl rfl

theorem wait_regain {c : Cpu} : Recalls (.cpu c) note (.perform (.regain q)) note := by
  refine wait_read fun s _ => ?_
  simp only [exec, execCpu]
  split
  · rfl
  · trivial

theorem wait_sched : Recalls (.proc p) note (.perform .sched) .none := by
  refine wait_forget (wait_keep fun s _ _ _ _ _ => ?_)
  simp only [exec, execProc]
  split
  · trivial
  next hlock =>
    have hlock' : (s.proc p).lock = some (.proc p) := by simpa using hlock
    split
    · trivial
    · split
      · trivial
      · split
        next c _ =>
          refine .inr ⟨p, fun proc => { proc with lock := some (.cpu c) }, rfl,
            .of_eq (.inr hlock') rfl rfl rfl, ?_⟩
          simp [Note.locks]
        · trivial

/-- A process that a scheduler has switched to has its own lock. -/
theorem wait_resume : Recalls (.proc p) .none (.perform .resume) (.scan []) := by
  refine wait_perform fun s _ _ _ _ _ => ?_
  simp only [exec, execProc]
  split
  next hlock =>
    refine ⟨.scan [], .inl rfl, ?_, rfl⟩
    rintro r ⟨⟩
    exact ⟨hlock, by simp⟩
  next => trivial

variable {done : List Slot}

theorem wait_clearChan : Recalls (.proc p) (.scan done) (.perform .clearChan) (.scan done) := by
  refine wait_write fun s _ _ _ _ hnote => .inr ⟨p, fun proc => { proc with chan := none }, rfl, ?_,
    rfl⟩
  have hlock := (hnote p rfl).1
  exact ⟨(Harmless.of_eq (q := p) (.inr hlock) rfl rfl rfl).locked, fun h => ⟨h, .inl rfl⟩,
    fun h _ _ hr => ⟨h, hr⟩, nofun⟩

/-! ### A process changes its own state -/

/-- A process that has locked itself writes to its own slot. If it becomes a zombie, it has locked
its parent, which does not sleep in `wait`; if it goes to sleep in `wait`, it has no zombie
child. -/
structure SelfWrite (p : Slot) (s s' : State) : Prop where
  others : ∀ q, q ≠ p → s'.proc q = s.proc q
  locked : (s.proc p).lock = some (.proc p)
  zombie : (s'.proc p).state = .ZOMBIE → ∀ r, r ≠ initproc → (s'.proc p).parent = some r →
    (s.proc r).lock = some (.proc p) ∧ ¬Asleep s r
  asleep : p ≠ initproc → Asleep s' p → ∀ q, (s'.proc q).parent = some p →
    (s'.proc q).state ≠ .ZOMBIE

theorem SelfWrite.keeps (h : SelfWrite p s s') {r : Slot} (hr : r ≠ p) (hnote : NoteOk s r note) :
    NoteOk s' r note := by
  have hsame := h.others r hr
  -- a lock that `r` holds is not that of `p`, so its slot has not changed
  have hheld : ∀ q, (s.proc q).lock = some (.proc r) → s'.proc q = s.proc q := by
    intro q hq
    refine h.others q fun hqp => hr ?_
    rw [hqp, h.locked] at hq
    exact (Agent.proc.inj (some.inj hq)).symm
  cases note with
  | none => trivial
  | scan done =>
    refine ⟨by rw [hsame]; exact hnote.1, fun hinit q hq hparent hstate => ?_⟩
    by_cases hqp : q = p
    · subst hqp
      have hlock := (h.zombie hstate r hinit hparent).1
      rw [hnote.1] at hlock
      exact hr (Agent.proc.inj (some.inj hlock))
    · rw [h.others q hqp] at hparent hstate
      exact hnote.2 hinit q hq hparent hstate
  | remembers parent => simpa only [NoteOk, Remembers, hsame] using hnote
  | locked parent => simpa only [NoteOk, Remembers, hsame, hheld parent hnote.2] using hnote
  | both parent => simpa only [NoteOk, Remembers, hsame, hheld parent hnote.2.1] using hnote
  | awake parent =>
    simpa only [NoteOk, Remembers, Asleep, hsame, hheld parent hnote.2.1] using hnote

theorem WaitInv.selfWrite (h : WaitInv s g) (hwrite : SelfWrite p s s')
    (hself : NoteOk s' p note) : WaitInv s' (update g (.proc p) note) where
  notes := by
    intro r
    by_cases hr : r = p
    · subst hr
      rwa [update_self]
    · rw [update_of_ne (fun hrp => hr (Agent.proc.inj hrp))]
      exact hwrite.keeps hr (h.notes r)
  quiet := by
    intro r hinit hasleep q hparent hstate
    by_cases hr : r = p
    · subst hr
      exact hwrite.asleep hinit hasleep q hparent hstate
    · unfold Asleep at hasleep
      rw [hwrite.others r hr] at hasleep
      by_cases hq : q = p
      · subst hq
        exact (hwrite.zombie hstate r hinit hparent).2 hasleep
      · rw [hwrite.others q hq] at hparent hstate
        exact h.quiet r hinit hasleep q hparent hstate

theorem wait_self {note' : Note} (hstep : ∀ s ok, NoteOk s p note →
      (exec (.proc p) ok o s).Ensures (fun _ => True) fun _ s' =>
        SelfWrite p s s' ∧ NoteOk s' p note') :
    Recalls (.proc p) note (.perform o) note' := by
  refine .perform rfl trivial ?_
  intro s g ok hinv hga _
  have hnote : NoteOk s p note := hga ▸ hinv.notes p
  refine (hstep s ok hnote).mono ?_
  intro result s' ⟨hwrite, hself⟩
  exact hinv.selfWrite hwrite hself

theorem wait_giveUp : Recalls (.proc p) (.scan []) (.perform .giveUp) (.scan []) := by
  refine wait_self fun s _ hnote => ⟨⟨fun q hq => proc_modify_of_ne hq, hnote.1, ?_, ?_⟩, ?_⟩
  · rw [proc_modify_self]
    exact nofun
  · unfold Asleep
    rw [proc_modify_self]
    exact fun _ h => nomatch h.1
  · unfold NoteOk
    rw [proc_modify_self]
    exact ⟨hnote.1, nofun⟩

/-- A process that has locked itself goes to sleep; in `wait`, it has looked at every slot. -/
theorem wait_setSleeping {chan : Chan} (hdone : chan = .proc p → ∀ q, q ∈ done) :
    Recalls (.proc p) (.scan done) (.perform (.setSleeping chan)) (.scan []) := by
  refine wait_self fun s _ hnote => ⟨⟨fun q hq => proc_modify_of_ne hq, hnote.1, ?_, ?_⟩, ?_⟩
  · rw [proc_modify_self]
    exact nofun
  · unfold Asleep
    rw [proc_modify_self]
    intro hinit hasleep q hparent
    have hq := hdone (some.inj hasleep.2) q
    by_cases hqp : q = p
    · subst hqp
      rw [proc_modify_self]
      exact nofun
    · rw [proc_modify_of_ne hqp] at hparent ⊢
      exact hnote.2 hinit q hq hparent
  · unfold NoteOk
    rw [proc_modify_self]
    exact ⟨hnote.1, nofun⟩

/-- A process in `exit` becomes a zombie. Its parent is the one that it has woken up, or init. -/
theorem wait_setZombie {status : BitVec 32} :
    Recalls (.proc p) (.awake parent) (.perform (.setZombie status)) .none := by
  refine wait_self fun s _ hnote => ⟨⟨?_, hnote.2.2.1, ?_, ?_⟩, trivial⟩
  · exact fun q hq => proc_modify_of_ne hq
  · intro _ r hinit hparent
    have hr : (s.proc p).parent = some r := by
      simpa [State.setZombie] using hparent
    rcases hnote.1.2 with h | h
    · obtain rfl : parent = r := some.inj (h.symm.trans hr)
      exact ⟨hnote.2.1, hnote.2.2.2⟩
    · exact absurd (some.inj (h.symm.trans hr)).symm hinit
  · intro _ hasleep
    unfold Asleep State.setZombie at hasleep
    rw [proc_modify_self] at hasleep
    exact nomatch hasleep.1

/-! ### What `exit` and `wait` learn -/

/-- What `exit` remembers when it has read its parent. -/
def Note.ofParent (parent : Option Slot) : Note := parent.elim .none .remembers

theorem wait_originalParent : waitDiscipline.Triple (.proc p) .none (.perform .originalParent)
    fun parent note' => note' = .ofParent parent := by
  refine wait_perform fun s g ok hinv hneeds _ => ?_
  refine ⟨.ofParent (s.proc p).parent, .inl rfl, ?_, rfl⟩
  rintro r ⟨⟩
  have hphase : (g (.proc p)).phase = .running := hneeds
  have hrunning := (hinv.knows p).running (by rw [hphase]; rfl)
  cases hparent : (s.proc p).parent with
  | none => trivial
  | some parent => exact ⟨hrunning, .inl hparent⟩

theorem wait_acquire_parent : Recalls (.proc p) (.remembers parent) (.perform (.acquire parent))
      (.locked parent) := by
  refine .mono (wait_acquire (.locked parent) ?_) fun _ _ h => h.1
  intro s r hr hnote hlock
  exact ⟨hnote, hlock⟩

theorem wait_acquire_both : Recalls (.proc p) (.locked parent) (.perform (.acquire p))
      (.both parent) := by
  refine .mono (wait_acquire (.both parent) ?_) fun _ _ h => h.1
  intro s r hr hnote hlock
  cases hr
  exact ⟨hnote.1, hnote.2, hlock⟩

/-- `wakeup1` of the parent, which then does not sleep in `wait`. -/
theorem wait_wakeup1_parent :
    Recalls (.proc p) (.both parent) (.perform (.wakeup1 parent)) (.awake parent) := by
  refine wait_perform fun s g ok hinv _ hnote => ?_
  simp only [exec]
  split
  next hlock =>
    obtain ⟨hharm, hkeep⟩ := wakes_cases _ wakeup1_cases _ hlock
    refine ⟨.awake parent, .inr ⟨parent, wakeup1 parent, rfl, hharm⟩, ?_, rfl⟩
    intro r hr
    have hboth : NoteOk (s.modify parent (wakeup1 parent)) r (.both parent) :=
      (hnote r hr).write rfl (fun _ hl => hkeep.trans hl) hharm
    refine ⟨hboth.1, hboth.2.1, hboth.2.2, ?_⟩
    unfold Asleep
    rw [proc_modify_self]
    rintro ⟨hstate, hchan⟩
    unfold wakeup1 at hstate hchan
    split at hstate
    · cases hstate
    next hnot =>
      rw [if_neg hnot] at hchan
      exact hnot ⟨hchan, hstate⟩
  next => trivial

theorem wait_parentIsMe_scan {np : Slot} :
    waitDiscipline.Triple (.proc p) (.scan done) (.perform (.parentIsMe np))
      fun mine note' => note' = .scan (if mine then done else np :: done) := by
  refine wait_perform fun s _ _ _ _ hnote => ?_
  refine ⟨_, .inl rfl, ?_, rfl⟩
  rintro r ⟨⟩
  by_cases hmine : (s.proc np).parent = some p
  · simpa [hmine] using hnote p rfl
  · simp only [hmine, decide_false, Bool.false_eq_true, if_false]
    refine ⟨(hnote p rfl).1, fun hinit q hq hparent => ?_⟩
    rcases mem_cons.mp hq with rfl | hq
    · exact absurd hparent hmine
    · exact (hnote p rfl).2 hinit q hq hparent

/-- What `wait` remembers when it has looked at the child in slot `np`. -/
def Note.ofChild (np : Slot) (done : List Slot) : Child → Note
  | .running => .scan (np :: done)
  | _ => .none

/-- `wait` looks at a child: a zombie is freed, or cannot be collected because `copyout` fails. -/
theorem wait_collect {np : Slot} {addr : Nat} :
    waitDiscipline.Triple (.proc p) (.scan done) (.perform (.collect np addr))
      fun child note' => note' = .ofChild np done child := by
  refine wait_perform fun s g ok hinv hneeds hnote => ?_
  have hlock := hinv.lock_of_held hneeds
  simp only [exec, execProc]
  split
  next hzombie =>
    split
    · exact ⟨.none, .inl rfl, fun _ _ => trivial, rfl⟩
    · refine ⟨.none, .inr ⟨np, freeproc, rfl, ?_⟩, fun _ _ => trivial, rfl⟩
      exact .of_states hlock (by simp [hzombie]) (by simp [freeproc]) (by simp [freeproc])
  next hstate =>
    refine ⟨.scan (np :: done), .inl rfl, ?_, rfl⟩
    rintro r ⟨⟩
    refine ⟨(hnote p rfl).1, fun hinit q hq hparent => ?_⟩
    rcases mem_cons.mp hq with rfl | hq
    · exact hstate
    · exact (hnote p rfl).2 hinit q hq hparent

end Xv6.ProcTable
