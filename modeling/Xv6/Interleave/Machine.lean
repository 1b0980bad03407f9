import Xv6.Interleave.Prog
import Mathlib.Algebra.Ring.Nat

/-!
# Interleaving machines and their invariant rule

A `Machine` runs one program per process over a shared state. A step performs one operation
of one process, together with the silent operations that follow it, so that processes
interleave exactly at the operations that are not silent. `Machine.Run` collects the
configurations reached by any schedule whose steps all meet a given condition.

The invariant rule is `Discipline.holds_of_run`. A `Discipline` fixes a shared invariant
that may mention a private ghost value of each process. A process verifies its code with
the weakest precondition `Discipline.wp`: before each operation it gives the invariant
back with a ghost value of its choice, and after the operation it may use the invariant
again, knowing only that its own ghost value has not changed in between. No process is
checked against the code of another one.
-/

namespace Interleave

open Function Option

-- For the numerals of `Fin 2` in runs of two processes.
instance neZeroTwo : NeZero 2 := ⟨by decide⟩

/-- A concurrent machine. `exec` performs an operation of a process; `choice` resolves whatever
the environment decides. `code` gives the program a process at rest runs next, for each call
that its label allows. Silent operations do not let another process in. -/
structure Machine (Pid Op : Type) (Res : Op → Type) (State Label Call Choice : Type) where
  silent : Op → Bool
  exec : Pid → Choice → (o : Op) → State → Outcome State (Res o)
  code : Pid → Label → Call → Option (Prog Op Res Label)

/-- A configuration: the shared state, the rest of each process's program, and the message of
the panic that stopped the machine, if one did. -/
structure Config (Pid Op : Type) (Res : Op → Type) (State Label : Type) where
  state : State
  prog : Pid → Prog Op Res Label
  panicked : Option String

/-- What happens next: a process at rest starts a call, or a process in a program goes on. -/
inductive Event (Pid Call Choice : Type) where
  | call (pid : Pid) (what : Call) (choice : Choice)
  | step (pid : Pid) (choice : Choice)

namespace Machine

variable {Pid Op : Type} {Res : Op → Type} {State Label Call Choice : Type}

/-- Perform the silent operations at the front of a program. -/
def settle (M : Machine Pid Op Res State Label Call Choice) (pid : Pid) (choice : Choice) :
    Prog Op Res Label → State → Outcome State (Prog Op Res Label)
  | .ret label, state => .done (.ret label) state
  | .op operation next, state =>
    if M.silent operation then
      match M.exec pid choice operation state with
      | .blocked => .blocked
      | .panic message => .panic message
      | .done result state' => settle M pid choice (next result) state'
    else .done (.op operation next) state

variable [DecidableEq Pid]

/-- Install what a process's step produced. -/
def install (config : Config Pid Op Res State Label) (pid : Pid) :
    Outcome State (Prog Op Res Label) → Option (Config Pid Op Res State Label)
  | .blocked => none
  | .panic message => some { config with panicked := some message }
  | .done prog state => some ⟨state, update config.prog pid prog, none⟩

/-- One event. A panicked machine does nothing more. -/
def next (M : Machine Pid Op Res State Label Call Choice) (config : Config Pid Op Res State Label) :
    Event Pid Call Choice → Option (Config Pid Op Res State Label)
  | .call pid what choice =>
    match config.panicked, config.prog pid with
    | none, .ret label =>
      match M.code pid label what with
      | some prog => install config pid (M.settle pid choice prog config.state)
      | none => none
    | _, _ => none
  | .step pid choice =>
    match config.panicked, config.prog pid with
    | none, .op operation rest =>
      install config pid ((M.exec pid choice operation config.state).andThen
        fun result state => M.settle pid choice (rest result) state)
    | _, _ => none

/-- `M.Run Meets start config` says that some schedule leads from `start` to `config`, and that
each of its events meets the condition `Meets` in the configuration before it. -/
inductive Run (M : Machine Pid Op Res State Label Call Choice)
    (Meets : Config Pid Op Res State Label → Event Pid Call Choice → Prop)
    (start : Config Pid Op Res State Label) : Config Pid Op Res State Label → Prop where
  | refl : Run M Meets start start
  | step {config config' : Config Pid Op Res State Label} {event : Event Pid Call Choice} :
      Run M Meets start config → Meets config event → M.next config event = some config' →
      Run M Meets start config'

/-- A configuration that some schedule reaches from `start`. -/
abbrev Reachable (M : Machine Pid Op Res State Label Call Choice)
    (start : Config Pid Op Res State Label) :=
  { config // M.Run (fun _ _ => True) start config }

/-- Play a schedule, checking a condition at each event. -/
def play (M : Machine Pid Op Res State Label Call Choice)
    (meets : Config Pid Op Res State Label → Event Pid Call Choice → Bool) :
    List (Event Pid Call Choice) → Config Pid Op Res State Label →
      Option (Config Pid Op Res State Label)
  | [], config => some config
  | event :: events, config =>
    if meets config event then
      match M.next config event with
      | some config' => play M meets events config'
      | none => none
    else none

variable {M : Machine Pid Op Res State Label Call Choice}
  {Meets : Config Pid Op Res State Label → Event Pid Call Choice → Prop}
  {start config : Config Pid Op Res State Label}
  {Meets' : Config Pid Op Res State Label → Event Pid Call Choice → Prop}

theorem Run.mono (h : M.Run Meets start config) (hmeets : ∀ c e, Meets c e → Meets' c e) :
    M.Run Meets' start config := by
  induction h with
  | refl => exact .refl
  | step _ hmeet hnext ih => exact .step ih (hmeets _ _ hmeet) hnext

/-- A condition that holds along the runs themselves may be asked of their events. -/
theorem Run.strengthen (h : M.Run Meets start config)
    (hmeets : ∀ c e, M.Run Meets start c → Meets c e → Meets' c e) :
    M.Run Meets' start config := by
  induction h with
  | refl => exact .refl
  | step hrun hmeet hnext ih => exact .step ih (hmeets _ _ hrun hmeet) hnext

/-- A condition on the operation that an event performs. -/
def atStep (cond : Pid → Op → State → Bool) (config : Config Pid Op Res State Label)
    (event : Event Pid Call Choice) : Bool :=
  match event with
  | .call _ _ _ => true
  | .step pid _ =>
    match config.prog pid with
    | .ret _ => true
    | .op operation _ => cond pid operation config.state

omit [DecidableEq Pid] in
theorem atStep_true (config : Config Pid Op Res State Label) (event : Event Pid Call Choice) :
    atStep (fun _ _ _ => true) config event = true := by
  cases event with
  | call pid what choice => rfl
  | step pid choice =>
    simp only [atStep]
    split <;> rfl

variable {meets : Config Pid Op Res State Label → Event Pid Call Choice → Bool}
  {events : List (Event Pid Call Choice)}

theorem run_of_play {final : Config Pid Op Res State Label}
    (hrun : M.Run (fun c e => meets c e = true) start config)
    (h : M.play meets events config = some final) :
    M.Run (fun c e => meets c e = true) start final := by
  induction events generalizing config with
  | nil =>
    cases h
    exact hrun
  | cons event events ih =>
    simp only [play] at h
    split at h
    next hmeet =>
      split at h
      next config' hnext => exact ih (.step hrun hmeet hnext) h
      next => cases h
    next => cases h

section

variable {α : Type} {f : Config Pid Op Res State Label → α} {value : α}

theorem exists_run_of_play (h : (M.play meets events config).map f = some value) :
    ∃ final, M.Run (fun c e => meets c e = true) config final ∧ f final = value := by
  obtain ⟨final, hplay, hvalue⟩ := map_eq_some_iff.mp h
  exact ⟨final, run_of_play .refl hplay, hvalue⟩

theorem exists_any_run (h : (M.play (fun _ _ => true) events config).map f = some value) :
    ∃ final, M.Run (fun _ _ => True) config final ∧ f final = value := by
  obtain ⟨final, hrun, hvalue⟩ := exists_run_of_play h
  exact ⟨final, hrun.mono fun _ _ _ => trivial, hvalue⟩

end

end Machine

/-- How the processes of a machine share its state: an invariant over the state and one ghost
value per process, what a process must know when it waits to perform an operation, what it must
know at rest, which messages may stop the machine, and the condition on operations under which
all of this is claimed. -/
structure Discipline {Pid Op : Type} {Res : Op → Type} {State Label Call Choice : Type}
    (M : Machine Pid Op Res State Label Call Choice) (Ghost : Type) where
  inv : State → (Pid → Ghost) → Prop
  needs : Pid → Op → Ghost → Prop
  idle : Pid → Label → Ghost → Prop
  allowed : String → Prop
  guard : Pid → Op → State → Prop

namespace Discipline

variable {Pid Op : Type} {Res : Op → Type} {State Label Call Choice Ghost α β : Type}
  [DecidableEq Pid] {M : Machine Pid Op Res State Label Call Choice}

/-- The weakest precondition of a program of process `pid`. Silent operations are executed on
the state at hand. At every other operation the process closes the invariant with a ghost value
and reopens it in whatever state the others have left. -/
def wp (D : Discipline M Ghost) (pid : Pid) (post : α → State → (Pid → Ghost) → Prop) :
    Prog Op Res α → State → (Pid → Ghost) → Prop
  | .ret value, state, ghost => post value state ghost
  | .op operation next, state, ghost =>
    if M.silent operation then
      ∀ choice, (M.exec pid choice operation state).Ensures D.allowed
        fun result state' => wp D pid post (next result) state' ghost
    else
      ∃ own, D.inv state (update ghost pid own) ∧ D.needs pid operation own ∧
        ∀ state₁ ghost₁ choice, D.inv state₁ ghost₁ → ghost₁ pid = own →
          D.guard pid operation state₁ →
          (M.exec pid choice operation state₁).Ensures D.allowed
            fun result state₂ => wp D pid post (next result) state₂ ghost₁

variable {D : Discipline M Ghost} {pid : Pid} {state : State} {ghost : Pid → Ghost}
  {rest : α → Prog Op Res β} {prog : Prog Op Res α}

/-- Sequential composition: the postcondition of the first part implies the weakest precondition
of the rest. -/
theorem wp_bind {mid : α → State → (Pid → Ghost) → Prop} {post : β → State → (Pid → Ghost) → Prop}
    (h : D.wp pid mid prog state ghost)
    (hrest : ∀ value s g, mid value s g → D.wp pid post (rest value) s g) :
    D.wp pid post (prog >>= rest) state ghost := by
  induction prog generalizing state ghost with
  | ret value => exact hrest value state ghost h
  | op operation next ih =>
    simp only [Prog.op_bind, wp] at h ⊢
    split at h
    next hsilent =>
      rw [if_pos hsilent]
      intro choice
      exact (h choice).mono fun result state' hnext => ih result hnext
    next hsilent =>
      rw [if_neg hsilent]
      obtain ⟨own, hinv, hneeds, hstep⟩ := h
      refine ⟨own, hinv, hneeds, ?_⟩
      intro state₁ ghost₁ choice hinv₁ hown hguard
      exact (hstep state₁ ghost₁ choice hinv₁ hown hguard).mono
        fun result state₂ hnext => ih result hnext

variable {operation : Op} {post : α → State → (Pid → Ghost) → Prop}

theorem wp_op
    {next : Res operation → Prog Op Res α} (own : Ghost) (hsilent : M.silent operation = false)
    (hinv : D.inv state (update ghost pid own)) (hneeds : D.needs pid operation own)
    (hstep : ∀ state₁ ghost₁ choice, D.inv state₁ ghost₁ → ghost₁ pid = own →
      D.guard pid operation state₁ →
      (M.exec pid choice operation state₁).Ensures D.allowed
        fun result state₂ => D.wp pid post (next result) state₂ ghost₁) :
    D.wp pid post (.op operation next) state ghost := by
  simp only [wp, hsilent]
  exact ⟨own, hinv, hneeds, hstep⟩

theorem wp_silent {next : Res operation → Prog Op Res α} (hsilent : M.silent operation = true)
    (hstep : ∀ choice, (M.exec pid choice operation state).Ensures D.allowed
      fun result state' => D.wp pid post (next result) state' ghost) :
    D.wp pid post (.op operation next) state ghost := by
  simp only [wp, hsilent, if_true]
  exact hstep

/-- What a whole call must end in: the invariant, and what a process knows at rest. -/
def atRest (D : Discipline M Ghost) (pid : Pid) (label : Label) (state : State)
    (ghost : Pid → Ghost) : Prop :=
  ∃ own, D.inv state (update ghost pid own) ∧ D.idle pid label own

/-- A process between two steps, seen through its own ghost value only. -/
def Ready (D : Discipline M Ghost) (pid : Pid) (own : Ghost) : Prog Op Res Label → Prop
  | .ret label => D.idle pid label own
  | .op operation next =>
    D.needs pid operation own ∧ ∀ state₁ ghost₁ choice, D.inv state₁ ghost₁ → ghost₁ pid = own →
        D.guard pid operation state₁ →
        (M.exec pid choice operation state₁).Ensures D.allowed
          fun result state₂ => D.wp pid (D.atRest pid) (next result) state₂ ghost₁

/-- The calls of the machine keep the discipline. -/
def CodeSafe (D : Discipline M Ghost) : Prop :=
  ∀ pid label own what prog, D.idle pid label own → M.code pid label what = some prog →
    ∀ state ghost, D.inv state ghost → ghost pid = own → D.wp pid (D.atRest pid) prog state ghost

/-- A configuration in which the invariant holds, every process is ready, and no message other
than an allowed one has stopped the machine. -/
structure Holds (D : Discipline M Ghost) (config : Config Pid Op Res State Label) : Prop where
  state : ∃ ghost, D.inv config.state ghost ∧ ∀ pid, D.Ready pid (ghost pid) (config.prog pid)
  panicked : ∀ message, config.panicked = some message → D.allowed message

/-- The condition on events that a discipline's guard expresses. -/
def Meets (D : Discipline M Ghost) (config : Config Pid Op Res State Label)
    (event : Event Pid Call Choice) : Prop :=
  match event with
  | .call _ _ _ => True
  | .step pid _ =>
    match config.prog pid with
    | .ret _ => True
    | .op operation _ => D.guard pid operation config.state

variable {event : Event Pid Call Choice} {config : Config Pid Op Res State Label}

omit [DecidableEq Pid] in
/-- Events whose operations meet a condition at least as strong as the guard. -/
theorem meets_of_atStep {cond : Pid → Op → State → Bool}
    (hguard : ∀ pid operation state, cond pid operation state = true → D.guard pid operation state)
    (h : Machine.atStep cond config event = true) : D.Meets config event := by
  cases event with
  | call pid what choice => trivial
  | step pid choice =>
    simp only [Machine.atStep] at h
    simp only [Meets]
    cases hprog : config.prog pid with
    | ret label => trivial
    | op operation next =>
      rw [hprog] at h
      exact hguard pid operation config.state h

omit [DecidableEq Pid] in
theorem meets_of_guard (hguard : ∀ pid operation state, D.guard pid operation state)
    (config : Config Pid Op Res State Label) (event : Event Pid Call Choice) :
    D.Meets config event :=
  meets_of_atStep (fun pid operation state _ => hguard pid operation state)
    (Machine.atStep_true config event)

/-- A guard that follows from what a second discipline knows when an operation is performed. -/
theorem Holds.meets {Ghost' : Type} {E : Discipline M Ghost'} (hc : E.Holds config)
    (hguard : ∀ pid operation state ghost, E.inv state ghost → E.needs pid operation (ghost pid) →
      D.guard pid operation state) (event : Event Pid Call Choice) : D.Meets config event := by
  obtain ⟨ghost, hinv, hready⟩ := hc.state
  cases event with
  | call pid what choice => trivial
  | step pid choice =>
    simp only [Meets]
    cases hprog : config.prog pid with
    | ret label => trivial
    | op operation next =>
      have hown := hready pid
      rw [hprog] at hown
      exact hguard pid operation config.state ghost hinv hown.1

/-- Settling a verified program leaves its process ready in a state of the invariant. -/
theorem settle_ensures {prog : Prog Op Res Label} (choice : Choice)
    (h : D.wp pid (D.atRest pid) prog state ghost) :
    (M.settle pid choice prog state).Ensures D.allowed fun prog' state' =>
      ∃ own, D.inv state' (update ghost pid own) ∧ D.Ready pid own prog' := by
  induction prog generalizing state with
  | ret label => exact h
  | op operation next ih =>
    simp only [Machine.settle]
    simp only [wp] at h
    split at h
    next hsilent =>
      rw [if_pos hsilent]
      have hstep := h choice
      cases hexec : M.exec pid choice operation state with
      | blocked => trivial
      | panic message =>
        rwa [hexec] at hstep
      | done result state' =>
        rw [hexec] at hstep
        exact ih result hstep
    next hsilent =>
      rw [if_neg hsilent]
      obtain ⟨own, hinv, hneeds, hstep⟩ := h
      exact ⟨own, hinv, hneeds, hstep⟩

variable {config config' : Config Pid Op Res State Label}

/-- Installing a verified step of one process keeps every process ready. -/
theorem holds_install
    {outcome : Outcome State (Prog Op Res Label)} (hinv : D.inv config.state ghost)
    (hready : ∀ q, D.Ready q (ghost q) (config.prog q))
    (houtcome : outcome.Ensures D.allowed fun prog' state' =>
      ∃ own, D.inv state' (update ghost pid own) ∧ D.Ready pid own prog')
    (h : Machine.install config pid outcome = some config') : D.Holds config' := by
  cases outcome with
  | blocked => simp [Machine.install] at h
  | panic message =>
    cases h
    refine ⟨⟨ghost, hinv, hready⟩, ?_⟩
    rintro other ⟨⟩
    exact houtcome
  | done prog state =>
    cases h
    obtain ⟨own, hinv', hown⟩ := houtcome
    refine ⟨⟨_, hinv', fun q => ?_⟩, nofun⟩
    by_cases hq : q = pid
    · subst hq
      simpa using hown
    · simpa [hq] using hready q

theorem Holds.next (hcode : D.CodeSafe) (hc : D.Holds config) (hmeets : D.Meets config event)
    (h : M.next config event = some config') : D.Holds config' := by
  obtain ⟨ghost, hinv, hready⟩ := hc.state
  cases event with
  | call pid what choice =>
    simp only [Machine.next] at h
    split at h
    next label _ hprog =>
      have hown := hready pid
      rw [hprog] at hown
      split at h
      next prog hcall =>
        exact holds_install hinv hready
          (settle_ensures choice (hcode pid label (ghost pid) what prog hown hcall
            config.state ghost hinv rfl)) h
      next => cases h
    next => cases h
  | step pid choice =>
    simp only [Machine.next] at h
    split at h
    next operation rest _ hprog =>
      have hown := hready pid
      rw [hprog] at hown
      obtain ⟨_, hstep⟩ := hown
      simp only [Meets, hprog] at hmeets
      refine holds_install hinv hready ?_ h
      exact (hstep config.state ghost choice hinv rfl hmeets).andThen
        fun result state' hwp => settle_ensures choice hwp
    next => cases h

/-- The invariant rule: if the calls keep the discipline and the start configuration satisfies
it, then so does every configuration of every run whose operations meet the guard. -/
theorem holds_of_run (hcode : D.CodeSafe) {start config : Config Pid Op Res State Label}
    (hstart : D.Holds start) (h : M.Run D.Meets start config) : D.Holds config := by
  induction h with
  | refl => exact hstart
  | step _ hmeets hnext ih => exact ih.next hcode hmeets hnext

/-- What one event of a machine without silent operations does: nothing, or one operation that has
what it needs. -/
theorem Holds.state_cases (hsilent : ∀ o, M.silent o = false)
    (hc : D.Holds config) (h : M.next config event = some config') :
    config'.state = config.state ∨ ∃ pid operation choice ghost result, D.inv config.state ghost ∧
        D.needs pid operation (ghost pid) ∧
        M.exec pid choice operation config.state = .done result config'.state := by
  have hsettle : ∀ pid choice (prog : Prog Op Res Label) state,
      M.settle pid choice prog state = .done prog state := by
    intro pid choice prog state
    cases prog with
    | ret label => rfl
    | op operation next => simp [Machine.settle, hsilent operation]
  obtain ⟨ghost, hinv, hready⟩ := hc.state
  cases event with
  | call pid what choice =>
    simp only [Machine.next] at h
    split at h
    next label _ hprog =>
      split at h
      next prog hcall =>
        rw [hsettle] at h
        cases h
        exact .inl rfl
      next => cases h
    next => cases h
  | step pid choice =>
    simp only [Machine.next] at h
    split at h
    next operation rest _ hprog =>
      have hown := hready pid
      rw [hprog] at hown
      cases hexec : M.exec pid choice operation config.state with
      | blocked => simp [hexec, Outcome.andThen, Machine.install] at h
      | panic message =>
        rw [hexec] at h
        cases h
        exact .inl rfl
      | done result state =>
        rw [hexec] at h
        simp only [Outcome.andThen, hsettle, Machine.install, some.injEq] at h
        refine .inr ⟨pid, operation, choice, ghost, result, hinv, hown.1, ?_⟩
        rw [hexec, ← h]
    next => cases h

/-- `D.Triple pid own prog post`: process `pid`, knowing `own`, may run `prog`, and knows
afterwards some value that satisfies `post` together with the result. -/
def Triple (D : Discipline M Ghost) (pid : Pid) (own : Ghost) (prog : Prog Op Res α)
    (post : α → Ghost → Prop) : Prop :=
  ∀ state ghost, D.inv state (update ghost pid own) → D.wp pid (fun value state' ghost' =>
      ∃ own', D.inv state' (update ghost' pid own') ∧ post value own') prog state ghost

/-- The triple of code after which the process knows `own'`. -/
abbrev Moves (D : Discipline M Ghost) (pid : Pid) (own : Ghost) (prog : Prog Op Res α)
    (own' : Ghost) : Prop :=
  D.Triple pid own prog fun _ last => last = own'

variable {own : Ghost} {post : α → Ghost → Prop}

theorem Triple.ret {value : α} (h : post value own) : D.Triple pid own (.ret value) post :=
  fun _ _ hinv => ⟨own, hinv, h⟩

theorem Triple.bind {Q : α → Ghost → Prop} {post : β → Ghost → Prop} (h : D.Triple pid own prog Q)
    (hrest : ∀ value own', Q value own' → D.Triple pid own' (rest value) post) :
    D.Triple pid own (prog >>= rest) post := by
  intro state ghost hinv
  apply wp_bind (h state ghost hinv)
  rintro value state' ghost' ⟨own', hinv', hmid⟩
  exact hrest value own' hmid state' ghost' hinv'

/-- Sequential composition when the first part leaves a known value. -/
theorem Triple.bind_eq {next : α → Ghost}
    {post : β → Ghost → Prop} (h : D.Triple pid own prog fun value own' => own' = next value)
    (hrest : ∀ value, D.Triple pid (next value) (rest value) post) :
    D.Triple pid own (prog >>= rest) post := by
  refine h.bind fun value own' hown => ?_
  subst hown
  exact hrest value

/-- Sequential composition when the result is not used. -/
theorem Triple.seq {own' : Ghost} {rest : Prog Op Res β} {post : β → Ghost → Prop}
    (h : D.Moves pid own prog own') (hrest : D.Triple pid own' rest post) :
    D.Triple pid own (prog >>= fun _ => rest) post :=
  h.bind_eq fun _ => hrest

theorem Triple.mono {post' : α → Ghost → Prop}
    (h : D.Triple pid own prog post) (hpost : ∀ value own', post value own' → post' value own') :
    D.Triple pid own prog post' := by
  rw [← prog.bind_ret]
  exact h.bind fun value own' hvalue => .ret (hpost value own' hvalue)

variable {post : Res operation → Ghost → Prop}

/-- The rule for one operation: what it does to a state of the invariant. -/
theorem Triple.perform (hsilent : M.silent operation = false) (hneeds : D.needs pid operation own)
    (hstep : ∀ state ghost choice, D.inv state ghost → ghost pid = own →
      D.guard pid operation state →
      (M.exec pid choice operation state).Ensures D.allowed fun result state' =>
        ∃ own', D.inv state' (update ghost pid own') ∧ post result own') :
    D.Triple pid own (.perform operation) post := fun _ _ hinv =>
  wp_op own hsilent hinv hneeds hstep

theorem Moves.perform {own' : Ghost} (hsilent : M.silent operation = false)
    (hneeds : D.needs pid operation own)
    (hstep : ∀ state ghost choice, D.inv state ghost → ghost pid = own →
      D.guard pid operation state → (M.exec pid choice operation state).Ensures D.allowed
        fun _ state' => D.inv state' (update ghost pid own')) :
    D.Moves pid own (.perform operation) own' := by
  refine Triple.perform hsilent hneeds fun state ghost choice hinv hown hguard => ?_
  exact (hstep state ghost choice hinv hown hguard).mono fun _ _ h => ⟨own', h, rfl⟩

theorem Triple.performSilent (hsilent : M.silent operation = true)
    (hstep : ∀ state ghost choice, D.inv state (update ghost pid own) →
      (M.exec pid choice operation state).Ensures D.allowed fun result state' =>
        ∃ own', D.inv state' (update ghost pid own') ∧ post result own') :
    D.Triple pid own (.perform operation) post := fun state ghost hinv =>
  wp_silent hsilent fun choice => hstep state ghost choice hinv

/-- Operations that leave what a process knows alone do so in any order. -/
theorem Triple.of_all {P : Op → Prop} (hop : ∀ o, P o → D.Moves pid own (.perform o) own)
    (h : prog.All P) : D.Moves pid own prog own := by
  induction prog with
  | ret value => exact .ret rfl
  | op operation next ih => exact (hop operation h.1).bind_eq fun result => ih result (h.2 result)

/-- The triple of a call, if the process can make it where it is. -/
def Calls (D : Discipline M Ghost) (pid : Pid) (own : Ghost)
    (code : Option (Prog Op Res Label)) : Prop :=
  ∀ prog, code = some prog → D.Triple pid own prog fun label own' => D.idle pid label own'

theorem Calls.made {prog : Prog Op Res Label}
    (h : D.Triple pid own prog fun label own' => D.idle pid label own') :
    D.Calls pid own (some prog) := fun _ hcode => some.inj hcode ▸ h

theorem Calls.refused : D.Calls pid own none := nofun

theorem Calls.guard {c : Prop} [Decidable c] {code : Option (Prog Op Res Label)}
    (h : c → D.Calls pid own code) : D.Calls pid own (if c then code else none) := by
  split
  next hc => exact h hc
  next => exact .refused

theorem codeSafe_of_calls (h : ∀ pid label own what, D.idle pid label own →
      D.Calls pid own (M.code pid label what)) : D.CodeSafe := by
  intro pid label own what prog hidle hcode state ghost hinv hown
  have hsame : update ghost pid own = ghost := by
    rw [← hown, update_eq_self]
  exact h pid label own what hidle prog hcode state ghost (hsame.symm ▸ hinv)

end Discipline

/-- What one process owns alone stays so if another one takes only what nobody else owns. -/
theorem unique_step {Pid α : Type} {owns owns' : Pid → α → Prop} {r : Pid}
    (h : ∀ p q x, owns p x → owns q x → p = q)
    (hsame : ∀ q, q ≠ r → ∀ x, owns' q x → owns q x)
    (hnew : ∀ q, q ≠ r → ∀ x, owns q x → ¬ owns' r x) (p q : Pid) (x : α)
    (hp : owns' p x) (hq : owns' q x) : p = q := by
  by_cases hpr : p = r
  · subst hpr
    by_contra hne
    exact hnew q (Ne.symm hne) x (hsame q (Ne.symm hne) x hq) hp
  · by_cases hqr : q = r
    · subst hqr
      exact absurd hq (hnew p hpr x (hsame p hpr x hp))
    · exact h p q x (hsame p hpr x hp) (hsame q hqr x hq)

end Interleave
