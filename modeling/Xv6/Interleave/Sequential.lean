import Xv6.Interleave.Prog

/-!
# Programs that run alone

`Steps exec prog s trace value s'` says that the program, run from `s` without any other process,
performs the operations of `trace`, none of which waits or stops the machine, and ends with `value`
in `s'`. `run` computes how such a run ends, whatever it ends in, and `Outcome.Ends` says that it
does not wait forever.
-/

namespace Interleave

variable {Op : Type} {Res : Op → Type} {State α β : Type}

/-- A run of a program alone. -/
inductive Steps (exec : (o : Op) → State → Outcome State (Res o)) :
    Prog Op Res α → State → List Op → α → State → Prop where
  | ret (value : α) (s : State) : Steps exec (.ret value) s [] value s
  | op {o : Op} {next : Res o → Prog Op Res α} {s s' s'' : State} {r : Res o} {trace : List Op}
      {value : α} : exec o s = .done r s' → Steps exec (next r) s' trace value s'' →
      Steps exec (.op o next) s (o :: trace) value s''

namespace Steps

variable {exec : (o : Op) → State → Outcome State (Res o)} {s s' s'' : State}

theorem bind {prog : Prog Op Res α} {rest : α → Prog Op Res β} {trace trace' : List Op} {a : α}
    {b : β} (h : Steps exec prog s trace a s') (h' : Steps exec (rest a) s' trace' b s'') :
    Steps exec (prog >>= rest) s (trace ++ trace') b s'' := by
  induction h with
  | ret value s => exact h'
  | op hexec _ ih => exact .op hexec (ih h')

end Steps

/-! ### How a run ends -/

/-- Run a program alone. -/
def run (exec : (o : Op) → State → Outcome State (Res o)) : Prog Op Res α → State → Outcome State α
  | .ret value, s => .done value s
  | .op o next, s =>
    match exec o s with
    | .blocked => .blocked
    | .panic message => .panic message
    | .done r s' => run exec (next r) s'

section

variable {exec : (o : Op) → State → Outcome State (Res o)} {s s' : State}

theorem run_op {o : Op} {next : Res o → Prog Op Res α} :
    run exec (.op o next) s = (exec o s).andThen fun r s' => run exec (next r) s' := by
  rw [run]
  cases exec o s <;> rfl

theorem run_bind (prog : Prog Op Res α) (rest : α → Prog Op Res β) :
    run exec (prog >>= rest) s = (run exec prog s).andThen fun a s' => run exec (rest a) s' := by
  induction prog generalizing s with
  | ret value => rfl
  | op o next ih =>
    rw [Prog.op_bind, run_op, run_op]
    cases exec o s with
    | blocked => rfl
    | panic message => rfl
    | done r s' => exact ih r

end

/-- The run stops with an allowed message, or it returns with `post`. -/
def Outcome.Ends {R : Type} (allowed : String → Prop) (post : R → State → Prop) :
    Outcome State R → Prop
  | .blocked => False
  | .panic message => allowed message
  | .done result state => post result state

namespace Outcome

variable {R R' : Type} {allowed : String → Prop} {post : R → State → Prop}
  {outcome : Outcome State R}

theorem Ends.mono {post' : R → State → Prop} (h : outcome.Ends allowed post)
    (hpost : ∀ result state, post result state → post' result state) :
    outcome.Ends allowed post' := by
  cases outcome with
  | blocked => exact h
  | panic message => exact h
  | done result state => exact hpost result state h

variable {rest : R → State → Outcome State R'}

theorem Ends.andThen {post' : R' → State → Prop} (h : outcome.Ends allowed post)
    (hrest : ∀ result state, post result state → (rest result state).Ends allowed post') :
    (outcome.andThen rest).Ends allowed post' := by
  cases outcome with
  | blocked => exact h
  | panic message => exact h
  | done result state => exact hrest result state h

theorem Ends.exists_done (h : outcome.Ends (fun _ => False) post) :
    ∃ result state, outcome = .done result state ∧ post result state := by
  cases outcome with
  | blocked => exact h.elim
  | panic message => exact h.elim
  | done result state => exact ⟨result, state, rfl, h⟩

/-- A run that cannot return stops with a message that is allowed. -/
theorem Ends.exists_panic (h : outcome.Ends allowed fun _ _ => False) :
    ∃ message, outcome = .panic message ∧ allowed message := by
  cases outcome with
  | blocked => exact h.elim
  | panic message => exact ⟨message, rfl, h⟩
  | done result state => exact h.elim

/-- The value that a run returns. -/
def result? : Outcome State R → Option R
  | .done result _ => some result
  | _ => none

/-- What a run stops with. -/
def message? : Outcome State R → Option String
  | .panic message => some message
  | _ => none

theorem exists_done_of_result {result : R} (h : outcome.result? = some result) :
    ∃ state, outcome = .done result state := by
  cases outcome with
  | blocked => simp [result?] at h
  | panic message => simp [result?] at h
  | done value state =>
    cases h
    exact ⟨state, rfl⟩

theorem exists_of_andThen {result : R'} (h : (outcome.andThen rest).result? = some result) :
    ∃ value state, outcome = .done value state ∧ (rest value state).result? = some result := by
  cases outcome with
  | blocked => simp [andThen, result?] at h
  | panic message => simp [andThen, result?] at h
  | done value state => exact ⟨value, state, rfl, h⟩

theorem eq_panic_of_message {message : String} (h : outcome.message? = some message) :
    outcome = .panic message := by
  cases outcome with
  | blocked => simp [message?] at h
  | panic text =>
    cases h
    rfl
  | done value state => simp [message?] at h

end Outcome

end Interleave
