import Mathlib.Logic.Function.Basic

/-!
# Programs as trees of atomic operations

A `Prog` is code cut at its atomic operations: it has either returned, or it waits to
perform one operation and continues with a tree that depends on the result. Code written
in `do` notation over `Prog` is therefore code whose interleaving points are explicit.
Loops that may run forever are cut at their heads: the tree returns a label, and the
machine that runs it (`Interleave.Machine`) supplies the next tree.
-/

namespace Interleave

/-- A program over operations `Op`, whose operation `o` returns a value of type `Res o`. -/
inductive Prog (Op : Type) (Res : Op → Type) (α : Type) : Type where
  | ret (value : α)
  | op (operation : Op) (next : Res operation → Prog Op Res α)

namespace Prog

variable {Op : Type} {Res : Op → Type} {α β γ : Type}

/-- Run a program and continue with `rest` on its result. -/
def bind : Prog Op Res α → (α → Prog Op Res β) → Prog Op Res β
  | .ret value, rest => rest value
  | .op operation next, rest => .op operation fun result => (next result).bind rest

instance : Monad (Prog Op Res) where
  pure := .ret
  bind := bind

/-- The program that performs one operation and returns its result. -/
def perform (operation : Op) : Prog Op Res (Res operation) := .op operation .ret

@[simp] theorem pure_eq (value : α) : (pure value : Prog Op Res α) = .ret value := rfl

@[simp] theorem ret_bind (value : α) (rest : α → Prog Op Res β) :
    (Prog.ret value >>= rest) = rest value := rfl

@[simp] theorem op_bind (operation : Op) (next : Res operation → Prog Op Res α)
    (rest : α → Prog Op Res β) :
    (Prog.op operation next >>= rest) = .op operation fun result => next result >>= rest := rfl

theorem bind_ret (prog : Prog Op Res α) : prog >>= .ret = prog := by
  induction prog with
  | ret value => rfl
  | op operation next ih => exact congrArg (Prog.op operation) (funext ih)

/-- Every operation that a program may perform satisfies `ok`. -/
def All (ok : Op → Prop) : Prog Op Res α → Prop
  | .ret _ => True
  | .op operation next => ok operation ∧ ∀ result, (next result).All ok

variable {ok : Op → Prop}

theorem All.perform {operation : Op} (h : ok operation) :
    (Prog.perform operation : Prog Op Res (Res operation)).All ok :=
  ⟨h, fun _ => trivial⟩

theorem All.ite {c : Prop} [Decidable c] {prog prog' : Prog Op Res α}
    (h : prog.All ok) (h' : prog'.All ok) : (if c then prog else prog').All ok := by
  split <;> assumption

variable {prog : Prog Op Res α}

theorem All.bind {rest : α → Prog Op Res β}
    (h : prog.All ok) (hrest : ∀ value, (rest value).All ok) : (prog >>= rest).All ok := by
  induction prog with
  | ret value => exact hrest value
  | op operation next ih => exact ⟨h.1, fun result => ih result (h.2 result)⟩

/-- A program over the operations of one component as a program over those of a larger system. -/
def lift {Op' : Type} {Res' : Op' → Type} (embed : Op → Op')
    (result : (o : Op) → Res' (embed o) → Res o) : Prog Op Res α → Prog Op' Res' α
  | .ret value => .ret value
  | .op operation next => .op (embed operation) fun r =>
      (next (result operation r)).lift embed result

theorem lift_bind {Op' : Type} {Res' : Op' → Type} (embed : Op → Op')
    (result : (o : Op) → Res' (embed o) → Res o) (prog : Prog Op Res α)
    (rest : α → Prog Op Res β) :
    (prog >>= rest).lift embed result =
      prog.lift embed result >>= fun value => (rest value).lift embed result := by
  induction prog with
  | ret value => rfl
  | op operation next ih =>
    simp only [op_bind, lift]
    congr 1
    funext r
    exact ih _

theorem All.lift {Op' : Type} {Res' : Op' → Type} {embed : Op → Op'}
    {result : (o : Op) → Res' (embed o) → Res o} {ok' : Op' → Prop}
    (hok : ∀ o, ok o → ok' (embed o)) (h : prog.All ok) :
    (prog.lift embed result).All ok' := by
  induction prog with
  | ret value => trivial
  | op operation next ih => exact ⟨hok operation h.1, fun r => ih _ (h.2 (result operation r))⟩

end Prog

/-- What one operation does when it is attempted: it has to wait, it stops the whole machine
with a message, or it completes with a result in a new state. -/
inductive Outcome (State R : Type) : Type where
  | blocked
  | panic (message : String)
  | done (result : R) (state : State)

namespace Outcome

variable {State R R' : Type}

/-- Continue after an operation that completed. -/
def andThen (outcome : Outcome State R) (rest : R → State → Outcome State R') : Outcome State R' :=
  match outcome with
  | .blocked => .blocked
  | .panic message => .panic message
  | .done result state => rest result state

/-- An operation on one component of a larger state; `put` installs the component. -/
def inside {Whole : Type} (outcome : Outcome State R) (put : State → Whole) : Outcome Whole R :=
  match outcome with
  | .blocked => .blocked
  | .panic message => .panic message
  | .done result state => .done result (put state)

/-- `outcome.Ensures allowed post` says that if the operation stopped the machine, its message is
allowed, and if it completed, its result and state satisfy `post`. -/
def Ensures (allowed : String → Prop) (post : R → State → Prop) : Outcome State R → Prop
  | .blocked => True
  | .panic message => allowed message
  | .done result state => post result state

variable {allowed : String → Prop} {outcome : Outcome State R}

theorem Ensures.mono {post post' : R → State → Prop} (h : outcome.Ensures allowed post)
    (hpost : ∀ result state, post result state → post' result state) :
    outcome.Ensures allowed post' := by
  cases outcome with
  | blocked => trivial
  | panic message => exact h
  | done result state => exact hpost result state h

theorem ensures_inside {Whole : Type} {post : R → Whole → Prop} {put : State → Whole} :
    (outcome.inside put).Ensures allowed post ↔
      outcome.Ensures allowed fun result state => post result (put state) := by
  cases outcome <;> rfl

theorem Ensures.andThen {post : R → State → Prop} {post' : R' → State → Prop}
    {rest : R → State → Outcome State R'} (h : outcome.Ensures allowed post)
    (hrest : ∀ result state, post result state → (rest result state).Ensures allowed post') :
    (outcome.andThen rest).Ensures allowed post' := by
  cases outcome with
  | blocked => trivial
  | panic message => exact h
  | done result state => exact hrest result state h

end Outcome

end Interleave
