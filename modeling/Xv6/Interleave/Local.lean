import Xv6.Interleave.Sequential

/-!
# Programs that own a part of the state

A program often owns only a part of the state, and whatever it is given by an operation, such as a
block of memory, is one of many that it might have been given. A `LocalSpec` says what each
operation needs of the part that the program owns and what it may leave there, as a predicate
transformer; `LocalSpec.Safe` is the weakest precondition of a whole program. `LocalSpec.ends_run`
turns it into a statement about the program's run on a whole state, from one such statement for each
operation.
-/

namespace Interleave

variable {Op : Type} {Res : Op → Type} {Local α β : Type}

/-- What operations do to the part of the state that a program owns. -/
structure LocalSpec (Op : Type) (Res : Op → Type) (Local : Type) where
  wp : (o : Op) → (Res o → Local → Prop) → Local → Prop
  mono : ∀ {o : Op} {post post' : Res o → Local → Prop} {own : Local},
    (∀ r own', post r own' → post' r own') → wp o post own → wp o post' own

namespace LocalSpec

variable {S : LocalSpec Op Res Local} {own : Local}

/-- From `own`, each operation finds what it needs, and the program returns with `post`. -/
def Safe (S : LocalSpec Op Res Local) (post : α → Local → Prop) : Prog Op Res α → Local → Prop
  | .ret value, own => post value own
  | .op o next, own => S.wp o (fun r own' => Safe S post (next r) own') own

variable {post : α → Local → Prop}

theorem Safe.ret {value : α} (h : post value own) : S.Safe post (.ret value) own := h

variable {prog : Prog Op Res α}

/-- The rest of a program starts with what the first part ensures. -/
theorem Safe.andThen {rest : α → Prog Op Res β} {post' : β → Local → Prop}
    (h : S.Safe post prog own)
    (hrest : ∀ value own', post value own' → S.Safe post' (rest value) own') :
    S.Safe post' (prog >>= rest) own := by
  induction prog generalizing own with
  | ret value => exact hrest value own h
  | op o next ih => exact S.mono (fun r own' hnext => ih r hnext) h

theorem Safe.mono {post' : α → Local → Prop} (h : S.Safe post prog own)
    (hpost : ∀ value own', post value own' → post' value own') : S.Safe post' prog own := by
  rw [← prog.bind_ret]
  exact h.andThen hpost

/-- A program whose every operation keeps the link between what it owns and the whole state. -/
theorem ends_run {State : Type} {exec : (o : Op) → State → Outcome State (Res o)}
    {allowed : String → Prop} {Agrees : Local → State → Prop}
    (hstep : ∀ (o : Op) (post : Res o → Local → Prop) (own : Local) (s : State), S.wp o post own →
      Agrees own s → (exec o s).Ends allowed fun r s' => ∃ own', post r own' ∧ Agrees own' s') {s :
      State} (h : S.Safe post prog own)
    (hagrees : Agrees own s) :
    (run exec prog s).Ends allowed fun value s' => ∃ own', post value own' ∧ Agrees own' s' := by
  induction prog generalizing own s with
  | ret value => exact ⟨own, h, hagrees⟩
  | op o next ih =>
    rw [run_op]
    refine (hstep o _ own s h hagrees).andThen ?_
    rintro r s' ⟨own', hsafe, hagrees'⟩
    exact ih r hsafe hagrees'

end LocalSpec

end Interleave
