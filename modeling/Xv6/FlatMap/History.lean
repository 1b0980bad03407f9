import Mathlib.Data.List.Basic

/-!
# Histories of a flat map

A map from keys to values that is read and written by anybody. A history lists the accesses in
their order; it is legal if every read returns the value that was last written to its key, or the
initial one. `legal_append` and `after_append` are for histories that grow at the end.
-/

namespace FlatMap

variable {Key Value Value' : Type}

/-- An access to the map, with the value that it returns or stores. -/
inductive Access (Key Value : Type) where
  | read (key : Key) (value : Value)
  | write (key : Key) (value : Value)

/-- The same access, seen through a projection of the values. -/
def Access.map (f : Value → Value') : Access Key Value → Access Key Value'
  | .read key value => .read key (f value)
  | .write key value => .write key (f value)

variable [DecidableEq Key]

/-- The map after one access. -/
def Access.apply (m : Key → Value) : Access Key Value → Key → Value
  | .read _ _ => m
  | .write key value => Function.update m key value

/-- What an access may return. -/
def Access.Fits (m : Key → Value) : Access Key Value → Prop
  | .read key value => m key = value
  | .write _ _ => True

/-- The map after a history. -/
def after (m : Key → Value) : List (Access Key Value) → Key → Value
  | [] => m
  | a :: l => after (a.apply m) l

/-- Every access of the history returns what it may. -/
def Legal (m : Key → Value) : List (Access Key Value) → Prop
  | [] => True
  | a :: l => a.Fits m ∧ Legal (a.apply m) l

instance [DecidableEq Value] (m : Key → Value) : (a : Access Key Value) → Decidable (a.Fits m)
  | .read key value => inferInstanceAs (Decidable (m key = value))
  | .write _ _ => inferInstanceAs (Decidable True)

instance decidableLegal [DecidableEq Value] (m : Key → Value) :
    (l : List (Access Key Value)) → Decidable (Legal m l)
  | [] => inferInstanceAs (Decidable True)
  | a :: l =>
    have := decidableLegal (a.apply m) l
    inferInstanceAs (Decidable (a.Fits m ∧ Legal (a.apply m) l))

theorem after_append (m : Key → Value) (l : List (Access Key Value)) (a : Access Key Value) :
    after m (l ++ [a]) = a.apply (after m l) := by
  induction l generalizing m with
  | nil => rfl
  | cons a' l ih => exact ih (a'.apply m)

theorem legal_append (m : Key → Value) (l : List (Access Key Value)) (a : Access Key Value) :
    Legal m (l ++ [a]) ↔ Legal m l ∧ a.Fits (after m l) := by
  induction l generalizing m with
  | nil => simp [Legal, after]
  | cons a' l ih =>
    show a'.Fits m ∧ Legal (a'.apply m) (l ++ [a]) ↔ _
    rw [ih, ← and_assoc]
    rfl

theorem Access.apply_map (f : Value → Value') (m : Key → Value) (a : Access Key Value) :
    (a.map f).apply (f ∘ m) = f ∘ a.apply m := by
  cases a with
  | read key value => rfl
  | write key value =>
    funext k
    by_cases hk : k = key
    · simp [Access.map, Access.apply, hk]
    · simp [Access.map, Access.apply, hk]

/-- A legal history stays legal when its values are mapped. -/
theorem Legal.map (f : Value → Value') {m : Key → Value} {l : List (Access Key Value)}
    (h : Legal m l) : Legal (f ∘ m) (l.map (Access.map f)) := by
  induction l generalizing m with
  | nil => trivial
  | cons a l ih =>
    constructor
    · cases a with
      | read key value => exact congrArg f h.1
      | write key value => trivial
    · rw [Access.apply_map]
      exact ih h.2

end FlatMap
