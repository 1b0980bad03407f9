import Mathlib.Logic.Function.Basic

/-!
# Tables of owned numbers

A table says which number each of its places holds, where 0 stands for none. `Distinct` says that no
number is in two places. It is kept when a number that is nowhere yet is put into a place, and when
a place is cleared.
-/

namespace Ownership

variable {Key : Type*} {table : Key → Nat}

/-- No number is in two places. -/
def Distinct (table : Key → Nat) : Prop := ∀ a b, table a ≠ 0 → table a = table b → a = b

/-- The number is in some place. -/
def Lists (table : Key → Nat) (n : Nat) : Prop := n ≠ 0 ∧ ∃ k, table k = n

theorem Lists.intro {k : Key} (h : table k ≠ 0) : Lists table (table k) := ⟨h, k, rfl⟩

theorem Distinct.ne (h : Distinct table) {a b : Key} (ha : table a ≠ 0) (hab : a ≠ b) :
    table a ≠ table b :=
  fun heq => hab (h a b ha heq)

variable [DecidableEq Key]

/-- A number that is not in the table may be stored. -/
theorem Distinct.update (h : Distinct table) {n : Nat} (hn : ¬ Lists table n) (k : Key) :
    Distinct (Function.update table k n) := by
  intro a b ha hab
  have hnew : ∀ c, c ≠ k → n ≠ 0 → table c ≠ n := by
    intro c _ hpos hc
    exact hn ⟨hpos, c, hc⟩
  rcases eq_or_ne a k with rfl | hak
  · rcases eq_or_ne b a with rfl | hba
    · rfl
    · rw [Function.update_self] at ha hab
      rw [Function.update_of_ne hba] at hab
      exact absurd hab.symm (hnew b hba ha)
  · rw [Function.update_of_ne hak] at ha hab
    rcases eq_or_ne b k with rfl | hbk
    · rw [Function.update_self] at hab
      exact absurd hab (hnew a hak (hab ▸ ha))
    · rw [Function.update_of_ne hbk] at hab
      exact h a b ha hab

end Ownership
