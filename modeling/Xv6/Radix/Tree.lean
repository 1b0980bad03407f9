import Mathlib.Data.List.Induction

/-!
# Trees of tables

A table has one entry for each index, and an entry may lead to another table. `follow` is the table
at the end of a path of indices. `Unshared` says that no table is at the end of two paths of at most
a given length, so that the tables form a tree. A tree stays one when an empty entry gets a new
table (`Graft`), and then only the path to the new table leads to something else than before.
-/

namespace Radix

open List Option

variable {α ι : Type*}

/-- The table at the end of a path. -/
def follow (child : α → ι → Option α) : α → List ι → Option α
  | a, [] => some a
  | a, i :: path => (child a i).bind fun b => follow child b path

/-- A table at the end of a path of length at most `d`. -/
def Node (child : α → ι → Option α) (root : α) (d : Nat) (a : α) : Prop :=
  ∃ path, path.length ≤ d ∧ follow child root path = some a

/-- No table is at the end of two paths of length at most `d`. -/
def Unshared (child : α → ι → Option α) (root : α) (d : Nat) : Prop :=
  ∀ p q a, p.length ≤ d → q.length ≤ d → follow child root p = some a →
    follow child root q = some a → p = q

variable {child child' : α → ι → Option α} {root : α} {d : Nat}

theorem follow_cons (i : ι) (path : List ι) :
    follow child root (i :: path) = (child root i).bind fun b => follow child b path := rfl

theorem follow_append (p q : List ι) :
    follow child root (p ++ q) = (follow child root p).bind fun a => follow child a q := by
  induction p generalizing root with
  | nil => rfl
  | cons j p ih =>
    simp only [cons_append, follow]
    cases child root j with
    | none => rfl
    | some b => exact ih

theorem follow_concat (path : List ι) (i : ι) :
    follow child root (path ++ [i]) = (follow child root path).bind fun a => child a i := by
  have hone : ∀ a, follow child a [i] = child a i := by
    intro a
    show ((child a i).bind fun b => some b) = child a i
    cases child a i <;> rfl
  rw [follow_append]
  simp only [hone]

theorem node_root : Node child root d root := ⟨[], Nat.zero_le d, rfl⟩

/-- Paths of length at most `d` depend only on the tables at the ends of shorter paths. -/
theorem follow_congr
    (h : ∀ path a, path.length < d → follow child root path = some a → child' a = child a)
    {path : List ι} (hpath : path.length ≤ d) :
    follow child' root path = follow child root path := by
  induction path using List.reverseRecOn with
  | nil => rfl
  | append_singleton path i ih =>
    rw [length_append, length_singleton] at hpath
    rw [follow_concat, follow_concat, ih (by omega)]
    cases hfollow : follow child root path with
    | none => rfl
    | some a =>
      show child' a i = child a i
      rw [h path a (by omega) hfollow]

/-- The same paths lead to the same tables, so what is unshared stays so. -/
theorem Unshared.congr (h : Unshared child root d) (hfollow : ∀ path : List ι, path.length ≤ d →
      follow child' root path = follow child root path) : Unshared child' root d := by
  intro p q a hp hq hpa hqa
  rw [hfollow p hp] at hpa
  rw [hfollow q hq] at hqa
  exact h p q a hp hq hpa hqa

theorem node_congr (hfollow : ∀ path : List ι, path.length ≤ d →
      follow child' root path = follow child root path) (a : α) :
    Node child' root d a ↔ Node child root d a := by
  constructor
  · rintro ⟨path, hpath, ha⟩
    exact ⟨path, hpath, by rwa [hfollow path hpath] at ha⟩
  · rintro ⟨path, hpath, ha⟩
    exact ⟨path, hpath, by rwa [hfollow path hpath]⟩

/-! ### A new table -/

/-- The empty entry `i` of the table `x` at the end of `path` got the new, empty table `y`. -/
structure Graft (child child' : α → ι → Option α) (root : α) (d : Nat) (path : List ι) (x : α)
    (i : ι) (y : α) : Prop where
  reached : follow child root path = some x
  short : path.length < d
  empty : child x i = none
  fresh : ¬ Node child root d y
  here : child' x i = some y
  beside : ∀ j, j ≠ i → child' x j = child x j
  below : ∀ j, child' y j = none
  elsewhere : ∀ a, a ≠ x → a ≠ y → child' a = child a

namespace Graft

variable {path : List ι} {x y : α} {i : ι}

section

variable (hgraft : Graft child child' root d path x i y) (h : Unshared child root d)
include hgraft h

theorem follow_eq [DecidableEq ι] {q : List ι} (hq : q.length ≤ d) :
    follow child' root q = if q = path ++ [i] then some y else follow child root q := by
  induction q using List.reverseRecOn with
  | nil => rw [if_neg (by simp)]; rfl
  | append_singleton r j ih =>
    rw [length_append, length_singleton] at hq
    have ih := ih (by omega)
    rw [follow_concat, ih]
    by_cases hr : r = path ++ [i]
    · -- Below the new table there is nothing, as there was nothing below the empty entry.
      have hnone : follow child root r = none := by
        rw [hr, follow_concat, hgraft.reached]
        exact hgraft.empty
      have hlong : ¬ r ++ [j] = path ++ [i] := by
        rw [hr]
        intro heq
        have := congrArg List.length heq
        simp at this
      rw [if_pos hr, if_neg hlong, follow_concat, hnone]
      exact hgraft.below j
    · rw [if_neg hr, follow_concat]
      cases hfollow : follow child root r with
      | none =>
        have hne : ¬ r ++ [j] = path ++ [i] := by
          intro heq
          rw [(append_inj' heq rfl).1, hgraft.reached] at hfollow
          cases hfollow
        rw [if_neg hne]
        rfl
      | some a =>
        have hay : a ≠ y := fun heq => hgraft.fresh ⟨r, by omega, heq ▸ hfollow⟩
        show child' a j = if _ then some y else child a j
        by_cases hax : a = x
        · subst hax
          have hpath : r = path := h r path a (by omega) (by have := hgraft.short; omega)
            hfollow hgraft.reached
          subst hpath
          by_cases hj : j = i
          · subst hj
            rw [if_pos rfl, hgraft.here]
          · rw [if_neg (by simpa using hj), hgraft.beside j hj]
        · have hne : ¬ r ++ [j] = path ++ [i] := by
            intro heq
            rw [(append_inj' heq rfl).1, hgraft.reached] at hfollow
            exact hax (some.inj hfollow).symm
          rw [if_neg hne, hgraft.elsewhere a hax hay]

theorem unshared [DecidableEq ι] : Unshared child' root d := by
  intro p q a hp hq hpa hqa
  rw [hgraft.follow_eq h hp] at hpa
  rw [hgraft.follow_eq h hq] at hqa
  split at hpa
  · next hpi =>
    split at hqa
    · next hqi => rw [hpi, hqi]
    · exact absurd ⟨q, hq, by rwa [some.inj hpa]⟩ hgraft.fresh
  · split at hqa
    · exact absurd ⟨p, hp, by rwa [some.inj hqa]⟩ hgraft.fresh
    · exact h p q a hp hq hpa hqa

theorem node_iff [DecidableEq ι] (a : α) : Node child' root d a ↔ Node child root d a ∨ a = y := by
  have hlen : (path ++ [i]).length ≤ d := by
    rw [length_append, length_singleton]
    exact hgraft.short
  constructor
  · rintro ⟨q, hq, ha⟩
    rw [hgraft.follow_eq h hq] at ha
    split at ha
    · exact .inr (some.inj ha).symm
    · exact .inl ⟨q, hq, ha⟩
  · rintro (⟨q, hq, ha⟩ | rfl)
    · refine ⟨q, hq, ?_⟩
      have hne : ¬ q = path ++ [i] := by
        rintro rfl
        rw [follow_concat, hgraft.reached] at ha
        simpa using hgraft.empty.symm.trans ha
      rw [hgraft.follow_eq h hq, if_neg hne, ha]
    · exact ⟨path ++ [i], hlen, by rw [hgraft.follow_eq h hlen, if_pos rfl]⟩

end

end Graft

/-! ### Subtrees -/

variable {a : α}

theorem node_zero : Node child root 0 a ↔ a = root := by
  constructor
  · rintro ⟨path, hpath, ha⟩
    rw [length_eq_zero_iff.mp (Nat.le_zero.mp hpath)] at ha
    exact (some.inj ha).symm
  · rintro rfl
    exact node_root

/-- The tables of a tree are its root and those of the trees that the root's entries lead to. -/
theorem node_succ :
    Node child root (d + 1) a ↔ a = root ∨ ∃ i b, child root i = some b ∧ Node child b d a := by
  constructor
  · rintro ⟨path, hpath, ha⟩
    cases path with
    | nil => exact .inl (some.inj ha).symm
    | cons i path =>
      obtain ⟨b, hb, ha⟩ := bind_eq_some_iff.mp ha
      exact .inr ⟨i, b, hb, path, Nat.le_of_succ_le_succ hpath, ha⟩
  · rintro (rfl | ⟨i, b, hb, path, hpath, ha⟩)
    · exact node_root
    · exact ⟨i :: path, Nat.succ_le_succ hpath, by rw [follow_cons, hb]; exact ha⟩

namespace Unshared

variable {i j : ι} {b c : α}

section

variable (h : Unshared child root (d + 1)) (hb : child root i = some b)
include h hb

theorem subtree : Unshared child b d := by
  intro p q a hp hq hpa hqa
  have hcons := h (i :: p) (i :: q) a (Nat.succ_le_succ hp) (Nat.succ_le_succ hq)
    (by rw [follow_cons, hb]; exact hpa) (by rw [follow_cons, hb]; exact hqa)
  exact (List.cons.inj hcons).2

theorem root_not_node : ¬ Node child b d root := by
  rintro ⟨path, hpath, ha⟩
  have hnil := h [] (i :: path) root (Nat.zero_le _) (Nat.succ_le_succ hpath) rfl
    (by rw [follow_cons, hb]; exact ha)
  cases hnil

theorem node_disjoint (hc : child root j = some c) (hij : i ≠ j) (ha : Node child b d a) :
    ¬ Node child c d a := by
  rintro ⟨q, hq, hqa⟩
  obtain ⟨p, hp, hpa⟩ := ha
  have hcons := h (i :: p) (j :: q) a (Nat.succ_le_succ hp) (Nat.succ_le_succ hq)
    (by rw [follow_cons, hb]; exact hpa) (by rw [follow_cons, hc]; exact hqa)
  exact hij (List.cons.inj hcons).1

end

end Unshared

end Radix
