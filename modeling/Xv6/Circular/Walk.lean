import Mathlib.Dynamics.PeriodicPts.Defs

/-!
# Circular linked lists

A list of nodes that are linked by a `next` pointer, from a head through the rest and back to the
head. A walk along the pointers stays in the list and comes to every node of it, so a search for a
node that is there ends.
-/

namespace Circular

open List

variable {α : Type} {next : α → α} {head : α} {rest : List α}

/-- The pointers lead from each node of a list to the one after it. -/
def Links (next : α → α) (nodes : List α) : Prop := nodes.IsChain fun a b => next a = b

/-- The pointers lead from `head` through `rest` and back to `head`. -/
def Cycle (next : α → α) (head : α) (rest : List α) : Prop := Links next (head :: rest ++ [head])

variable {nodes : List α}

/-- Links depend only on the pointers of the nodes before the last. -/
theorem Links.congr {next' : α → α} {last : α}
    (h : Links next (nodes ++ [last])) (hsame : ∀ a ∈ nodes, next' a = next a) :
    Links next' (nodes ++ [last]) := by
  induction nodes with
  | nil => exact .singleton _
  | cons a nodes ih =>
    rw [Links, cons_append, isChain_cons] at h ⊢
    refine ⟨fun b hb => ?_, ih h.2 fun c hc => hsame c (mem_cons_of_mem a hc)⟩
    rw [hsame a mem_cons_self]
    exact h.1 b hb

theorem Links.iterate {first last : α} (h : Links next (first :: nodes ++ [last])) :
    next^[nodes.length + 1] first = last := by
  induction nodes generalizing first with
  | nil =>
    rwa [Links, cons_append, nil_append, isChain_pair] at h
  | cons a nodes ih =>
    rw [Links, cons_append, cons_append, isChain_cons_cons] at h
    rw [length_cons, Function.iterate_succ_apply, h.1]
    exact ih h.2

namespace Cycle

section

variable (h : Cycle next head rest)
include h

theorem iterate_to_head {a : α} (ha : a ∈ head :: rest) :
    ∃ k ≤ rest.length + 1, next^[k] a = head := by
  obtain ⟨before, after, hsplit⟩ := append_of_mem ha
  have hlinks : Links next (a :: after ++ [head]) := by
    have hchain := h
    rw [Cycle, Links, hsplit, append_assoc] at hchain
    exact hchain.right_of_append
  have hlen := congrArg List.length hsplit
  simp only [length_cons, length_append] at hlen
  exact ⟨after.length + 1, by omega, hlinks.iterate⟩

theorem iterate_from_head {b : α} (hb : b ∈ head :: rest) :
    ∃ k ≤ rest.length, next^[k] head = b := by
  rcases mem_cons.mp hb with rfl | hmem
  · exact ⟨0, Nat.zero_le _, rfl⟩
  · obtain ⟨before, after, hsplit⟩ := append_of_mem hmem
    have hlinks : Links next (head :: before ++ [b]) := by
      have hchain := h
      have happend : head :: (before ++ b :: after) ++ [head] =
          (head :: before ++ [b]) ++ (after ++ [head]) := by simp
      rw [Cycle, Links, hsplit, happend] at hchain
      exact hchain.left_of_append
    have hlen := congrArg List.length hsplit
    simp only [length_cons, length_append] at hlen
    exact ⟨before.length + 1, by omega, hlinks.iterate⟩

theorem iterate {a b : α} (ha : a ∈ head :: rest)
    (hb : b ∈ head :: rest) : ∃ k ≤ 2 * rest.length + 1, next^[k] a = b := by
  obtain ⟨i, hi, hhead⟩ := h.iterate_to_head ha
  obtain ⟨j, hj, hnode⟩ := h.iterate_from_head hb
  refine ⟨j + i, by omega, ?_⟩
  rw [Function.iterate_add_apply, hhead, hnode]

theorem next_mem {a : α} (ha : a ∈ head :: rest) : next a ∈ head :: rest := by
  obtain ⟨before, after, hsplit⟩ := append_of_mem ha
  have hchain := h
  rw [Cycle, Links, hsplit, append_assoc] at hchain
  have hnext := hchain.right_of_append
  cases after with
  | nil =>
    rw [cons_append, nil_append, isChain_pair] at hnext
    rw [hnext]
    exact mem_cons_self
  | cons b after =>
    rw [cons_append, cons_append, isChain_cons_cons] at hnext
    rw [hnext.1, hsplit]
    simp

/-- A walk that has come back to where it started has been everywhere. -/
theorem exists_lt_of_iterate_eq {a b : α} (ha : a ∈ head :: rest)
    (hb : b ∈ head :: rest) {k : Nat} (hk : next^[k + 1] a = a) : ∃ j ≤ k, next^[j + 1] a = b := by
  obtain ⟨m, -, hm⟩ := h.iterate ha hb
  have hperiodic : Function.IsPeriodicPt next (k + 1) a := hk
  have hmod := hperiodic.iterate_mod_apply m
  rw [hm] at hmod
  have hlt : m % (k + 1) < k + 1 := Nat.mod_lt m (Nat.succ_pos k)
  cases hcase : m % (k + 1) with
  | zero =>
    rw [hcase] at hmod
    exact ⟨k, le_refl k, hk.trans hmod⟩
  | succ j =>
    rw [hcase] at hmod
    exact ⟨j, by omega, hmod⟩

end

end Cycle

theorem exists_first (next : α → α) (stop : α → Prop) (a : α) {bound : Nat}
    (h : ∃ k ≤ bound, stop (next^[k] a)) :
    ∃ k ≤ bound, stop (next^[k] a) ∧ ∀ j < k, ¬ stop (next^[j] a) := by
  classical
  obtain ⟨k, hk, hstop⟩ := h
  have hex : ∃ k, stop (next^[k] a) := ⟨k, hstop⟩
  refine ⟨Nat.find hex, (Nat.find_min' hex hstop).trans hk, Nat.find_spec hex, ?_⟩
  intro j hj
  exact Nat.find_min hex hj

end Circular
