import Xv6.Circular.Double

/-!
# The circular lists of `kernel/list.c`

The operations on `struct list`, for any type of addresses. Many lists share one memory, and
`lst_remove` is not told which of them it works on. In a family of disjoint lists each operation
changes the sequence of one list and no other.
-/

namespace Xv6.Lists

open Circular Function List

variable {Addr ι : Type} [DecidableEq Addr] [DecidableEq ι]

/-- `lst_empty`. -/
def lstEmpty (lst : Addr) (m : Pointers Addr) : Bool := m.isEmpty lst

/-- `lst_remove`. -/
def lstRemove (e : Addr) (m : Pointers Addr) : Pointers Addr := m.remove e

/-- `lst_pop`; `none` stands for its panic. -/
def lstPop (lst : Addr) (m : Pointers Addr) : Option (Addr × Pointers Addr) :=
  if m.isEmpty lst then none else some (m.next lst, lstRemove (m.next lst) m)

/-- `lst_push`. -/
def lstPush (lst p : Addr) (m : Pointers Addr) : Pointers Addr := m.push lst p

variable {m : Pointers Addr} {head : ι → Addr} {elems : ι → List Addr}

section

variable (h : Family m head elems)
include h

theorem remove_spec {i : ι} {e : Addr} (he : e ∈ elems i) :
    Family (lstRemove e m) head (update elems i ((elems i).erase e)) := by
  obtain ⟨before, after, hsplit⟩ := append_of_mem he
  have hnodup := (nodup_cons.mp (h.ring i).nodup).2
  rw [hsplit, nodup_append] at hnodup
  have hbefore : e ∉ before := fun hmem => hnodup.2.2 e hmem e mem_cons_self rfl
  rw [hsplit, erase_append_right _ hbefore, erase_cons_head]
  exact h.remove hsplit

theorem pop_spec {i : ι} {x : Addr} {xs : List Addr}
    (hi : elems i = x :: xs) : lstPop (head i) m = some (x, lstRemove x m) ∧
      Family (lstRemove x m) head (update elems i xs) := by
  have hring := h.ring i
  rw [hi] at hring
  have hfirst : m.next (head i) = x := by simpa using hring.next_head.symm
  have hfull : ¬m.isEmpty (head i) = true := by
    rw [hring.isEmpty_iff]
    exact cons_ne_nil x xs
  exact ⟨by rw [lstPop, if_neg hfull, hfirst], h.remove (show elems i = [] ++ x :: xs from hi)⟩

/-- In a memory with any number of disjoint lists, `lst_push` puts a node that is in none of them at
the front of one, `lst_remove` takes an element out of the list that it is in, `lst_pop` takes the
first element out and returns it, and panics only if there is none, and `lst_empty` tells empty
lists from others; all else stays as it was. -/
theorem lists_represent_sequences : (∀ i e, (∀ j, e ∉ head j :: elems j) →
        Family (lstPush (head i) e m) head (update elems i (e :: elems i))) ∧
      (∀ i, ∀ e ∈ elems i, Family (lstRemove e m) head (update elems i ((elems i).erase e))) ∧
      (∀ i x xs, elems i = x :: xs → lstPop (head i) m = some (x, lstRemove x m) ∧
        Family (lstRemove x m) head (update elems i xs)) ∧
      ∀ i, (lstEmpty (head i) m = true ↔ elems i = []) ∧
        (lstPop (head i) m = none ↔ elems i = []) := by
  refine ⟨fun i _ he => h.push i he, fun _ _ he => remove_spec h he, fun _ _ _ hi => pop_spec h hi,
    fun i => ?_⟩
  have hempty := (h.ring i).isEmpty_iff
  refine ⟨hempty, ?_⟩
  rw [← hempty, lstPop]
  cases hlist : m.isEmpty (head i) with
  | true => simp
  | false => simp

end

/-- Two lists, with their heads at `10` and `20`, the first of which has one element. -/
theorem lists_represent_sequences_two : ∃ m : Pointers Nat,
    Family m (fun i => cond i 10 20) (fun i => cond i [1] []) ∧
      lstPop 10 m = some (1, lstRemove 1 m) ∧ Family (lstRemove 1 m) (fun i => cond i 10 20)
        (update (fun i => cond i [1] []) true []) := by
  have hfamily : Family (Pointers.mk (fun a => if a = 10 then 1 else if a = 1 then 10 else a)
      fun a => if a = 10 then 1 else if a = 1 then 10 else a)
      (fun i : Bool => cond i 10 20) fun i => cond i [1] [] := by
    constructor
    · exact Bool.forall_bool.mpr ⟨⟨by decide, by simp [Linked]⟩, ⟨by decide, by simp [Linked]⟩⟩
    · decide
  exact ⟨_, hfamily, (lists_represent_sequences hfamily).2.2.1 true 1 [] rfl⟩

end Xv6.Lists
