import Mathlib.Algebra.BigOperators.Ring.Finset
import Mathlib.Algebra.Order.BigOperators.Group.Finset

/-!
# Totals over all processes

A quantity that every process contributes to, such as a reference count, is a sum over the
processes. A step of one process changes its own contribution only.

`Balanced` is the ledger of a kind of tokens, such as references to the entries of a table: what the
shared state owes is what the processes have in hand. A hand may be negative, when a process has
stored a token that it has not taken out yet. `tally` counts the tokens that slots of the shared
state hold.
-/

namespace Interleave

open Finset Function

/-- A part of an entry that a change leaves as it is stays what it is everywhere. -/
theorem proj_update {α β γ : Type*} [DecidableEq α] {φ : β → γ} {g : α → β} {a : α} {x : β}
    (h : φ x = φ (g a)) (b : α) : φ (Function.update g a x b) = φ (g b) := by
  rcases eq_or_ne b a with rfl | hb
  · rw [update_self, h]
  · rw [update_of_ne hb]

variable {Pid Ghost : Type}

/-- How a total changes when only one process changes its contribution. -/
theorem sum_change_of_mem [DecidableEq Pid] {s : Finset Pid} {pid : Pid} (f f' : Pid → Nat)
    (hpid : pid ∈ s) (h : ∀ q, q ≠ pid → f' q = f q) :
    ∑ q ∈ s, f' q + f pid = ∑ q ∈ s, f q + f' pid := by
  have hrest : ∑ q ∈ s.erase pid, f' q = ∑ q ∈ s.erase pid, f q := by
    refine sum_congr rfl ?_
    intro q hq
    exact h q (ne_of_mem_erase hq)
  have hnew := add_sum_erase s f' hpid
  have hold := add_sum_erase s f hpid
  omega

variable [Fintype Pid]

theorem sum_change [DecidableEq Pid] (f f' : Pid → Nat) (pid : Pid)
    (h : ∀ q, q ≠ pid → f' q = f q) : ∑ q, f' q + f pid = ∑ q, f q + f' pid :=
  sum_change_of_mem f f' (mem_univ pid) h

theorem sum_update [DecidableEq Pid] (f : Ghost → Nat) (ghost : Pid → Ghost) (pid : Pid)
    (own : Ghost) :
    ∑ q, f (Function.update ghost pid own q) + f (ghost pid) = ∑ q, f (ghost q) + f own := by
  have := sum_change (fun q => f (ghost q)) (fun q => f (Function.update ghost pid own q)) pid
    (fun q hq => by rw [update_of_ne hq])
  simpa using this

theorem le_sum (f : Pid → Nat) (pid : Pid) : f pid ≤ ∑ q, f q :=
  single_le_sum (fun _ _ => Nat.zero_le _) (mem_univ pid)

/-! ### Ledgers -/

section Ledger

variable {Token ι : Type} [DecidableEq Token]

/-- One token, or none. -/
def held (slot : Option Token) (t : Token) : Int := if slot = some t then 1 else 0

@[simp] theorem held_none : held (none : Option Token) = 0 := by rfl

theorem held_nonneg (slot : Option Token) (t : Token) : 0 ≤ held slot t := by
  unfold held
  split <;> decide

@[simp] theorem held_self (t : Token) : held (some t) t = 1 := if_pos rfl

theorem held_of_ne {t u : Token} (h : t ≠ u) : held (some t) u = 0 :=
  if_neg fun heq => h (Option.some.inj heq)

/-- How many slots hold a token. -/
def tally [Fintype ι] (slot : ι → Option Token) (t : Token) : Nat :=
  (Finset.univ.filter fun i => slot i = some t).card

theorem tally_eq_sum [Fintype ι] (slot : ι → Option Token) (t : Token) :
    (tally slot t : Int) = ∑ i, held (slot i) t := by
  simp [tally, held, sum_boole]

theorem tally_update [Fintype ι] [DecidableEq ι] (slot : ι → Option Token) (i : ι)
    (value : Option Token) (t : Token) :
    (tally (Function.update slot i value) t : Int) =
      tally slot t + held value t - held (slot i) t := by
  rw [tally_eq_sum, tally_eq_sum, ← add_sum_erase _ _ (mem_univ i),
    ← add_sum_erase Finset.univ (fun j => held (slot j) t) (mem_univ i),
    update_self]
  have hrest : ∑ j ∈ Finset.univ.erase i, held (Function.update slot i value j) t =
      ∑ j ∈ Finset.univ.erase i, held (slot j) t := by
    refine sum_congr rfl ?_
    intro j hj
    rw [update_of_ne (ne_of_mem_erase hj)]
  omega

theorem tally_pos [Fintype ι] {slot : ι → Option Token} {i : ι} {t : Token} (h : slot i = some t) :
    0 < tally slot t :=
  card_pos.mpr ⟨i, mem_filter.mpr ⟨mem_univ i, h⟩⟩

/-- What the shared state owes is what the processes have in hand. -/
def Balanced (hand : Ghost → Token → Int) (ghost : Pid → Ghost) (owed : Token → Int) : Prop :=
  ∀ t, owed t = ∑ q, hand (ghost q) t

variable {hand : Ghost → Token → Int} {ghost : Pid → Ghost}

omit [DecidableEq Token] in
/-- One process takes as much into its hand as the shared state owes more. -/
theorem Balanced.update [DecidableEq Pid]
    {owed owed' : Token → Int} (h : Balanced hand ghost owed) {pid : Pid} {own : Ghost}
    (howed : ∀ t, owed' t - owed t = hand own t - hand (ghost pid) t) :
    Balanced hand (Function.update ghost pid own) owed' := by
  intro t
  have hold := h t
  have hchange := howed t
  rw [← add_sum_erase _ _ (mem_univ pid)] at hold ⊢
  have hrest : ∑ q ∈ Finset.univ.erase pid, hand (Function.update ghost pid own q) t =
      ∑ q ∈ Finset.univ.erase pid, hand (ghost q) t := by
    refine sum_congr rfl ?_
    intro q hq
    rw [update_of_ne (ne_of_mem_erase hq)]
  rw [hrest, update_self]
  omega

omit [DecidableEq Token] in
theorem Balanced.eq_zero {owed : Token → Int}
    (h : Balanced hand ghost owed) {t : Token} (hempty : ∀ q, hand (ghost q) t = 0) :
    owed t = 0 := by
  rw [h t]
  exact sum_eq_zero fun q _ => hempty q

end Ledger

end Interleave
