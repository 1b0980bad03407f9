import Mathlib.Data.BitVec

/-!
# Bounded queues with free-running counters

A queue of at most `N` elements in an array of `N` slots. The counters of elements put in and
taken out are machine words that run freely and wrap; a counter points to the slot given by its
remainder. `Represents` ties such a queue to the whole history of what went in and came out, and
`push` and `pop` keep it for histories of any length, as long as `N` divides the range of a word.
-/

namespace Ring

open Function List BitVec

variable {α : Type} {N w : Nat} [NeZero N]

/-- The slot that a counter points to. -/
def slot (N : Nat) [NeZero N] (counter : BitVec w) : Fin N := Fin.ofNat N counter.toNat

/-- The elements between two counters, oldest first. -/
def segment (data : Fin N → α) (first last : BitVec w) : List α :=
  (List.range (last - first).toNat).map fun k => data (slot N (first + BitVec.ofNat w k))

/-- `data` with the counters `taken` and `put` holds the elements of `input` not yet in `output`. -/
structure Represents (data : Fin N → α) (taken put : BitVec w) (input output : List α) : Prop where
  taken_eq : taken = BitVec.ofNat w output.length
  put_eq : put = BitVec.ofNat w input.length
  isPrefix : output <+: input
  room : input.length ≤ output.length + N
  kept : ∀ (i : Nat) (hi : i < input.length), output.length ≤ i → data (Fin.ofNat N i) = input[i]

/-- Two numbers with the same remainder that are less than `N` apart are equal. -/
theorem eq_of_ofNat_eq {i j : Nat} (hle : i ≤ j) (hlt : j < i + N)
    (h : Fin.ofNat N i = Fin.ofNat N j) : i = j := by
  have hmod : i % N = j % N := by
    have hval := congrArg Fin.val h
    simpa using hval
  have hdvd : N ∣ j - i := (Nat.modEq_iff_dvd' hle).mp hmod
  have hzero : j - i = 0 := Nat.eq_zero_of_dvd_of_lt hdvd (by omega)
  omega

theorem slot_ofNat (hdvd : N ∣ 2 ^ w) (n : Nat) : slot N (BitVec.ofNat w n) = Fin.ofNat N n := by
  apply Fin.ext
  exact Nat.mod_mod_of_dvd n hdvd

/-- Counters less than the range of a word apart are equal as words only if they are equal. -/
theorem ofNat_inj_of_lt {m n : Nat} (hle : m ≤ n) (hlt : n < m + 2 ^ w) :
    BitVec.ofNat w m = BitVec.ofNat w n ↔ m = n := by
  constructor
  · intro h
    have hmod : m % 2 ^ w = n % 2 ^ w := by
      have hval := congrArg BitVec.toNat h
      simpa using hval
    have hdvd : 2 ^ w ∣ n - m := (Nat.modEq_iff_dvd' hle).mp hmod
    have hzero : n - m = 0 := Nat.eq_zero_of_dvd_of_lt hdvd (by omega)
    omega
  · exact congrArg _

/-- The difference of two counters that are less than the range of a word apart. -/
theorem toNat_ofNat_sub {m n : Nat} (hle : m ≤ n) (hlt : n < m + 2 ^ w) :
    (BitVec.ofNat w n - BitVec.ofNat w m).toNat = n - m := by
  obtain ⟨k, rfl⟩ := Nat.exists_eq_add_of_le hle
  have hdiff : BitVec.ofNat w (m + k) - BitVec.ofNat w m = BitVec.ofNat w k := by
    rw [ofNat_add]
    exact add_sub_cancel_left _ _
  rw [hdiff, toNat_ofNat, Nat.add_sub_cancel_left]
  exact Nat.mod_eq_of_lt (by omega)

namespace Represents

variable {data : Fin N → α} {taken put : BitVec w} {input output : List α}

section

variable (h : Represents data taken put input output)
include h

theorem length_le : output.length ≤ input.length := h.isPrefix.length_le

/-- The difference of the counters is the number of elements in the queue. -/
theorem toNat_sub (hlt : N < 2 ^ w) : (put - taken).toNat = input.length - output.length := by
  have hroom := h.room
  rw [h.put_eq, h.taken_eq]
  exact toNat_ofNat_sub h.length_le (by omega)

theorem empty_iff (hlt : N < 2 ^ w) : taken = put ↔ output.length = input.length := by
  have hroom := h.room
  rw [h.taken_eq, h.put_eq]
  exact ofNat_inj_of_lt h.length_le (by omega)

theorem full_iff (hlt : N < 2 ^ w) :
    put = taken + BitVec.ofNat w N ↔ input.length = output.length + N := by
  have hle := h.length_le
  rw [h.taken_eq, h.put_eq, ← ofNat_add]
  exact ofNat_inj_of_lt h.room (by omega)

section

variable (hdvd : N ∣ 2 ^ w)
include hdvd

section

variable (hroom : input.length < output.length + N)
include hroom

/-- The slot for the next element holds none that is still in the queue. -/
theorem slot_put_ne {i : Nat} (hi : i < input.length)
    (hin : output.length ≤ i) : Fin.ofNat N i ≠ slot N put := by
  rw [h.put_eq, slot_ofNat hdvd]
  intro heq
  have := eq_of_ofNat_eq (le_of_lt hi) (by omega) heq
  omega

/-- Storing an element behind the last one of a queue that is not full. -/
theorem store (x : α) : Represents (update data (slot N put) x) taken put input output where
  taken_eq := h.taken_eq
  put_eq := h.put_eq
  isPrefix := h.isPrefix
  room := h.room
  kept := by
    intro i hi hin
    rw [update_of_ne (h.slot_put_ne hdvd hroom hi hin)]
    exact h.kept i hi hin

theorem commit {x : α} (hx : data (slot N put) = x) :
    Represents data taken (put + 1) (input ++ [x]) output where
  taken_eq := h.taken_eq
  put_eq := by
    rw [h.put_eq, length_append, length_singleton, ofNat_add]
    rfl
  isPrefix := h.isPrefix.trans (prefix_append input [x])
  room := by
    rw [length_append, length_singleton]
    omega
  kept := by
    intro i hi hin
    rw [length_append, length_singleton] at hi
    by_cases hold : i < input.length
    · rw [getElem_append_left hold]
      exact h.kept i hold hin
    · obtain rfl : i = input.length := by omega
      rw [getElem_concat_length rfl, ← hx, h.put_eq, slot_ofNat hdvd]

theorem push (x : α) :
    Represents (update data (slot N put) x) taken (put + 1) (input ++ [x]) output :=
  (h.store hdvd hroom x).commit hdvd hroom (update_self ..)

end

theorem data_taken
    (hsome : output.length < input.length) : data (slot N taken) = input[output.length] := by
  rw [h.taken_eq, slot_ofNat hdvd]
  exact h.kept output.length hsome le_rfl

theorem pop (hsome : output.length < input.length) :
    Represents data (taken + 1) put input (output ++ [data (slot N taken)]) where
  taken_eq := by
    rw [h.taken_eq, length_append, length_singleton, ofNat_add]
    rfl
  put_eq := h.put_eq
  isPrefix := by
    have hnext := h.data_taken hdvd hsome
    have htake : output = input.take output.length := prefix_iff_eq_take.mp h.isPrefix
    have hsucc : output ++ [data (slot N taken)] = input.take (output.length + 1) := by
      rw [take_succ_eq_append_getElem hsome, ← htake, hnext]
    rw [hsucc]
    exact List.take_prefix _ _
  room := by
    have := h.room
    rw [length_append, length_singleton]
    omega
  kept := by
    intro i hi hin
    rw [length_append, length_singleton] at hin
    exact h.kept i hi (by omega)

end

end

theorem unpush {x : α} (h : Represents data taken put (input ++ [x]) output)
    (hout : output <+: input) : Represents data taken (put - 1) input output where
  taken_eq := h.taken_eq
  put_eq := by
    rw [h.put_eq, length_append, length_singleton, ofNat_add]
    exact add_sub_cancel_right _ _
  isPrefix := hout
  room := by
    have := h.room
    rw [length_append, length_singleton] at this
    omega
  kept := by
    intro i hi hin
    have hlen : i < (input ++ [x]).length := by
      rw [length_append]
      omega
    rw [h.kept i hlen hin, getElem_append_left hi]

theorem data_last {x : α} (h : Represents data taken put (input ++ [x]) output)
    (hdvd : N ∣ 2 ^ w) (hout : output.length ≤ input.length) : data (slot N (put - 1)) = x := by
  have hput : put - 1 = BitVec.ofNat w input.length := by
    rw [h.put_eq, length_append, length_singleton, ofNat_add]
    exact add_sub_cancel_right _ _
  have hlen : input.length < (input ++ [x]).length := by simp
  rw [hput, slot_ofNat hdvd, h.kept input.length hlen hout, getElem_concat_length rfl]

theorem segment_eq (h : Represents data taken put input output) (hdvd : N ∣ 2 ^ w)
    (hlt : N < 2 ^ w) {first last : Nat} (hfirst : output.length ≤ first) (hle : first ≤ last)
    (hlast : last ≤ input.length) :
    segment data (BitVec.ofNat w first) (BitVec.ofNat w last) =
      (input.drop first).take (last - first) := by
  have hroom := h.room
  have hcount := toNat_ofNat_sub (w := w) hle (by omega)
  apply ext_getElem
  · rw [segment, hcount]
    simp only [length_map, length_range, length_take, length_drop]
    omega
  · intro k hk hk'
    simp only [segment, getElem_map, getElem_range, getElem_take, getElem_drop]
    rw [segment, hcount, length_map, length_range] at hk
    rw [← ofNat_add, slot_ofNat hdvd]
    exact h.kept (first + k) (by omega) (by omega)

theorem nil (data : Fin N → α) : Represents data (0 : BitVec w) 0 [] [] where
  taken_eq := rfl
  put_eq := rfl
  isPrefix := nil_prefix
  room := Nat.zero_le _
  kept := nofun

end Represents

end Ring
