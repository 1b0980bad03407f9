import Mathlib.Data.List.GetD
import Xv6.Nsh.Code

/-!
# The tables of strings

A table holds a list of strings, each from the start of a row on. The next string goes to the first
row behind them. A string that fills its rows up to the last byte has no terminating NUL byte of its
own, and a string without characters has no row of its own, so that reading either of them goes on
with the next string.
-/

namespace Xv6.Nsh

open Shell List Option

/-- The rows that a string takes. -/
def rows (x : List Char) : Nat := (x.length + (MAXPATH - 1)) / MAXPATH

/-- A string and the rest of its last row. -/
def pad (x : List Char) : List Char := x ++ List.replicate (rows x * MAXPATH - x.length) NUL

/-- The bytes of a table. -/
def bytes (xs : List (List Char)) : List Char := xs.flatMap pad

/-- The first row behind the strings. -/
def start (xs : List (List Char)) : Nat := (xs.map rows).sum

/-- What is read where the strings start. -/
def readAt : List (List Char) → List Char
  | [] => []
  | x :: xs => if x.length % MAXPATH = 0 then x ++ readAt xs else x

/-- What is read from the row of each string. -/
def reads : List (List Char) → List (List Char)
  | [] => []
  | x :: xs => readAt (x :: xs) :: reads xs

/-- The rows of the strings `ys` that are stored behind `xs`. -/
def slots (xs : List (List Char)) : List (List Char) → List Nat
  | [] => []
  | y :: ys => start xs :: slots (xs ++ [y]) ys

/-- There is room for another string. -/
def Fits (xs : List (List Char)) (x : List Char) : Prop :=
  start xs * MAXPATH + x.length < MAXARGS * MAXPATH

/-- The table holds these strings. -/
structure Holds (t : Table) (xs : List (List Char)) : Prop where
  contents : ∀ i, t i = (bytes xs).getD i NUL
  no_nul : ∀ x ∈ xs, NUL ∉ x
  le : start xs ≤ MAXARGS

/-! ### Rows -/

/-- A string takes the least number of rows that hold it. -/
theorem rows_spec (x : List Char) :
    x.length ≤ rows x * MAXPATH ∧ rows x * MAXPATH < x.length + MAXPATH := by
  simp only [rows, MAXPATH]
  omega

variable {x : List Char}

theorem rows_of_dvd (h : x.length % MAXPATH = 0) : rows x * MAXPATH = x.length := by
  simp only [rows, MAXPATH] at h ⊢
  omega

theorem rows_of_not_dvd (h : x.length % MAXPATH ≠ 0) : x.length < rows x * MAXPATH := by
  simp only [rows, MAXPATH] at h ⊢
  omega

@[simp] theorem length_pad (x : List Char) : (pad x).length = rows x * MAXPATH := by
  have hle := (rows_spec x).1
  rw [pad, length_append, length_replicate]
  omega

theorem start_cons (x : List Char) (xs : List (List Char)) : start (x :: xs) = rows x + start xs :=
  rfl

theorem start_append (xs ys : List (List Char)) : start (xs ++ ys) = start xs + start ys := by
  rw [start, map_append, sum_append]
  rfl

/-- A table is filled row by row. -/
theorem length_bytes (xs : List (List Char)) : (bytes xs).length = start xs * MAXPATH := by
  induction xs with
  | nil => rfl
  | cons x xs ih =>
    rw [bytes, flatMap_cons, length_append, length_pad, start_cons, Nat.add_mul, ← ih]
    rfl

variable {xs : List (List Char)}

/-- No row in use starts with NUL. -/
theorem bytes_row (hxs : ∀ x ∈ xs, NUL ∉ x) {pos : Nat}
    (hpos : pos < start xs) : (bytes xs).getD (pos * MAXPATH) NUL ≠ NUL := by
  induction xs generalizing pos with
  | nil => cases hpos
  | cons x xs ih =>
    have hbytes : bytes (x :: xs) = pad x ++ bytes xs := rfl
    rw [hbytes]
    by_cases hrow : pos < rows x
    · have hlt : pos * MAXPATH < x.length := by
        have hspec := (rows_spec x).2
        have hle : (pos + 1) * MAXPATH ≤ rows x * MAXPATH := Nat.mul_le_mul_right _ hrow
        rw [Nat.add_mul] at hle
        omega
      rw [pad, append_assoc, getD_append _ _ _ _ hlt, getD_eq_getElem _ _ hlt]
      intro heq
      exact hxs x mem_cons_self (heq ▸ getElem_mem hlt)
    · have hle : (pad x).length ≤ pos * MAXPATH := by
        rw [length_pad]
        exact Nat.mul_le_mul_right _ (Nat.not_lt.mp hrow)
      rw [getD_append_right _ _ _ _ hle, length_pad, ← Nat.sub_mul]
      refine ih (fun y hy => hxs y (mem_cons_of_mem x hy)) ?_
      rw [start_cons] at hpos
      omega

/-! ### Adding a string -/

variable {t : Table}

/-- `allocate` finds the first row behind the strings. -/
theorem Holds.allocate (h : Holds t xs) :
    t.allocate = if start xs < MAXARGS then some (start xs) else none := by
  have hrow : ∀ pos < start xs, t (pos * MAXPATH) ≠ NUL := fun pos hpos => by
    rw [h.contents]
    exact bytes_row h.no_nul hpos
  have hnext : t (start xs * MAXPATH) = NUL := by
    rw [h.contents, getD_eq_default _ _ (Nat.le_of_eq (length_bytes xs))]
  rw [Table.allocate]
  by_cases hlt : start xs < MAXARGS
  · rw [if_pos hlt, find?_range_eq_some]
    refine ⟨decide_eq_true hnext, mem_range.mpr hlt, fun pos hpos => ?_⟩
    simpa using hrow pos hpos
  · rw [if_neg hlt, find?_eq_none]
    intro pos hpos
    have hpos' := hrow pos (Nat.lt_of_lt_of_le (mem_range.mp hpos) (Nat.not_lt.mp hlt))
    simpa using hpos'

theorem fits_le (h : Fits xs x) : start (xs ++ [x]) ≤ MAXARGS := by
  have hspec := (rows_spec x).2
  rw [start_append, start_cons]
  simp only [Fits, MAXARGS, MAXPATH, start, map_nil, sum_nil] at h hspec ⊢
  omega

theorem getD_replicate_nul (n i : Nat) : (List.replicate n NUL).getD i NUL = NUL := by
  by_cases hlt : i < n
  · exact getD_replicate NUL hlt
  · exact getD_eq_default _ _ (by rw [length_replicate]; omega)

/-- Writing a string behind the others, with NUL behind it, appends it. -/
theorem getD_bytes_append (i : Nat) :
    (if i < start xs * MAXPATH ∨ start xs * MAXPATH + x.length < i then (bytes xs).getD i NUL
      else x.getD (i - start xs * MAXPATH) NUL) = (bytes (xs ++ [x])).getD i NUL := by
  have hlength := length_bytes xs
  have hbytes : bytes (xs ++ [x]) = bytes xs ++ pad x := by simp [bytes]
  rw [hbytes]
  by_cases hbefore : i < start xs * MAXPATH
  · rw [if_pos (.inl hbefore), getD_append _ _ _ _ (by omega)]
  · rw [getD_append_right _ _ _ _ (by omega), hlength]
    by_cases hafter : start xs * MAXPATH + x.length < i
    · rw [if_pos (.inr hafter), getD_eq_default _ _ (by omega), pad,
        getD_append_right _ _ _ _ (by omega), getD_replicate_nul]
    · rw [if_neg (by omega), pad]
      by_cases hlt : i - start xs * MAXPATH < x.length
      · rw [getD_append _ _ _ _ hlt]
      · rw [getD_append_right _ _ _ _ (by omega), getD_replicate_nul,
          getD_eq_default _ _ (by omega)]

/-- A string is added if and only if it fits. -/
theorem Holds.add (h : Holds t xs) (hx : NUL ∉ x) :
    (Fits xs x ∧ ∃ t', t.add x = some (start xs, t') ∧ Holds t' (xs ++ [x])) ∨
      (¬ Fits xs x ∧ t.add x = none) := by
  by_cases hfits : Fits xs x
  · have hlt : start xs < MAXARGS := by
      simp only [Fits, MAXARGS, MAXPATH] at hfits ⊢
      omega
    have hroom : start xs * MAXPATH + x.length < MAXARGS * MAXPATH := hfits
    refine .inl ⟨hfits, fun i =>
      if i < start xs * MAXPATH ∨ start xs * MAXPATH + x.length < i then t i
      else x.getD (i - start xs * MAXPATH) NUL, ?_, ?_, ?_, fits_le hfits⟩
    · rw [Table.add, h.allocate, if_pos hlt]
      simp only [bind_eq_bind, bind_some, Table.parsetoken, if_pos hroom]
      rfl
    · intro i
      simp only [h.contents]
      exact getD_bytes_append i
    · exact forall_mem_append.mpr ⟨h.no_nul, forall_mem_singleton.mpr hx⟩
  · refine .inr ⟨hfits, ?_⟩
    rw [Table.add, h.allocate]
    have hfull : ¬ start xs * MAXPATH + x.length < MAXARGS * MAXPATH := hfits
    by_cases hlt : start xs < MAXARGS
    · rw [if_pos hlt]
      simp only [bind_eq_bind, bind_some, Table.parsetoken, if_neg hfull]
      rfl
    · rw [if_neg hlt]
      rfl

/-! ### Reading a string -/

theorem takeWhile_append_nul (l : List Char) (k : Nat) :
    (l ++ List.replicate k NUL).takeWhile (· ≠ NUL) = l.takeWhile (· ≠ NUL) := by
  induction l with
  | nil =>
    cases k with
    | zero => rfl
    | succ k => rfl
  | cons c l ih => rw [cons_append, takeWhile_cons, takeWhile_cons, ih]

theorem map_range_getD {l : List Char} {n : Nat} (h : l.length ≤ n) :
    ((List.range n).map fun i => l.getD i NUL) = l ++ List.replicate (n - l.length) NUL := by
  refine ext_getElem (by simp; omega) fun i hi hi' => ?_
  rw [getElem_map, getElem_range]
  by_cases hlt : i < l.length
  · rw [getElem_append_left hlt, getD_eq_getElem _ _ hlt]
  · rw [getElem_append_right (Nat.not_lt.mp hlt), getElem_replicate,
      getD_eq_default _ _ (Nat.not_lt.mp hlt)]

/-- A string that fills its last row is read on into the next one. -/
theorem takeWhile_bytes {ys : List (List Char)} (hys : ∀ y ∈ ys, NUL ∉ y) :
    (bytes ys).takeWhile (· ≠ NUL) = readAt ys := by
  induction ys with
  | nil => rfl
  | cons y ys ih =>
    have hrest := ih fun x hx => hys x (mem_cons_of_mem y hx)
    have hy : ∀ c ∈ y, decide (c ≠ NUL) = true := fun c hc =>
      decide_eq_true fun heq => hys y mem_cons_self (heq ▸ hc)
    have hbytes : bytes (y :: ys) =
        y ++ (List.replicate (rows y * MAXPATH - y.length) NUL ++ bytes ys) := by
      simp [bytes, pad]
    rw [hbytes, takeWhile_append_of_pos hy, readAt]
    by_cases hdvd : y.length % MAXPATH = 0
    · rw [if_pos hdvd, rows_of_dvd hdvd, Nat.sub_self, replicate_zero, nil_append, hrest]
    · have hlt := rows_of_not_dvd hdvd
      obtain ⟨k, hk⟩ : ∃ k, rows y * MAXPATH - y.length = k + 1 :=
        Nat.exists_eq_succ_of_ne_zero (by omega)
      rw [if_neg hdvd, hk, replicate_succ, cons_append, takeWhile_cons_of_neg (by simp), append_nil]

/-- Reading finds the string, and what it runs into. -/
theorem Holds.read {xs ys : List (List Char)} (h : Holds t (xs ++ ys)) :
    t.read (start xs) = readAt ys := by
  have hbytes : bytes (xs ++ ys) = bytes xs ++ bytes ys := flatMap_append
  have hvalue : ∀ i, t (start xs * MAXPATH + i) = (bytes ys).getD i NUL := by
    intro i
    rw [h.contents, hbytes, getD_append_right _ _ _ _ (by rw [length_bytes]; omega), length_bytes,
      Nat.add_sub_cancel_left]
  have hle : (bytes ys).length ≤ MAXARGS * MAXPATH - start xs * MAXPATH := by
    have hstart := h.le
    rw [start_append] at hstart
    rw [length_bytes, ← Nat.sub_mul]
    exact Nat.mul_le_mul_right _ (by omega)
  simp only [Table.read, hvalue]
  rw [map_range_getD hle, takeWhile_append_nul,
    takeWhile_bytes fun y hy => h.no_nul y (mem_append_right _ hy)]

/-- Reading the rows of some strings, with others before and behind them. -/
theorem Holds.read_slots {xs ys zs : List (List Char)} (h : Holds t (xs ++ ys ++ zs)) :
    (slots xs ys).map t.read = (reads (ys ++ zs)).take ys.length := by
  induction ys generalizing xs with
  | nil => rfl
  | cons y ys ih =>
    have hsplit : xs ++ y :: ys ++ zs = xs ++ [y] ++ ys ++ zs := by simp
    have hread : t.read (start xs) = readAt (y :: ys ++ zs) := by
      rw [append_assoc] at h
      exact h.read
    rw [slots, map_cons, hread, ih (hsplit ▸ h)]
    rfl

theorem length_reads (xs : List (List Char)) : (reads xs).length = xs.length := by
  induction xs with
  | nil => rfl
  | cons x xs ih => rw [reads, length_cons, length_cons, ih]

theorem reads_drop (xs ys : List (List Char)) : (reads (xs ++ ys)).drop xs.length = reads ys := by
  induction xs with
  | nil => rfl
  | cons x xs ih => exact ih

end Xv6.Nsh
