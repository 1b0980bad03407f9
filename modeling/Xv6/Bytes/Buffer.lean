import Mathlib.Tactic.Ring

/-!
# Fixed-size byte buffers and little-endian words in them

A `Buffer n` is `n` bytes. `readLE` and `writeLE` read and write an unsigned word of any
width at a byte offset, lowest byte first. Read `readLE_writeLE_same` and
`readLE_writeLE_other` first: a word reads back what was written, reduced to its width,
and words that do not overlap do not disturb each other.
-/

namespace Bytes

/-- A buffer of exactly `n` bytes. -/
def Buffer (n : Nat) : Type := Fin n → UInt8

namespace Buffer

variable {n : Nat}

/-- The buffer that holds only zeros. -/
def zeros : Buffer n := fun _ => 0

/-- The byte at an offset, as a number, or 0 outside the buffer. -/
def byte (b : Buffer n) (i : Nat) : Nat :=
  if h : i < n then (b ⟨i, h⟩).toNat else 0

/-- The unsigned little-endian word of `width` bytes at offset `i`. -/
def readLE (b : Buffer n) : (width i : Nat) → Nat
  | 0, _ => 0
  | width + 1, i => b.byte i + 256 * b.readLE width (i + 1)

/-- Overwrite the `width` bytes at offset `off` with those that `source` gives. -/
def splice (b : Buffer n) (off width : Nat) (source : Nat → Nat) : Buffer n := fun i =>
  if off ≤ i.val ∧ i.val < off + width then UInt8.ofNat (source (i.val - off)) else b i

/-- Overwrite `width` bytes at offset `off` with the low bytes of `value`. -/
def writeLE (b : Buffer n) (width off value : Nat) : Buffer n :=
  b.splice off width fun k => value / 256 ^ k

@[simp] theorem byte_zeros (i : Nat) : (zeros : Buffer n).byte i = 0 := by
  unfold byte zeros
  split <;> rfl

variable {off width i : Nat}

theorem byte_splice (b : Buffer n) (source : Nat → Nat) (hi : i < n) :
    (b.splice off width source).byte i =
      if off ≤ i ∧ i < off + width then source (i - off) % 256 else b.byte i := by
  simp only [byte, hi, dite_true, splice]
  split
  · simp
  · rfl

theorem byte_splice_other (b : Buffer n) (source : Nat → Nat)
    (hi : i < off ∨ off + width ≤ i) : (b.splice off width source).byte i = b.byte i := by
  by_cases hn : i < n
  · rw [byte_splice b source hn, if_neg (by omega)]
  · simp [byte, hn]

@[simp] theorem readLE_zeros (width i : Nat) : (zeros : Buffer n).readLE width i = 0 := by
  induction width generalizing i with
  | zero => rfl
  | succ width ih => simp [readLE, ih]

theorem readLE_congr {m : Nat} {a : Buffer n} {b : Buffer m} {width i j : Nat}
    (h : ∀ k, k < width → a.byte (i + k) = b.byte (j + k)) :
    a.readLE width i = b.readLE width j := by
  induction width generalizing i j with
  | zero => rfl
  | succ width ih =>
    have hrest : a.readLE width (i + 1) = b.readLE width (j + 1) :=
      ih fun k hk => by
        have := h (k + 1) (by omega)
        rwa [show i + (k + 1) = i + 1 + k by omega, show j + (k + 1) = j + 1 + k by omega] at this
    have hbyte : a.byte i = b.byte j := by simpa using h 0 (by omega)
    simp only [readLE, hbyte, hrest]

variable {off width i len : Nat}

theorem readLE_splice_other (b : Buffer n) (source : Nat → Nat)
    (h : i + len ≤ off ∨ off + width ≤ i) :
    (b.splice off width source).readLE len i = b.readLE len i :=
  readLE_congr fun k hk => byte_splice_other b source (by omega)

/-- Other fields stay as they are. -/
theorem readLE_writeLE_other (b : Buffer n) (value : Nat) (h : i + len ≤ off ∨ off + width ≤ i) :
    (b.writeLE width off value).readLE len i = b.readLE len i :=
  readLE_splice_other b _ h

/-- A word whose bytes are the digits of `value` is `value`, reduced to the word's width. -/
theorem readLE_of_digits {b : Buffer n} {width i value : Nat}
    (h : ∀ k, k < width → b.byte (i + k) = value / 256 ^ k % 256) :
    b.readLE width i = value % 256 ^ width := by
  induction width generalizing i value with
  | zero => simp [readLE, Nat.mod_one]
  | succ width ih =>
    have hrest : b.readLE width (i + 1) = value / 256 % 256 ^ width :=
      ih fun k hk => by
        have := h (k + 1) (by omega)
        rwa [show i + (k + 1) = i + 1 + k by omega, pow_succ', ← Nat.div_div_eq_div_mul] at this
    have hbyte : b.byte i = value % 256 := by simpa using h 0 (by omega)
    rw [readLE, hrest, hbyte, pow_succ', Nat.mod_mul]

/-- A field is read as it was written. -/
theorem readLE_writeLE_same (b : Buffer n) {width off : Nat} (value : Nat) (h : off + width ≤ n) :
    (b.writeLE width off value).readLE width off = value % 256 ^ width := by
  apply readLE_of_digits
  intro k hk
  rw [writeLE, byte_splice b _ (by omega), if_pos (by omega), Nat.add_sub_cancel_left]

end Buffer

end Bytes
