import Xv6.Bytes.Buffer
import Mathlib.Data.Nat.Bitwise

/-!
# Records and bitmaps in a buffer

`writeFields` stores several words that do not overlap, as assigning the members of a C `struct`
does; `bit` and `setBit` treat a buffer as an array of bits, lowest bit of each byte first.
-/

namespace Bytes

open List

/-- A word to store: its width, its offset and its value. -/
structure Field where
  width : Nat
  off : Nat
  value : Nat

namespace Field

/-- The fields do not overlap. -/
def Apart (f g : Field) : Prop := f.off + f.width ≤ g.off ∨ g.off + g.width ≤ f.off

end Field

namespace Buffer

variable {n : Nat}

/-- Store the words one after the other. -/
def writeFields (b : Buffer n) : List Field → Buffer n
  | [] => b
  | f :: fields => (b.writeLE f.width f.off f.value).writeFields fields

variable {fields : List Field}

theorem readLE_writeFields_other (b : Buffer n) {len i : Nat}
    (h : ∀ f ∈ fields, i + len ≤ f.off ∨ f.off + f.width ≤ i) :
    (b.writeFields fields).readLE len i = b.readLE len i := by
  induction fields generalizing b with
  | nil => rfl
  | cons f fields ih =>
    rw [writeFields, ih _ fun g hg => h g (mem_cons_of_mem _ hg)]
    exact readLE_writeLE_other b f.value (h f mem_cons_self)

theorem readLE_writeFields_of_mem (b : Buffer n)
    (hapart : fields.Pairwise Field.Apart) {f : Field} (hf : f ∈ fields)
    (hfits : f.off + f.width ≤ n) :
    (b.writeFields fields).readLE f.width f.off = f.value % 256 ^ f.width := by
  induction fields generalizing b with
  | nil => cases hf
  | cons g fields ih =>
    obtain ⟨hg, hrest⟩ := pairwise_cons.mp hapart
    rw [writeFields]
    rcases mem_cons.mp hf with rfl | hmem
    · rw [readLE_writeFields_other _ hg]
      exact readLE_writeLE_same b f.value hfits
    · exact ih _ hrest hmem

/-! ### Bits -/

/-- Bit `i` of the buffer. -/
def bit (b : Buffer n) (i : Nat) : Bool := (b.byte (i / 8)).testBit (i % 8)

/-- Set or clear bit `i`. -/
def setBit (b : Buffer n) (i : Nat) (value : Bool) : Buffer n :=
  b.writeLE 1 (i / 8)
    (if value then b.byte (i / 8) ||| 2 ^ (i % 8) else b.byte (i / 8) &&& (255 ^^^ 2 ^ (i % 8)))

theorem byte_setBit_other (b : Buffer n) {i j : Nat} (value : Bool) (h : j ≠ i / 8) :
    (b.setBit i value).byte j = b.byte j :=
  byte_splice_other b _ (by omega)

theorem testBit_byte_setBit (b : Buffer n) {i : Nat} (value : Bool) (hi : i / 8 < n) (k : Nat)
    (hk : k < 8) : ((b.setBit i value).byte (i / 8)).testBit k =
      if k = i % 8 then value else (b.byte (i / 8)).testBit k := by
  have hmod : i % 8 < 8 := Nat.mod_lt i (by omega)
  rw [setBit, writeLE, byte_splice b _ hi, if_pos (by omega)]
  simp only [Nat.sub_self, pow_zero, Nat.div_one]
  rw [show (256 : Nat) = 2 ^ 8 from rfl, Nat.testBit_mod_two_pow]
  simp only [hk, decide_true, Bool.true_and]
  cases value with
  | true =>
    by_cases heq : k = i % 8
    · simp [heq]
    · simp [heq, Ne.symm heq]
  | false =>
    rw [if_neg (by simp), Nat.testBit_and, Nat.testBit_xor, Nat.testBit_two_pow,
      show (255 : Nat) = 2 ^ 8 - 1 from rfl, Nat.testBit_two_pow_sub_one]
    by_cases heq : k = i % 8
    · simp [heq, hmod]
    · simp [heq, Ne.symm heq, hk]

/-- A bit reads back what was stored, and the others are unchanged. -/
theorem bit_setBit (b : Buffer n) {i : Nat} (value : Bool) (hi : i / 8 < n) (j : Nat) :
    (b.setBit i value).bit j = if j = i then value else b.bit j := by
  have hj : j % 8 < 8 := Nat.mod_lt j (by omega)
  unfold bit
  by_cases hbyte : j / 8 = i / 8
  · rw [hbyte, testBit_byte_setBit b value hi _ hj]
    by_cases heq : j = i
    · rw [if_pos heq, if_pos (by rw [heq])]
    · rw [if_neg heq, if_neg (by omega)]
  · rw [byte_setBit_other b value hbyte, if_neg (by intro h; exact hbyte (by rw [h]))]

/-- The first clear bit among the `count` bits from `i` on. -/
def firstClear (b : Buffer n) : (count i : Nat) → Option Nat
  | 0, _ => none
  | count + 1, i => if b.bit i then b.firstClear count (i + 1) else some i

end Buffer

end Bytes
