import Mathlib.Algebra.Ring.Nat

/-!
# Numbers printed by `user/printf.c`

`vprintf` with all its conversions, and the numerals of `%d`, `%x`, `%l` and `%p` read back.
-/

namespace Xv6.Printf

/-- `digits`. -/
def digits : List Char := "0123456789ABCDEF".toList

def digit (k : Nat) : Char := digits.getD k '0'

/-- The `do` loop of `printint`, with `room` bytes of `buf` left and the bytes written so far,
the last one first. `none` is a write behind `buf`. -/
def digitLoop (base : Nat) : (room : Nat) → (x : Nat) → (buf : List Char) → Option (List Char)
  | 0, _, _ => none
  | room + 1, x, buf =>
    if x / base ≠ 0 then digitLoop base room (x / base) (digit (x % base) :: buf)
    else some (digit (x % base) :: buf)

/-- `printint`: the characters it emits. -/
def printint (xx : BitVec 32) (base : Nat) (sgn : Bool) : Option (List Char) := do
  if sgn ∧ xx.toInt < 0 then
    let buf ← digitLoop base 16 (-xx).toNat []
    if buf.length < 16 then some ('-' :: buf) else none
  else
    digitLoop base 16 xx.toNat []

/-- The loop of `printptr`. -/
def ptrLoop : Nat → BitVec 64 → List Char
  | 0, _ => []
  | n + 1, x => digit (x >>> 60).toNat :: ptrLoop n (x <<< 4)

/-- `printptr`. -/
def printptr (x : BitVec 64) : List Char := '0' :: 'x' :: ptrLoop 16 x

/-- The conversion `c` of `vprintf`, for the next argument: what it emits, and whether it takes
the argument. `str` is the string at an address. -/
def conversion (str : BitVec 64 → List Char) (arg : BitVec 64) : Char → Option (List Char × Bool)
  | 'd' => (·, true) <$> printint (arg.setWidth 32) 10 true
  | 'l' => (·, true) <$> printint (arg.setWidth 32) 10 false
  | 'x' => (·, true) <$> printint (arg.setWidth 32) 16 false
  | 'p' => some (printptr arg, true)
  | 's' => some (if arg = 0 then "(null)".toList else str arg, true)
  | 'c' => some ([Char.ofNat (arg.setWidth 8).toNat], true)
  | '%' => some (['%'], false)
  | c => some (['%', c], false)

/-- The loop of `vprintf`, with `state` set behind a `%`. -/
def vprintf (str : BitVec 64 → List Char) :
    (state : Bool) → (fmt : List Char) → (ap : Nat → BitVec 64) → Option (List Char)
  | _, [], _ => some []
  | false, c :: fmt, ap =>
    if c = '%' then vprintf str true fmt ap else (c :: ·) <$> vprintf str false fmt ap
  | true, c :: fmt, ap => do
    let (out, taken) ← conversion str (ap 0) c
    (out ++ ·) <$> vprintf str false fmt (if taken then fun i => ap (i + 1) else ap)

/-! ### Numerals -/

def readDigit (base v : Nat) (c : Char) : Nat := base * v + digits.idxOf c

/-- `text` is read as `x`, digit by digit. -/
structure Digits (base x : Nat) (text : List Char) : Prop where
  lt : ∀ c ∈ text, digits.idxOf c < base
  read : text.foldl (readDigit base) 0 = x

/-- The conversions of numbers. -/
inductive Conv
  | d
  | x
  | l
  | p
  deriving DecidableEq

namespace Conv

def letter : Conv → Char
  | d => 'd'
  | x => 'x'
  | l => 'l'
  | p => 'p'

def base : Conv → Nat
  | d | l => 10
  | x | p => 16

/-- What the argument means: an `int`, an unsigned `int`, a `uint64`. -/
def argument : Conv → BitVec 64 → Int
  | d, v => (v.setWidth 32).toInt
  | x, v => (v.setWidth 32).toNat
  | l, v | p, v => v.toNat

/-- The numeral of `z` behind its sign: no zero leads it, but a pointer has all its digits and
`0x` in front. -/
def Numeral (conv : Conv) (z : Int) (text : List Char) : Prop :=
  ∃ ds, Digits conv.base z.natAbs ds ∧
    if conv = p then text = '0' :: 'x' :: ds ∧ ds.length = 16
    else text = (if z < 0 then '-' :: ds else ds) ∧ (ds.headD '0' = '0' → ds = ['0'])

end Conv

theorem idxOf_digit {k : Nat} (hk : k < 16) : digits.idxOf (digit k) = k := by
  have hidx : ∀ k < 16, digits.idxOf (digit k) = k := by decide
  exact hidx k hk

theorem readDigit_digit {k : Nat} (hk : k < 16) (base v : Nat) :
    readDigit base v (digit k) = base * v + k := by
  rw [readDigit, idxOf_digit hk]

/-- The digits of a number of at most `n` digits, in a buffer with room for them. -/
theorem digitLoop_digits {base : Nat} (hbase : 2 ≤ base) (hbase' : base ≤ 16) (extra : Nat)
    {n x : Nat} (hn : 0 < n) (hx : x < base ^ n) (buf : List Char) :
    ∃ ds, digitLoop base (extra + n) x buf = some (ds ++ buf) ∧ ds.length ≤ n ∧
      Digits base x ds ∧ (ds.headD '0' = '0' → ds = ['0']) := by
  induction n generalizing x buf with
  | zero => omega
  | succ n ih =>
    have hlast : x % base < base := Nat.mod_lt x (by omega)
    have hmod := Nat.lt_of_lt_of_le hlast hbase'
    rw [← idxOf_digit hmod] at hlast
    rw [← Nat.add_assoc, digitLoop]
    split
    · rename_i hdiv
      have hlt : x / base < base ^ n := (Nat.div_lt_iff_lt_mul (by omega)).mpr hx
      have hn' : n ≠ 0 := by
        rintro rfl
        exact hdiv (Nat.lt_one_iff.mp hlt)
      obtain ⟨ds, hloop, hlen, hds, hzero⟩ :=
        ih (Nat.pos_of_ne_zero hn') hlt (digit (x % base) :: buf)
      refine ⟨ds ++ [digit (x % base)], by simpa using hloop, by simp; omega,
        ⟨by simpa [or_imp, forall_and] using ⟨hds.lt, hlast⟩, ?_⟩, ?_⟩
      · rw [List.foldl_append, hds.read]
        show readDigit base _ _ = x
        rw [readDigit_digit hmod, Nat.div_add_mod]
      · intro hhead
        -- A leading zero would be all of the quotient, which is not zero.
        cases ds with
        | nil => exact absurd hds.read.symm hdiv
        | cons c ds =>
          rw [hzero hhead] at hds
          exact absurd (hds.read.symm.trans (readDigit_digit (k := 0) (by omega) base 0)) hdiv
    · rename_i hdiv
      have hlt : x < base := (Nat.div_eq_zero_iff_lt (by omega)).mp (not_not.mp hdiv)
      refine ⟨[digit (x % base)], rfl, by simp, ⟨by simpa using hlast, ?_⟩, by simp⟩
      show readDigit base 0 _ = x
      rw [readDigit_digit hmod, Nat.mod_eq_of_lt hlt, Nat.mul_zero, Nat.zero_add]

/-- The buffer has room for the digits of any 32-bit number, and for a sign. -/
theorem printint_digits (base : Nat) (hbase : 10 ≤ base) (hbase' : base ≤ 16) (xx : BitVec 32)
    (sgn : Bool) :
    let z : Int := if sgn then xx.toInt else xx.toNat
    ∃ ds, printint xx base sgn = some (if z < 0 then '-' :: ds else ds) ∧
      Digits base z.natAbs ds ∧ (ds.headD '0' = '0' → ds = ['0']) := by
  intro z
  have hloop : ∀ x : BitVec 32, _ := fun x =>
    digitLoop_digits (by omega) hbase' 6 (n := 10) (x := x.toNat) (by omega)
      (Nat.lt_of_lt_of_le (by omega) (Nat.pow_le_pow_left hbase 10)) []
  simp only [List.append_nil] at hloop
  have hint := BitVec.toInt_eq_toNat_cond xx
  unfold printint
  by_cases hneg : sgn ∧ xx.toInt < 0
  · have hz : z = xx.toInt := if_pos hneg.1
    have habs : (-xx).toNat = z.natAbs := by
      rw [BitVec.toNat_neg, hz]
      split at hint <;> omega
    obtain ⟨ds, hds, hlen, hdigits⟩ := hloop (-xx)
    refine ⟨ds, ?_, habs ▸ hdigits⟩
    rw [if_pos hneg, hds, if_pos (hz ▸ hneg.2)]
    exact if_pos (Nat.lt_of_le_of_lt hlen (by omega))
  · have hz : z = xx.toNat := by
      cases sgn with
      | false => rfl
      | true =>
        show xx.toInt = _
        have hpos : ¬ xx.toInt < 0 := fun h => hneg ⟨rfl, h⟩
        split at hint <;> omega
    obtain ⟨ds, hds, hlen, hdigits⟩ := hloop xx
    refine ⟨ds, ?_, by rwa [hz]⟩
    rw [if_neg hneg, hds, if_neg (by omega)]

/-- A turn moves four bits from `x` to what has been read. -/
theorem ptrLoop_digits (n : Nat) (x : BitVec 64) (v : Nat) :
    (ptrLoop n x).length = n ∧ (∀ c ∈ ptrLoop n x, digits.idxOf c < 16) ∧
      ∃ y < 2 ^ 64, (ptrLoop n x).foldl (readDigit 16) v * 2 ^ 64 + y =
        16 ^ n * (v * 2 ^ 64 + x.toNat) := by
  induction n generalizing x v with
  | zero => exact ⟨rfl, nofun, x.toNat, x.isLt, by rw [Nat.pow_zero, Nat.one_mul]; rfl⟩
  | succ n ih =>
    have htop : (x >>> 60).toNat = x.toNat / 2 ^ 60 := by
      rw [BitVec.toNat_ushiftRight, Nat.shiftRight_eq_div_pow]
    have hlt : (x >>> 60).toNat < 16 := by omega
    have hturn : readDigit 16 v (digit (x >>> 60).toNat) * 2 ^ 64 + (x <<< 4).toNat =
        16 * (v * 2 ^ 64 + x.toNat) := by
      rw [readDigit_digit hlt, htop, BitVec.toNat_shiftLeft, Nat.shiftLeft_eq]
      omega
    obtain ⟨hlen, hmem, y, hy, h⟩ := ih (x <<< 4) (readDigit 16 v (digit (x >>> 60).toNat))
    rw [hturn, ← Nat.mul_assoc] at h
    rw [← idxOf_digit hlt] at hlt
    exact ⟨congrArg (· + 1) hlen, List.forall_mem_cons.mpr ⟨hlt, hmem⟩, y, hy, h⟩

/-- What is printed is the numeral of the argument, but `%l` hands it to `printint` as an
`int`. -/
theorem conversion_numeral (str : BitVec 64 → List Char) (conv : Conv) (v : BitVec 64) :
    ∃ out, conversion str v conv.letter = some (out, true) ∧
      conv.Numeral (if conv = .l then ((v.setWidth 32).toNat : Int) else conv.argument v) out := by
  cases conv with
  | d =>
    obtain ⟨ds, hprint, hds, h⟩ := printint_digits 10 (by omega) (by omega) (v.setWidth 32) true
    exact ⟨_, congrArg (Option.map (·, true)) hprint, ds, hds, rfl, h⟩
  | x =>
    obtain ⟨ds, hprint, hds, h⟩ := printint_digits 16 (by omega) (by omega) (v.setWidth 32) false
    exact ⟨_, congrArg (Option.map (·, true)) hprint, ds, hds, rfl, h⟩
  | l =>
    obtain ⟨ds, hprint, hds, h⟩ := printint_digits 10 (by omega) (by omega) (v.setWidth 32) false
    exact ⟨_, congrArg (Option.map (·, true)) hprint, ds, hds, rfl, h⟩
  | p =>
    obtain ⟨hlen, hmem, y, hy, hread⟩ := ptrLoop_digits 16 v 0
    refine ⟨printptr v, rfl, ptrLoop 16 v, ⟨hmem, ?_⟩, rfl, hlen⟩
    show (ptrLoop 16 v).foldl (readDigit 16) 0 = v.toNat
    omega

/-- A conversion emits a numeral in front of what the rest of the format does, and `buf` is not
overrun. It is that of the argument, but for an argument of `%l` that has more than 32 bits. -/
theorem vprintf_numeral_iff (str : BitVec 64 → List Char) (conv : Conv) (fmt : List Char)
    (ap : Nat → BitVec 64) :
    ∃ out, vprintf str false ('%' :: conv.letter :: fmt) ap =
        (out ++ ·) <$> vprintf str false fmt (fun i => ap (i + 1)) ∧
      (conv.Numeral (conv.argument (ap 0)) out ↔ (conv = .l → (ap 0).toNat < 2 ^ 32)) := by
  obtain ⟨out, hconv, hnum⟩ := conversion_numeral str conv (ap 0)
  refine ⟨out, ?_, ?_⟩
  · show (conversion str (ap 0) conv.letter).bind _ = _
    rw [hconv]
    rfl
  · split at hnum
    · rename_i hl
      subst hl
      have hlow : ((ap 0).setWidth 32).toNat = (ap 0).toNat % 2 ^ 32 := BitVec.toNat_setWidth ..
      constructor
      · rintro ⟨_, hds, rfl, _⟩ _
        obtain ⟨_, hds', rfl, _⟩ := hnum
        have heq : (ap 0).toNat = ((ap 0).setWidth 32).toNat := hds.read.symm.trans hds'.read
        omega
      · intro h
        rwa [hlow, Nat.mod_eq_of_lt (h rfl)] at hnum
    · rename_i hl
      exact ⟨fun _ h => absurd h hl, fun _ => hnum⟩

/-- `printf("%l", 1L << 32)` prints 0. -/
theorem vprintf_truncates :
    vprintf (fun _ => []) false ['%', 'l'] (fun _ => 4294967296) = some ['0'] ∧
      ¬ Conv.l.Numeral (Conv.l.argument 4294967296) ['0'] := by
  refine ⟨by decide, ?_⟩
  rintro ⟨_, hds, rfl, _⟩
  exact absurd hds.read (by decide)

end Xv6.Printf
