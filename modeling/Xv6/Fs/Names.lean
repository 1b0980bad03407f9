import Xv6.Fs.Layout

/-!
# Names in directory entries

A name in a directory entry is `DIRSIZ` bytes, with a zero after the name if it is shorter. `nameOf`
is the name that such bytes stand for. `namecmp` compares these names, and `strncpy` keeps them.
-/

namespace Xv6.Fs

open List

/-- The bytes from index `i` on, up to the first zero and at most `n` of them. -/
def nameFrom (p : Nat → Nat) : (n i : Nat) → List Nat
  | 0, _ => []
  | n + 1, i => if p i = 0 then [] else p i :: nameFrom p n (i + 1)

/-- The name that the bytes of a directory entry or of a string stand for. -/
def nameOf (p : Nat → Nat) : List Nat := nameFrom p DIRSIZ 0

variable {p q : Nat → Nat} {n i : Nat}

theorem strncmpFrom_eq_zero : strncmpFrom p q n i = 0 ↔ nameFrom p n i = nameFrom q n i := by
  induction n generalizing i with
  | zero => simp [strncmpFrom, nameFrom]
  | succ n ih =>
    simp only [strncmpFrom, nameFrom]
    by_cases hp : p i = 0
    · by_cases hq : q i = 0
      · simp [hp, hq]
      · simp [hp, hq]
    · by_cases heq : p i = q i
      · have hq : q i ≠ 0 := heq ▸ hp
        rw [if_pos ⟨hp, heq⟩, if_neg hp, if_neg hq, ih, heq]
        simp
      · rw [if_neg fun hand => heq hand.2, if_neg hp]
        have hne : (p i : Int) - q i ≠ 0 := by omega
        refine ⟨fun h => absurd h hne, fun h => ?_⟩
        split at h
        · cases h
        · exact absurd (List.cons.inj h).1 heq

/-- `namecmp` finds two names equal when they are the same up to `DIRSIZ` bytes. -/
theorem namecmp_eq_zero : namecmp p q = 0 ↔ nameOf p = nameOf q := strncmpFrom_eq_zero

theorem nameFrom_congr (h : ∀ k, k < n → p (i + k) = q (i + k)) :
    nameFrom p n i = nameFrom q n i := by
  induction n generalizing i with
  | zero => rfl
  | succ n ih =>
    have hi : p i = q i := h 0 (by omega)
    have hrest : nameFrom p n (i + 1) = nameFrom q n (i + 1) :=
      ih fun k hk => by
        have := h (k + 1) (by omega)
        rwa [show i + (k + 1) = i + 1 + k by omega] at this
    simp only [nameFrom, hi, hrest]

theorem nameOf_congr (h : ∀ k, k < DIRSIZ → p k = q k) : nameOf p = nameOf q :=
  nameFrom_congr fun k hk => by rw [Nat.zero_add]; exact h k hk

theorem nameFrom_strncpy {t : Nat → Nat} (h : ∀ j, j < i → t j ≠ 0) :
    nameFrom (strncpy t) n i = nameFrom t n i := by
  induction n generalizing i with
  | zero => rfl
  | succ n ih =>
    by_cases hi : t i = 0
    · have hcopy : strncpy t i = 0 := by
        unfold strncpy
        split
        · exact hi
        · rfl
      simp only [nameFrom, hcopy, hi, if_true]
    · have hall : ∀ j, j < i + 1 → t j ≠ 0 := by
        intro j hj
        rcases Nat.lt_succ_iff_lt_or_eq.mp hj with hlt | rfl
        · exact h j hlt
        · exact hi
      have hcopy : strncpy t i = t i := by
        refine if_pos ?_
        rw [all_eq_true]
        intro j hj
        simpa using hall j (mem_range.mp hj)
      simp only [nameFrom, hcopy, ih hall]

theorem nameOf_strncpy (t : Nat → Nat) : nameOf (strncpy t) = nameOf t :=
  nameFrom_strncpy fun j hj => absurd hj (by omega)

theorem nameOf_cstr {a : List UInt8} (h : (0 : UInt8) ∉ a) :
    nameOf (cstr a) = (a.take DIRSIZ).map UInt8.toNat := by
  have hfrom : ∀ n i, nameFrom (cstr a) n i = ((a.drop i).take n).map UInt8.toNat := by
    intro n
    induction n with
    | zero => intro i; simp [nameFrom]
    | succ n ih =>
      intro i
      rw [nameFrom, ih (i + 1)]
      by_cases hi : i < a.length
      · have hbyte : cstr a i = a[i].toNat := by
          rw [cstr, getD_eq_getElem?_getD, getElem?_eq_getElem hi]
          rfl
        have hne : a[i].toNat ≠ 0 := by
          intro hzero
          have heq : a[i] = 0 := UInt8.toNat_inj.mp hzero
          exact h (heq ▸ getElem_mem hi)
        rw [hbyte, if_neg hne, drop_eq_getElem_cons hi, take_succ_cons, map_cons]
      · have hbyte : cstr a i = 0 := by
          rw [cstr, getD_eq_getElem?_getD, getElem?_eq_none (by omega)]
          rfl
        rw [if_pos hbyte, drop_eq_nil_of_le (by omega)]
        rfl
  rw [nameOf, hfrom, drop_zero]

end Xv6.Fs
