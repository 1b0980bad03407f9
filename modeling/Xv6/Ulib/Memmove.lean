import Mathlib.Algebra.Ring.Nat
import Mathlib.Order.Interval.Set.Basic

/-!
# `memmove` of `kernel/string.c` and of `user/ulib.c`

The two choose the direction of the copy by different tests, and both copy as if through a
snapshot of the source.
-/

namespace Xv6.Memmove

open BitVec

abbrev Addr := BitVec 64

abbrev Memory := Addr → BitVec 8

/-- `while(n-- > 0) *d++ = *s++`. -/
def copyUp : Nat → Addr → Addr → Memory → Memory
  | 0, _, _, m => m
  | n + 1, d, s, m => copyUp n (d + 1) (s + 1) (Function.update m d (m s))

/-- `while(n-- > 0) *--d = *--s`. -/
def copyDown : Nat → Addr → Addr → Memory → Memory
  | 0, _, _, m => m
  | n + 1, d, s, m => copyDown n (d - 1) (s - 1) (Function.update m (d - 1) (m (s - 1)))

/-- The kernel's `memmove`, with an unsigned length: its result, and memory afterwards. -/
def Kernel.memmove (dst src : Addr) (n : BitVec 32) (m : Memory) : Addr × Memory :=
  let len := n.setWidth 64
  if src < dst ∧ src + len > dst then
    (dst, copyDown n.toNat (dst + len) (src + len) m)
  else
    (dst, copyUp n.toNat dst src m)

/-- The user library's `memmove`, with a signed length. -/
def User.memmove (dst src : Addr) (n : BitVec 32) (m : Memory) : Addr × Memory :=
  let len := n.signExtend 64
  if src > dst then
    (dst, copyUp n.toInt.toNat dst src m)
  else
    (dst, copyDown n.toInt.toNat (dst + len) (src + len) m)

/-- `m'` is `m` with the bytes at the offsets in `part` copied from `src` to `dst`. -/
structure Copied (dst src : Addr) (part : Set Nat) (m m' : Memory) : Prop where
  inside : ∀ i ∈ part, m' (dst + .ofNat 64 i) = m (src + .ofNat 64 i)
  outside : ∀ a, (∀ i ∈ part, a ≠ dst + .ofNat 64 i) → m' a = m a

variable {dst src : Addr} {part : Set Nat} {n k : Nat} {m m' : Memory}

theorem Copied.unique {m'' : Memory} (h : Copied dst src part m m')
    (h' : Copied dst src part m m'') : m' = m'' := by
  funext a
  by_cases ha : ∃ i ∈ part, a = dst + .ofNat 64 i
  · obtain ⟨i, hi, rfl⟩ := ha
    rw [h.inside i hi, h'.inside i hi]
  · have hout : ∀ i ∈ part, a ≠ dst + .ofNat 64 i := fun i hi heq => ha ⟨i, hi, heq⟩
    rw [h.outside a hout, h'.outside a hout]

theorem toNat_of_offset_eq {a b : Addr} {i j : Nat} (ha : a.toNat + i < 2 ^ 64)
    (hb : b.toNat + j < 2 ^ 64) (heq : a + .ofNat 64 i = b + .ofNat 64 j) :
    a.toNat + i = b.toNat + j := by
  have h := congrArg BitVec.toNat heq
  rw [toNat_add, toNat_add, toNat_ofNat, toNat_ofNat] at h
  omega

section
variable (hdst : dst.toNat + n ≤ 2 ^ 64) (hsrc : src.toNat + n ≤ 2 ^ 64)
include hdst hsrc

/-- The byte at `k` is copied first: it is not among the others, nor read for one of them. -/
theorem Copied.cons (h : Copied dst src part
      (Function.update m (dst + .ofNat 64 k) (m (src + .ofNat 64 k))) m')
    (hk : k < n)
    (hclear : ∀ i ∈ part, i < n ∧ k ≠ i ∧ dst.toNat + k ≠ src.toNat + i) :
    Copied dst src (insert k part) m m' := by
  constructor
  · rintro i (rfl | hi)
    · rw [h.outside, Function.update_self]
      intro j hj heq
      have := hclear j hj
      have := toNat_of_offset_eq (by omega) (by omega) heq
      omega
    · rw [h.inside i hi, Function.update_of_ne]
      intro heq
      have := hclear i hi
      have := toNat_of_offset_eq (by omega) (by omega) heq
      omega
  · intro a ha
    rw [h.outside a fun i hi => ha i (.inr hi), Function.update_of_ne (ha k (.inl rfl))]

theorem copyUp_copied (h : ¬ (src.toNat < dst.toNat ∧ dst.toNat < src.toNat + n))
    {j : Nat} (hj : k + j = n) :
    Copied dst src (Set.Ico k n) m (copyUp j (dst + .ofNat 64 k) (src + .ofNat 64 k) m) := by
  induction j generalizing k m with
  | zero =>
    rw [Set.Ico_eq_empty (by omega)]
    exact ⟨nofun, fun _ _ => rfl⟩
  | succ j ih =>
    have hpart : Set.Ico k n = insert k (Set.Ico (k + 1) n) := by
      ext i
      simp
      omega
    have hrest := fun m => ih (k := k + 1) (m := m) (by omega)
    simp only [BitVec.ofNat_add, ← BitVec.add_assoc] at hrest
    rw [hpart]
    apply (hrest _).cons hdst hsrc (by omega)
    intro i hi
    rw [Set.mem_Ico] at hi
    omega

theorem copyDown_copied (h : src.toNat ≤ dst.toNat) (hk : k ≤ n) :
    Copied dst src (Set.Ico 0 k) m (copyDown k (dst + .ofNat 64 k) (src + .ofNat 64 k) m) := by
  induction k generalizing m with
  | zero => exact ⟨by simp, fun _ _ => rfl⟩
  | succ k ih =>
    have hpred : ∀ a : Addr, a + .ofNat 64 (k + 1) - 1 = a + .ofNat 64 k := by
      intro a
      rw [BitVec.ofNat_add, ← BitVec.add_assoc]
      exact BitVec.add_sub_cancel _ _
    have hpart : Set.Ico 0 (k + 1) = insert k (Set.Ico 0 k) := by
      ext i
      simp only [Set.mem_Ico, Set.mem_insert_iff]
      omega
    rw [copyDown, hpred, hpred, hpart]
    apply (ih (by omega)).cons hdst hsrc hk
    intro i hi
    rw [Set.mem_Ico] at hi
    omega

end

/-- Both copy as if through a snapshot, whatever the overlap; hence they agree. -/
theorem memmove_snapshot {n : BitVec 32} (hn : n.toNat < 2 ^ 31)
    (hdst : dst.toNat + n.toNat ≤ 2 ^ 64) (hsrc : src.toNat + n.toNat ≤ 2 ^ 64) :
    Copied dst src (Set.Ico 0 n.toNat) m (Kernel.memmove dst src n m).2 ∧
      Copied dst src (Set.Ico 0 n.toNat) m (User.memmove dst src n m).2 ∧
      Kernel.memmove dst src n m = User.memmove dst src n m := by
  have hlen : n.setWidth 64 = .ofNat 64 n.toNat := by
    apply eq_of_toNat_eq
    simp
  have hint : n.toInt = n.toNat := toInt_eq_toNat_of_lt (by omega)
  have hsext : n.signExtend 64 = .ofNat 64 n.toNat := by
    have hmsb : n.msb = false := msb_eq_false_iff_two_mul_lt.mpr (by omega)
    rw [BitVec.signExtend_eq_setWidth_of_msb_false hmsb, hlen]
  have hup := fun h => copyUp_copied (k := 0) (m := m) hdst hsrc h (Nat.zero_add _)
  simp only [BitVec.add_zero] at hup
  have hkernel : Copied dst src (Set.Ico 0 n.toNat) m (Kernel.memmove dst src n m).2 := by
    unfold Kernel.memmove
    simp only [hlen]
    split
    · rename_i h
      exact copyDown_copied hdst hsrc (le_of_lt h.1) (Nat.le_refl _)
    · rename_i h
      apply hup
      rintro ⟨hlt, hgt⟩
      -- The source ends below the destination's end, so its end does not wrap.
      refine h ⟨hlt, lt_def.mpr ?_⟩
      rw [toNat_add, toNat_ofNat]
      omega
  have huser : Copied dst src (Set.Ico 0 n.toNat) m (User.memmove dst src n m).2 := by
    unfold User.memmove
    simp only [hsext, hint, Int.toNat_natCast]
    split
    · rename_i h
      exact hup fun hlt => absurd hlt.1 (Nat.lt_asymm h)
    · rename_i h
      exact copyDown_copied hdst hsrc (Nat.le_of_not_lt h) (Nat.le_refl _)
  refine ⟨hkernel, huser, Prod.ext ?_ (hkernel.unique huser)⟩
  unfold Kernel.memmove User.memmove
  simp only
  split <;> split <;> rfl

/-- Three bytes moved up by one, over themselves. -/
theorem memmove_snapshot_overlap : ∃ m : Memory, (Kernel.memmove 1 0 3 m).2 3 = 2 ∧
      Kernel.memmove 1 0 3 m = User.memmove 1 0 3 m :=
  ⟨fun a => a.setWidth 8, by decide, (memmove_snapshot (by decide) (by decide) (by decide)).2.2⟩

end Xv6.Memmove
