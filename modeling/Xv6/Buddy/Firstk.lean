import Xv6.Buddy.Calls

/-!
# Requests of more than half of the address space

`firstk` doubles a 64-bit size until it reaches the request. Beyond `2 ^ 63` the size becomes zero
before it is large enough, so that the loop goes on for ever, with the allocator's lock held.
-/

namespace Xv6.Buddy

variable {n : BitVec 64} {h : Heap}

/-- In 64 bits no size exceeds `2 ^ 63`: the next one has wrapped to zero. -/
theorem blkSize_wraps (k : Nat) : (BitVec.ofNat 64 (BLK_SIZE k)).toNat ≤ 2 ^ 63 := by
  show BLK_SIZE k % 2 ^ 64 ≤ 2 ^ 63
  by_cases hk : k < 60
  · have hpow : 2 ^ k ≤ 2 ^ 59 := Nat.pow_le_pow_right two_pos (by omega)
    have hle : BLK_SIZE k ≤ 2 ^ 63 := Nat.mul_le_mul_right LEAF_SIZE hpow
    exact (Nat.mod_le _ _).trans hle
  · -- all bits of the size have been shifted out
    have hsum : 60 + (k - 60) = k := by omega
    have hsize : BLK_SIZE k = 2 ^ (k - 60) * 2 ^ 64 := by
      rw [← hsum, BLK_SIZE_add, hsum]
      rfl
    rw [hsize, Nat.mul_mod_left]
    exact Nat.zero_le _

/-- For a request beyond `2 ^ 63` the loop never ends. -/
theorem firstkLoop_none (hn : 2 ^ 63 < n.toNat) (fuel k : Nat) :
    firstkLoop n fuel k (.ofNat 64 (BLK_SIZE k)) = none := by
  induction fuel generalizing k with
  | zero => rfl
  | succ fuel ih =>
    have hlt : BitVec.ofNat 64 (BLK_SIZE k) < n := (blkSize_wraps k).trans_lt hn
    rw [firstkLoop, if_pos hlt, double_blkSize]
    exact ih (k + 1)

/-- For exactly the requests up to `2 ^ 63`, `firstk` ends and returns the least size that is large
enough, and `bd_malloc` returns, with `0` or a block that is large enough, and releases the lock. -/
theorem firstk_exact_iff (n : BitVec 64) :
    ((∃ fuel k, firstk fuel n = some k ∧ n.toNat ≤ BLK_SIZE k ∧ ∀ j < k, BLK_SIZE j < n.toNat) ∧
      ∀ (h : Heap) (reserved : Set Dyadic.Block) (s : State) (free : Nat → List Nat)
        (handed : List Dyadic.Block), h.Fits reserved → Rep h reserved s free handed →
        ∃ fuel p s', h.bdMalloc fuel n s = some (p, s') ∧ (p = 0 ∧ s' = s ∨
          ∃ b free', n.toNat ≤ BLK_SIZE b.level ∧ p = h.blockAddr b ∧
            Rep h reserved s' free' (b :: handed))) ↔ n.toNat ≤ 2 ^ 63 := by
  constructor
  · rintro ⟨⟨fuel, k, hloop, -⟩, -⟩
    by_contra hn
    have hnone := firstkLoop_none (not_le.mp hn) fuel 0
    simpa using hnone.symm.trans hloop
  · intro hn
    obtain ⟨hfirst, hk, hleast⟩ := firstk_spec hn
    refine ⟨⟨64, _, hfirst, hk, hleast⟩, ?_⟩
    intro h reserved s free handed hfits hrep
    obtain ⟨p, s', hcall, hresult⟩ := bdMalloc_spec hfits hrep hfirst
    refine ⟨64, p, s', hcall, hresult.imp_right ?_⟩
    rintro ⟨b, free', hlevel, hp, hrep', -⟩
    exact ⟨b, free', hlevel ▸ hk, hp, hrep'⟩

/-- A request for one byte more than half of the address space. -/
theorem firstk_never_ends : (∀ fuel, firstk fuel 0x8000000000000001#64 = none) ∧
      ∀ fuel (h : Heap) s, h.bdMalloc fuel 0x8000000000000001#64 s = none := by
  have hnone (fuel) : firstk fuel 0x8000000000000001#64 = none :=
    firstkLoop_none (by decide +kernel) fuel 0
  refine ⟨hnone, fun fuel h s => ?_⟩
  rw [Heap.bdMalloc, hnone]

end Xv6.Buddy
