import Xv6.Umalloc.Theorems

/-!
# Requests of two gigabytes and more

`morecore` multiplies a unit count back to bytes in 64-bit arithmetic and passes the product through
the `int` parameter of `sbrk`. Here `sbrk` makes this conversion; where the product fits, it is the
`sbrk` of the other modules.
-/

namespace Xv6.Umalloc

open Blocks List BitVec

variable {base nbytes : Nat} {env : Env} {s : State}

/-- What `morecore(nu)` passes to `sbrk`. -/
def sbrkArg (nu : Nat) : Int := (BitVec.ofNat 32 (coreUnits nu * headerSize)).toInt

/-- `sbrk` behind the conversion of its argument to `int`. Only growing can fail, and the process
does not shrink below zero. -/
def sbrkInt (env : Env) : Sbrk := fun bytes s =>
  let n := (BitVec.ofNat 32 bytes).toInt
  let s' := { s with calls := s.calls + 1 }
  if 0 < n ∧ env s.calls = none then (none, s')
  else
    let addr := s.brk + (env s.calls).getD 0
    (some addr, { s' with brk := if 0 ≤ addr + n then (addr + n).toNat else addr })

/-- The number of units that `morecore` records is the number that it obtains from `sbrk`, which it
never asks to shrink; and a block that `malloc` returns, in any state that a process reaches with
fewer than `2 ^ 32` units, ends before the memory of the process does. -/
structure Owned (nbytes : Nat) : Prop where
  recorded : sbrkArg (unitsFor nbytes) = coreUnits (unitsFor nbytes) * headerSize
  inside : ∀ base env ptr size brk sys fuel q heap, 0 < base → base + headerSize ≤ brk →
    Run base env (System.start ptr size brk) sys →
    malloc base (sbrkInt env) fuel nbytes sys.heap = some (q, heap) →
    sys.heap.obtained < 2 ^ 32 → heap.obtained < 2 ^ 32 → q = 0 ∨ q + nbytes ≤ heap.brk

theorem coreUnits_lt (hfits : fits nbytes) : coreUnits (unitsFor nbytes) * headerSize < 2 ^ 31 := by
  simp only [fits, headerSize] at hfits
  simp only [coreUnits, headerSize]
  split <;> omega

/-- Below two gigabytes the conversion to `int` changes nothing. -/
theorem toInt_of_lt {n : Nat} (hn : n < 2 ^ 31) : (BitVec.ofNat 32 n).toInt = n := by
  have hmod : n % 2 ^ 32 = n := Nat.mod_eq_of_lt (by omega)
  rw [toInt_eq_toNat_of_lt] <;> rw [toNat_ofNat, hmod]
  omega

theorem sbrkInt_eq {n : Nat} (hpos : 0 < n) (hn : n < 2 ^ 31) : sbrkInt env n s = sbrk env n s := by
  unfold sbrkInt sbrk
  rw [toInt_of_lt hn]
  cases henv : env s.calls with
  | none => simp [hpos]
  | some gap =>
    have hend : ((s.brk + gap : Nat) + (n : Int)).toNat = s.brk + gap + n := by omega
    have hle : (0 : Int) ≤ (s.brk + gap : Nat) + (n : Int) := by omega
    simp only [reduceCtorEq, and_false, if_false, Option.getD_some, hend, if_pos hle]

/-- For a request that fits, `malloc` does not see the conversion. -/
theorem mallocLoop_sbrkInt (hfits : fits nbytes) (fuel prevp p : Nat) (s : State) :
    mallocLoop (sbrkInt env) (unitsFor nbytes) fuel prevp p s =
      mallocLoop (sbrk env) (unitsFor nbytes) fuel prevp p s := by
  have hcore : ∀ fuel s, morecore (sbrkInt env) fuel (unitsFor nbytes) s =
      morecore (sbrk env) fuel (unitsFor nbytes) s := by
    intro fuel s
    have hpos := mul_pos (coreUnits_pos (unitsFor nbytes)) headerSize_pos
    unfold morecore
    rw [sbrkInt_eq hpos (coreUnits_lt hfits)]
  induction fuel generalizing prevp p s with
  | zero => rfl
  | succ fuel ih => simp only [mallocLoop, hcore, ih]

theorem Good.stop_le {free live : List Block} {b : Block} (h : Good base s free live)
    (hb : b ∈ live) : b.stop headerSize ≤ s.brk := by
  have hlt : b.addr < b.stop headerSize :=
    Nat.lt_add_of_pos_right (mul_pos headerSize_pos (h.positive b hb))
  have hsub := (extent_subset (mem_append_right free hb)).trans h.inside
  exact ((Set.Ico_subset_Ico_iff hlt).mp hsub).2

/-- `malloc` keeps its promise for exactly the requests whose blocks are below two gigabytes. -/
theorem malloc_owned_iff (nbytes : BitVec 32) : Owned nbytes.toNat ↔ fits nbytes.toNat := by
  constructor
  · intro h
    have hlt : sbrkArg (unitsFor nbytes.toNat) < 2 ^ 31 := toInt_lt
    have hle := Nat.mul_le_mul_right headerSize (le_coreUnits (unitsFor nbytes.toNat))
    rw [h.recorded] at hlt
    unfold fits
    omega
  · intro hfits
    refine ⟨(toInt_of_lt (coreUnits_lt hfits)).trans (Nat.cast_mul _ _), ?_⟩
    intro base env ptr size brk sys fuel q heap hbase hbrk hrun hcall hold hnew
    have hmalloc : malloc base (sbrk env) fuel nbytes.toNat sys.heap = some (q, heap) :=
      (mallocLoop_sbrkInt hfits _ _ _ _).symm.trans hcall
    by_cases hq : q = 0
    · exact .inl hq
    · right
      have hinv := (inv_of_run hbase hbrk hrun hold).malloc hbase hmalloc hnew
      rw [if_neg hq] at hinv
      rcases hinv with ⟨-, hlive, -⟩ | ⟨-, free, hgood⟩
      · exact absurd hlive (cons_ne_nil _ _)
      · have hmem : Live.block ⟨q, nbytes.toNat⟩ ∈ List.map Live.block (_ :: sys.live) :=
          mem_cons_self
        have hstop := hgood.stop_le hmem
        have hpointer := hgood.pointer_eq mem_cons_self
        have hroom := le_offered nbytes.toNat
        have hpos := unitsFor_pos nbytes.toNat
        simp only [Block.stop, Live.block, headerSize] at hstop hpointer hroom
        omega

/-- A request of two gigabytes, by a process whose memory ends inside a page: `sbrk` is asked to
shrink, and `malloc` returns a block of which the process does not own a byte. -/
theorem malloc_overflows : sbrkArg (unitsFor (2 ^ 31)) = -2147483632 ∧
    (malloc 16 (sbrkInt fun _ => some 0) 10 (2 ^ 31)
      (System.start (fun _ => 0) (fun _ => 0) 65000).heap).map (fun r => (r.1, r.2.brk)) =
        some (65016, 65000) := by
  decide +kernel

end Xv6.Umalloc
