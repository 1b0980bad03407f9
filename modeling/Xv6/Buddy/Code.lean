import Xv6.Buddy.Lists
import Mathlib.Algebra.Ring.Nat

/-!
# The buddy allocator of `kernel/buddy.c`

`bd_malloc` and `bd_free` over the bit vectors of each size and the free lists of `kernel/list.c`,
whose nodes lie in the free blocks themselves and in the array `bd_sizes` at the start of the heap.
Each call holds the allocator's lock from its start to its end, so calls are not interleaved.
`none` stands for a panic in `lst_pop`, an access to `bd_sizes[nsizes]`, or a loop of `firstk` that
has not ended.
-/

namespace Xv6.Buddy

open Circular Function

/-- The smallest block size. -/
def LEAF_SIZE : Nat := 16

/-- `sizeof(Sz_info)`. -/
def szInfoSize : Nat := 32

/-- `bd_base` and `nsizes`, which do not change after `bd_init`. -/
structure Heap where
  base : Nat
  nsizes : Nat

/-- `MAXSIZE`. -/
def Heap.maxSize (h : Heap) : Nat := h.nsizes - 1

/-- `BLK_SIZE(k)`. -/
def BLK_SIZE (k : Nat) : Nat := 2 ^ k * LEAF_SIZE

/-- The conversion to `int`. -/
def int (x : Int) : Int := x.bmod (2 ^ 32)

/-- `bit_isset`. -/
def bitIsset (array : Nat → BitVec 8) (index : Nat) : Bool :=
  let b := array (index / 8)
  let m := 1#8 <<< (index % 8)
  b &&& m = m

/-- `bit_set`. -/
def bitSet (array : Nat → BitVec 8) (index : Nat) : Nat → BitVec 8 :=
  let b := array (index / 8)
  let m := 1#8 <<< (index % 8)
  update array (index / 8) (b ||| m)

/-- `bit_clear`. -/
def bitClear (array : Nat → BitVec 8) (index : Nat) : Nat → BitVec 8 :=
  let b := array (index / 8)
  let m := 1#8 <<< (index % 8)
  update array (index / 8) (b &&& ~~~ m)

/-- The bit vectors `bd_sizes[k].alloc` and `bd_sizes[k].split`, and the list pointers at each
address. -/
structure State where
  alloc : Nat → Nat → BitVec 8
  split : Nat → Nat → BitVec 8
  list : Pointers Nat

namespace State

/-- `bit_set(bd_sizes[k].alloc, index)`. -/
def setAlloc (s : State) (k index : Nat) : State :=
  { s with alloc := update s.alloc k (bitSet (s.alloc k) index) }

/-- `bit_clear(bd_sizes[k].alloc, index)`. -/
def clearAlloc (s : State) (k index : Nat) : State :=
  { s with alloc := update s.alloc k (bitClear (s.alloc k) index) }

/-- `bit_set(bd_sizes[k].split, index)`. -/
def setSplit (s : State) (k index : Nat) : State :=
  { s with split := update s.split k (bitSet (s.split k) index) }

/-- `bit_clear(bd_sizes[k].split, index)`. -/
def clearSplit (s : State) (k index : Nat) : State :=
  { s with split := update s.split k (bitClear (s.split k) index) }

end State

namespace Heap

variable (h : Heap)

/-- `&bd_sizes[k].free`: the array lies at `bd_base`. -/
def list (k : Nat) : Nat := h.base + szInfoSize * k

/-- `blk_index`. -/
def blkIndex (k p : Nat) : Nat := (int ((int (p - h.base)).tdiv (BLK_SIZE k))).toNat

/-- `addr`. -/
def addr (k bi : Nat) : Nat := (h.base + int (bi * BLK_SIZE k)).toNat

/-- `lst_push(&bd_sizes[k].free, p)`. -/
def lstPush (k p : Nat) (s : State) : State :=  { s with list := Lists.lstPush (h.list k) p s.list }

/-- `lst_remove`. -/
def lstRemove (p : Nat) (s : State) : State := { s with list := Lists.lstRemove p s.list }

/-- `lst_pop(&bd_sizes[k].free)`. -/
def lstPop (k : Nat) (s : State) : Option (Nat × State) :=
  (Lists.lstPop (h.list k) s.list).map fun (p, list) => (p, { s with list })

end Heap

/-- The loop of `firstk`; `none` if it has not ended after `fuel` rounds. -/
def firstkLoop (n : BitVec 64) : (fuel k : Nat) → (size : BitVec 64) → Option Nat
  | 0, _, _ => none
  | fuel + 1, k, size => if size < n then firstkLoop n fuel (k + 1) (size * 2) else some k

/-- `firstk`, if it ends within `fuel` rounds. -/
def firstk (fuel : Nat) (n : BitVec 64) : Option Nat := firstkLoop n fuel 0 (.ofNat 64 LEAF_SIZE)

/-- The size of the blocks for requests of `n` bytes. Sixty-four rounds are enough for
`n ≤ 2 ^ 63`; beyond that `size` becomes zero and the loop does not end. -/
def sizeFor (n : BitVec 64) : Nat := (firstk 64 n).getD 0

namespace Heap

variable (h : Heap)

/-- The first loop of `bd_malloc`: the first size from `k` on with a free block. -/
def findSize (s : State) : (rounds k : Nat) → Nat
  | 0, k => k
  | rounds + 1, k => if Lists.lstEmpty (h.list k) s.list then findSize s rounds (k + 1) else k

/-- The second loop of `bd_malloc`: split the block `p` of size `k` `rounds` times. -/
def splitFrom (p : Nat) : (rounds k : Nat) → State → State
  | 0, _, s => s
  | rounds + 1, k, s =>
    let q := p + BLK_SIZE (k - 1)
    let s := s.setSplit k (h.blkIndex k p)
    let s := s.setAlloc (k - 1) (h.blkIndex (k - 1) p)
    splitFrom p rounds (k - 1) (h.lstPush (k - 1) q s)

/-- `bd_malloc`, which returns `0` if no block is large enough; `fuel` is for `firstk`. -/
def bdMalloc (fuel : Nat) (nbytes : BitVec 64) (s : State) : Option (Nat × State) :=
  match firstk fuel nbytes with
  | none => none
  | some fk =>
    let k := h.findSize s (h.nsizes - fk) fk
    if k ≥ h.nsizes then some (0, s)
    else
      match h.lstPop k s with
      | none => none
      | some (p, s) => some (p, h.splitFrom p (k - fk) k (s.setAlloc k (h.blkIndex k p)))

/-- The loop of `size`. -/
def sizeFrom (s : State) (p : Nat) : (rounds k : Nat) → Option Nat
  | 0, _ => some 0
  | rounds + 1, k =>
    if k + 1 < h.nsizes then
      if bitIsset (s.split (k + 1)) (h.blkIndex (k + 1) p) then some k
      else sizeFrom s p rounds (k + 1)
    else none

/-- `size`. -/
def size (s : State) (p : Nat) : Option Nat := h.sizeFrom s p h.nsizes 0

/-- The loop of `bd_free` from size `k` on, and what follows it. -/
def freeFrom : (rounds k p : Nat) → State → State
  | 0, k, p, s => h.lstPush k p s
  | rounds + 1, k, p, s =>
    let bi := h.blkIndex k p
    let buddy := if bi % 2 = 0 then bi + 1 else bi - 1
    let s := s.clearAlloc k bi
    if bitIsset (s.alloc k) buddy then h.lstPush k p s
    else
      let q := h.addr k buddy
      let s := Heap.lstRemove q s
      let p := if buddy % 2 = 0 then q else p
      freeFrom rounds (k + 1) p (s.clearSplit (k + 1) (h.blkIndex (k + 1) p))

/-- `bd_free`. -/
def bdFree (p : Nat) (s : State) : Option State :=
  (h.size s p).map fun k => h.freeFrom (h.maxSize - k) k p s

end Heap

/-! ### Users of the allocator -/

/-- A pointer that `bd_malloc` returned, and the bytes that were asked for. -/
structure Live where
  pointer : Nat
  nbytes : BitVec 64
  deriving DecidableEq

/-- The allocator and the pointers that are handed out. -/
structure System where
  state : State
  live : List Live

/-- What the kernel does: call `bd_malloc` or `bd_free`, or write to a block that is handed out. -/
inductive Action where
  | malloc (nbytes : BitVec 64)
  | free (block : Live)
  | write (block : Live) (p next prev : Nat)

/-- The address lies in the block. -/
def Live.contains (block : Live) (p : Nat) : Prop :=
  block.pointer ≤ p ∧ p < block.pointer + BLK_SIZE (sizeFor block.nbytes)

instance (block : Live) (p : Nat) : Decidable (block.contains p) :=
  inferInstanceAs (Decidable (_ ∧ _))

/-- Perform an action that is in order. -/
def Heap.perform (h : Heap) : Action → System → Option System
  | .malloc nbytes, sys =>
    if nbytes.toNat ≤ 2 ^ 63 then
      (h.bdMalloc 64 nbytes sys.state).map fun (p, state) =>
        ⟨state, if p = 0 then sys.live else ⟨p, nbytes⟩ :: sys.live⟩
    else none
  | .free block, sys =>
    if block ∈ sys.live then
      (h.bdFree block.pointer sys.state).map fun state => ⟨state, sys.live.erase block⟩
    else none
  | .write block p next prev, sys =>
    if block ∈ sys.live ∧ block.contains p then
      some { sys with
        state := { sys.state with
          list := ⟨update sys.state.list.next p next, update sys.state.list.prev p prev⟩ } }
    else none

/-- The states that are reached from `start`. -/
inductive Run (h : Heap) (start : System) : System → Prop where
  | refl : Run h start start
  | step {sys sys' : System} {action : Action} :
      Run h start sys → h.perform action sys = some sys' → Run h start sys'

end Xv6.Buddy
