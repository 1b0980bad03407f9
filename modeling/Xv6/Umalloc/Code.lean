import Mathlib.Algebra.Ring.Nat
import Mathlib.Data.List.Basic

/-!
# The user-level allocator of `user/umalloc.c`

`malloc` and `free` over a memory of headers. Addresses are byte addresses; `ptr a` and `size a` are
the two fields of a header at `a`, and a pointer to a header moves by `sizeof(Header)` bytes for
each unit. `size` is a `uint`, so sums are taken modulo `2 ^ 32`. Loops run for at most `fuel`
rounds and yield `none` if that is not enough.

The environment decides what `sbrk` does: `env i` is `none` if the `i`-th call fails, and otherwise
the distance of the new region from the end of the last one.
-/

namespace Xv6.Umalloc

open Function

/-- `sizeof(Header)`. -/
def headerSize : Nat := 16

/-- The memory, the static variable `freep` (zero if it is null), and what `sbrk` has done: the end
of the last region and the number of calls. `obtained` counts the units that `morecore` got; no
branch reads it. -/
structure State where
  ptr : Nat → Nat
  size : Nat → Nat
  freep : Nat
  brk : Nat
  calls : Nat
  obtained : Nat

/-- What each call of `sbrk` returns. -/
abbrev Env := Nat → Option Nat

/-- A system call `sbrk`, which is given a number of bytes. -/
abbrev Sbrk := Nat → State → Option Nat × State

/-- Whether the loop of `free` stops at `p`. -/
def stopsAt (s : State) (bp p : Nat) : Prop :=
  (bp > p ∧ bp < s.ptr p) ∨ (p ≥ s.ptr p ∧ (bp > p ∨ bp < s.ptr p))

instance (s : State) (bp p : Nat) : Decidable (stopsAt s bp p) :=
  inferInstanceAs (Decidable (_ ∨ _))

/-- The loop of `free`. -/
def freeSearch (s : State) (bp : Nat) : (fuel : Nat) → (p : Nat) → Option Nat
  | 0, _ => none
  | fuel + 1, p => if stopsAt s bp p then some p else freeSearch s bp fuel (s.ptr p)

/-- Link block `b` to the block at `n`, or make one block of the two if they touch. -/
def State.join (s : State) (b n : Nat) : State :=
  if b + headerSize * s.size b = n then
    { s with
      size := update s.size b ((s.size b + s.size n) % 2 ^ 32)
      ptr := update s.ptr b (s.ptr n) }
  else { s with ptr := update s.ptr b n }

/-- `free`. -/
def free (fuel : Nat) (ap : Nat) (s : State) : Option State :=
  let bp := ap - headerSize
  (freeSearch s bp fuel s.freep).map fun p =>
    { (s.join bp (s.ptr p)).join p bp with freep := p }

/-- `sbrk`, for a positive argument. -/
def sbrk (env : Env) : Sbrk := fun n s =>
  match env s.calls with
  | none => (none, { s with calls := s.calls + 1 })
  | some gap => (some (s.brk + gap), { s with calls := s.calls + 1, brk := s.brk + gap + n })

/-- The units that `morecore(nu)` asks for. -/
def coreUnits (nu : Nat) : Nat := if nu < 4096 then 4096 else nu

/-- `morecore`. -/
def morecore (sbrk : Sbrk) (fuel : Nat) (nu : Nat) (s : State) : Option (Nat × State) :=
  match sbrk (coreUnits nu * headerSize) s with
  | (none, s') => some (0, s')
  | (some hp, s') =>
    (free fuel (hp + headerSize) { s' with
        size := update s'.size hp (coreUnits nu)
        obtained := s'.obtained + coreUnits nu }).map fun s'' => (s''.freep, s'')

/-- The units of a block with room for `nbytes` bytes. -/
def unitsFor (nbytes : Nat) : Nat := (nbytes + headerSize - 1) / headerSize + 1

/-- What `malloc` does with a block at `p` that is large enough. -/
def State.takeFrom (s : State) (nunits prevp p : Nat) : Nat × State :=
  if s.size p = nunits then
    (p + headerSize, { s with ptr := update s.ptr prevp (s.ptr p), freep := prevp })
  else
    -- The tail of the block is handed out.
    let q := p + headerSize * (s.size p - nunits)
    (q + headerSize, { s with
        size := update (update s.size p (s.size p - nunits)) q nunits
        freep := prevp })

/-- The loop of `malloc`. -/
def mallocLoop (sbrk : Sbrk) (nunits : Nat) :
    (fuel : Nat) → (prevp p : Nat) → State → Option (Nat × State)
  | 0, _, _, _ => none
  | fuel + 1, prevp, p, s =>
    if s.size p ≥ nunits then some (s.takeFrom nunits prevp p)
    else if p = s.freep then
      match morecore sbrk fuel nunits s with
      | none => none
      | some (q, s') => if q = 0 then some (0, s') else mallocLoop sbrk nunits fuel q (s'.ptr q) s'
    else mallocLoop sbrk nunits fuel p (s.ptr p) s

/-- The first lines of `malloc`: the free list starts out with `base` alone. -/
def State.init (base : Nat) (s : State) : State :=
  if s.freep = 0 then
    { s with
      ptr := update s.ptr base base
      size := update s.size base 0
      freep := base }
  else s

/-- `malloc`. -/
def malloc (base : Nat) (sbrk : Sbrk) (fuel nbytes : Nat) (s : State) : Option (Nat × State) :=
  let s' := s.init base
  mallocLoop sbrk (unitsFor nbytes) fuel s'.freep (s'.ptr s'.freep) s'

/-! ### A process that uses the allocator -/

/-- A pointer that `malloc` returned, and the bytes that were asked for. -/
structure Live where
  pointer : Nat
  nbytes : Nat
  deriving DecidableEq

/-- The allocator and the pointers that are in use. -/
structure System where
  heap : State
  live : List Live

/-- What the process does: call `malloc` or `free`, or write a word of memory that it owns. -/
inductive Action where
  | malloc (nbytes : Nat)
  | free (block : Live)
  | write (block : Live) (addr ptr size : Nat)

/-- The address lies in the memory that `block` offers. -/
def Live.offers (block : Live) (addr : Nat) : Prop :=
  block.pointer ≤ addr ∧ addr < block.pointer + headerSize * (unitsFor block.nbytes - 1)

instance (block : Live) (addr : Nat) : Decidable (block.offers addr) :=
  inferInstanceAs (Decidable (_ ∧ _))

/-- Units that fit an `int` as a number of bytes. -/
def fits (nbytes : Nat) : Prop := unitsFor nbytes * headerSize < 2 ^ 31

instance (nbytes : Nat) : Decidable (fits nbytes) := inferInstanceAs (Decidable (_ < _))

/-- Perform an action that is in order: requests fit, and only live pointers are freed or used. -/
def perform (base : Nat) (env : Env) (fuel : Nat) : Action → System → Option System
  | .malloc nbytes, sys =>
    if fits nbytes then
      (malloc base (sbrk env) fuel nbytes sys.heap).map fun (q, heap) =>
        ⟨heap, if q = 0 then sys.live else ⟨q, nbytes⟩ :: sys.live⟩
    else none
  | .free block, sys =>
    if block ∈ sys.live then
      (free fuel block.pointer sys.heap).map fun heap => ⟨heap, sys.live.erase block⟩
    else none
  | .write block addr ptr size, sys =>
    if block ∈ sys.live ∧ block.offers addr then
      some { sys with
        heap := { sys.heap with
          ptr := update sys.heap.ptr addr ptr
          size := update sys.heap.size addr size } }
    else none

/-- A process that has not called `malloc` yet. `base` is the static header. -/
def System.start (ptr size : Nat → Nat) (brk : Nat) : System :=
  ⟨{ ptr := ptr, size := size, freep := 0, brk := brk, calls := 0, obtained := 0 }, []⟩

/-- The states that a process can reach. -/
inductive Run (base : Nat) (env : Env) (start : System) : System → Prop where
  | refl : Run base env start start
  | step {sys sys' : System} {fuel : Nat} {action : Action} :
      Run base env start sys → perform base env fuel action sys = some sys' →
      Run base env start sys'

/-- Perform a list of actions. -/
def performAll (base : Nat) (env : Env) (fuel : Nat) : List Action → System → Option System
  | [], sys => some sys
  | action :: actions, sys =>
    match perform base env fuel action sys with
    | none => none
    | some sys' => performAll base env fuel actions sys'

end Xv6.Umalloc
