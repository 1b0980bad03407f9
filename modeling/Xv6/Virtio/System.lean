import Xv6.Interleave.Machine
import Xv6.Param
import Xv6.Ring.Fifo

/-!
# The disk driver of `kernel/virtio_disk.c`

The machine in which any number of processes run `virtio_disk_rw` on one disk, interrupts run
`virtio_disk_intr`, and the device works on the rings, all at once. An operation is one `acquire`
or `release`, one access to memory that the device reads or writes, or a few accesses to variables
that are used under `vdisk_lock` only. A process that sleeps has released the lock and may go on at
any moment. The callers of `virtio_disk_rw` hold the lock of the buffer.

The device takes a chain when it finds one that it has not taken, serves the chains that it has
taken in any order, which writes the status byte, and appends the chains that it has served to the
used ring, again in any order.

The state has history variables that no branch reads, from `requests` on. A request gets a number
when it is published. The device carries that number along with the index of the chain.
-/

namespace Xv6.Virtio

open Interleave Function
open Prog (perform)

/-- The number of descriptors. -/
def NUM : Nat := 8

instance : NeZero NUM := ⟨by decide⟩

/-- Where a descriptor points to: nowhere, a request header, a buffer, or the status in `info[i]`.
-/
inductive Addr (Buf : Type) where
  | null
  | header (write : Bool) (sector : Nat)
  | data (b : Buf)
  | status (i : Nat)

/-- `struct VRingDesc`. -/
structure VRingDesc (Buf : Type) where
  addr : Addr Buf
  len : Nat
  flags : BitVec 16
  next : BitVec 16

/-- `VRING_DESC_F_NEXT`. -/
def VRING_DESC_F_NEXT : BitVec 16 := 1

/-- `VRING_DESC_F_WRITE`. -/
def VRING_DESC_F_WRITE : BitVec 16 := 2

/-- What the driver knows about the chain that starts at a descriptor. -/
structure Info (Buf : Type) where
  b : Option Buf
  status : BitVec 8

/-- A published request: its number, its buffer, and its three descriptors. -/
structure Request (Buf : Type) where
  number : Nat
  b : Buf
  head : Nat
  data : Nat
  status : Nat

/-- A clearing of a `b->disk`: the index found in the used ring, the number of the request that the
device has put there, and the buffer. -/
structure Clearing (Buf : Type) where
  id : Nat
  number : Nat
  b : Buf

/-- The state of `disk[n]`, of the buffers, and of the device. -/
structure State (Pid Buf : Type) where
  lock : Option Pid
  desc : Nat → VRingDesc Buf
  avail : Fin NUM → Nat
  /-- `avail[1]`. -/
  availIdx : BitVec 16
  usedElems : Fin NUM → Nat
  /-- `used->id`. -/
  usedId : BitVec 16
  free : Nat → Bool
  usedIdx : BitVec 16
  info : Nat → Info Buf
  /-- The field `disk` of each buffer. -/
  disk : Buf → Bool
  blockno : Buf → Nat
  /-- The sleep-lock of each buffer. -/
  bufLock : Buf → Option Pid
  /-- How far the device has looked in the avail ring. -/
  lastAvail : BitVec 16
  /-- The chains that the device has taken, and their numbers. -/
  serving : List (Nat × Nat)
  /-- The chains that the device has served, and their numbers. -/
  served : List (Nat × Nat)
  /-- The heads and buffers of all requests that were ever published. -/
  requests : List (Nat × Buf)
  /-- The heads that the device has ever taken. -/
  taken : List Nat
  /-- The chains that the device has ever appended to the used ring, and their numbers. -/
  completed : List (Nat × Nat)
  /-- Every clearing of a `b->disk`. -/
  cleared : List (Clearing Buf)
  /-- The request of a process that waits for the device. -/
  request : Pid → Option (Request Buf)

/-- Who runs code. -/
inductive Agent (Pid : Type) where
  | proc (p : Pid)
  | device
  deriving DecidableEq

/-- The atomic operations. -/
inductive Op (Buf : Type) where
  | lockBuf (b : Buf)
  | unlockBuf (b : Buf)
  | acquire
  | release
  | sector (b : Buf)
  | allocDesc
  | freeDesc (i : Nat)
  | setDesc (i : Nat) (d : VRingDesc Buf)
  | clearStatus (i : Nat)
  | setInfo (i : Nat) (b : Buf)
  | setAvail (i : Nat)
  | bumpAvail (b : Buf) (head data status : Nat)
  | isBusy (b : Buf)
  | clearInfo (i : Nat)
  | nextDesc (i : Nat)
  | hasUsed
  | usedElem
  | status (id : Nat)
  | finish (id : Nat)
  | panic (message : String)
  | take
  | serve (k : Nat)
  | append (k : Nat)

/-- What each operation returns. -/
abbrev Res {Buf : Type} : Op Buf → Type
  | .sector _ => Nat
  | .allocDesc => Option Nat
  | .isBusy _ => Bool
  | .nextDesc _ => Option Nat
  | .hasUsed => Bool
  | .usedElem => Nat
  | .status _ => BitVec 8
  | _ => Unit

variable {Pid Buf : Type}

namespace State

/-- Write to memory at an address: only the status bytes are modelled. -/
def poke (s : State Pid Buf) (addr : Addr Buf) (value : BitVec 8) : State Pid Buf :=
  match addr with
  | .status i => { s with info := update s.info i { s.info i with status := value } }
  | _ => s

/-- `free_desc`, behind its checks. -/
def freeDesc (s : State Pid Buf) (i : Nat) : State Pid Buf :=
  { s with
    desc := update s.desc i { s.desc i with addr := .null }
    free := update s.free i true }

/-- The last descriptor of the chain of three that starts at `head`, as the device follows it. -/
def chainEnd (s : State Pid Buf) (head : Nat) : Nat := (s.desc (s.desc head).next.toNat).next.toNat

end State

variable [DecidableEq Pid] [DecidableEq Buf]

/-- The operations of the driver, performed by process `p`. -/
def execProc (p : Pid) : (o : Op Buf) → State Pid Buf → Outcome (State Pid Buf) (Res o)
  | .lockBuf b, s =>
    match s.bufLock b with
    | none => .done () { s with bufLock := update s.bufLock b (some p) }
    | some _ => .blocked
  | .unlockBuf b, s => .done () { s with bufLock := update s.bufLock b none }
  | .acquire, s =>
    match s.lock with
    | none => .done () { s with lock := some p }
    | some q => if q = p then .panic "acquire" else .blocked
  | .release, s => if s.lock = some p then .done () { s with lock := none } else .panic "release"
  | .sector b, s => .done (s.blockno b * (BSIZE / 512) % 2 ^ 32) s
  | .allocDesc, s =>
    match (List.range NUM).find? s.free with
    | some i => .done (some i) { s with free := update s.free i false }
    | none => .done none s
  | .freeDesc i, s =>
    if NUM ≤ i then .panic "virtio_disk_intr 1"
    else if s.free i then .panic "virtio_disk_intr 2"
    else .done () (s.freeDesc i)
  | .setDesc i d, s => .done () { s with desc := update s.desc i d }
  | .clearStatus i, s => .done () (s.poke (.status i) 0)
  | .setInfo i b, s =>
    .done () { s with
        disk := update s.disk b true
        info := update s.info i { s.info i with b := some b } }
  | .setAvail i, s => .done () { s with avail := update s.avail (Ring.slot NUM s.availIdx) i }
  | .bumpAvail b head data status, s =>
    .done () { s with
        availIdx := s.availIdx + 1
        requests := s.requests ++ [(head, b)]
        request := update s.request p (some ⟨s.requests.length, b, head, data, status⟩) }
  | .isBusy b, s => .done (s.disk b) s
  | .clearInfo i, s =>
    .done () { s with
        info := update s.info i { s.info i with b := none }
        request := update s.request p none }
  | .nextDesc i, s =>
    .done
      (if (s.desc i).flags &&& VRING_DESC_F_NEXT ≠ 0 then some (s.desc i).next.toNat else none) s
  | .hasUsed, s => .done (s.usedIdx.toNat % NUM ≠ s.usedId.toNat % NUM) s
  | .usedElem, s => .done (s.usedElems (Ring.slot NUM s.usedIdx)) s
  | .status id, s => .done (s.info id).status s
  | .finish id, s =>
    match (s.info id).b with
    | some b =>
      .done () { s with
          disk := update s.disk b false
          usedIdx := BitVec.ofNat 16 ((s.usedIdx.toNat + 1) % NUM)
          cleared := s.cleared ++
            [⟨id, ((s.completed[s.cleared.length]?).map Prod.snd).getD 0, b⟩] }
    | none => .panic "info[id].b"
  | .panic message, _ => .panic message
  | _, _ => .blocked

/-- The operations of the device; `value` is the status that it reports. -/
def execDevice (value : BitVec 8) : (o : Op Buf) → State Pid Buf → Outcome (State Pid Buf) (Res o)
  | .take, s =>
    if s.lastAvail = s.availIdx then .blocked
    else
      let head := s.avail (Ring.slot NUM s.lastAvail)
      .done () { s with
          lastAvail := s.lastAvail + 1
          serving := s.serving ++ [(head, s.taken.length)]
          taken := s.taken ++ [head] }
  | .serve k, s =>
    match s.serving[k]? with
    | some chain =>
      .done () { s.poke (s.desc (s.chainEnd chain.1)).addr value with
          serving := s.serving.eraseIdx k
          served := s.served ++ [chain] }
    | none => .blocked
  | .append k, s =>
    match s.served[k]? with
    | some chain =>
      .done () { s with
          usedElems := update s.usedElems (Ring.slot NUM s.usedId) chain.1
          usedId := s.usedId + 1
          served := s.served.eraseIdx k
          completed := s.completed ++ [chain] }
    | none => .blocked
  | _, _ => .blocked

/-- Perform an operation. -/
def exec (a : Agent Pid) (value : BitVec 8) (o : Op Buf) (s : State Pid Buf) :
    Outcome (State Pid Buf) (Res o) :=
  match a with
  | .proc p => execProc p o s
  | .device => execDevice value o s

/-! ### The code -/

/-- Programs of one agent. -/
abbrev Code (Buf : Type) := Prog (Op Buf) Res

/-- Where an agent stands between two calls: outside the driver; in `virtio_disk_rw` at the head of
the loop that allocates descriptors, at the head of the loop that waits for the device, or in
`free_chain` at descriptor `i`; at the head of the loop of `virtio_disk_intr`; or the device. -/
inductive Label (Buf : Type) where
  | out
  | alloc (b : Buf) (write : Bool) (sector : Nat)
  | waiting (b : Buf) (head : Nat)
  | freeing (b : Buf) (i : Nat)
  | intr
  | device

/-- `alloc3_desc`, with its loops unrolled. -/
def alloc3Desc : Code Buf (Option (Nat × Nat × Nat)) := do
  match ← perform Op.allocDesc with
  | none => pure none
  | some i₀ =>
    match ← perform Op.allocDesc with
    | none =>
      perform (Op.freeDesc i₀)
      pure none
    | some i₁ =>
      match ← perform Op.allocDesc with
      | none =>
        perform (Op.freeDesc i₀)
        perform (Op.freeDesc i₁)
        pure none
      | some i₂ => pure (some (i₀, i₁, i₂))

/-- The descriptor of the header. -/
def headerDesc (write : Bool) (sector data : Nat) : VRingDesc Buf where
  addr := .header write sector
  len := 16
  flags := VRING_DESC_F_NEXT
  next := BitVec.ofNat 16 data

/-- The descriptor of the data. -/
def dataDesc (b : Buf) (write : Bool) (status : Nat) : VRingDesc Buf where
  addr := .data b
  len := BSIZE
  flags := (if write then 0 else VRING_DESC_F_WRITE) ||| VRING_DESC_F_NEXT
  next := BitVec.ofNat 16 status

/-- The descriptor of the status. -/
def statusDesc (head : Nat) : VRingDesc Buf where
  addr := .status head
  len := 1
  flags := VRING_DESC_F_WRITE
  next := 0

/-- `virtio_disk_rw`, from the formatting of the descriptors to the notification of the device. -/
def submit (b : Buf) (write : Bool) (sector i₀ i₁ i₂ : Nat) : Code Buf (Label Buf) := do
  perform (Op.setDesc i₀ (headerDesc write sector i₁))
  perform (Op.setDesc i₁ (dataDesc b write i₂))
  perform (Op.clearStatus i₀)
  perform (Op.setDesc i₂ (statusDesc i₀))
  perform (Op.setInfo i₀ b)
  perform (Op.setAvail i₀)
  perform (Op.bumpAvail b i₀ i₁ i₂)
  pure (.waiting b i₀)

/-- One round of the loop that allocates descriptors; `sleep` releases the lock and takes it
again. -/
def rwAlloc (b : Buf) (write : Bool) (sector : Nat) : Code Buf (Label Buf) := do
  match ← alloc3Desc with
  | some (i₀, i₁, i₂) => submit b write sector i₀ i₁ i₂
  | none =>
    perform Op.release
    perform Op.acquire
    pure (.alloc b write sector)

/-- One round of the loop that waits for the device. -/
def rwWait (b : Buf) (head : Nat) : Code Buf (Label Buf) := do
  let busy ← perform (Op.isBusy b)
  if busy then
    perform Op.release
    perform Op.acquire
    pure (.waiting b head)
  else
    perform (Op.clearInfo head)
    pure (.freeing b head)

/-- One round of the loop of `free_chain`, and the end of `virtio_disk_rw`. -/
def rwFree (b : Buf) (i : Nat) : Code Buf (Label Buf) := do
  perform (Op.freeDesc i)
  match ← perform (Op.nextDesc i) with
  | some j => pure (.freeing b j)
  | none =>
    perform Op.release
    perform (Op.unlockBuf b)
    pure .out

/-- One round of the loop of `virtio_disk_intr`. -/
def intrRound : Code Buf (Label Buf) := do
  let more ← perform Op.hasUsed
  if more then
    let id ← perform Op.usedElem
    let status ← perform (Op.status id)
    if status ≠ 0 then
      perform (Op.panic "virtio_disk_intr status")
      pure .intr
    else
      perform (Op.finish id)
      pure .intr
  else
    perform Op.release
    pure .out

/-- What an agent does next. -/
inductive Call (Buf : Type) where
  | rw (b : Buf) (write : Bool)
  | intr
  | goOn
  | take
  | serve (k : Nat)
  | append (k : Nat)

/-- The code of each call. -/
def code : Label Buf → Call Buf → Option (Code Buf (Label Buf))
  | .out, .rw b write => some do
      perform (Op.lockBuf b)
      let sector ← perform (Op.sector b)
      perform Op.acquire
      pure (.alloc b write sector)
  | .out, .intr => some do
      perform Op.acquire
      pure .intr
  | .alloc b write sector, .goOn => some (rwAlloc b write sector)
  | .waiting b head, .goOn => some (rwWait b head)
  | .freeing b i, .goOn => some (rwFree b i)
  | .intr, .goOn => some intrRound
  | .device, .take => some do
      perform Op.take
      pure .device
  | .device, .serve k => some do
      perform (Op.serve k)
      pure .device
  | .device, .append k => some do
      perform (Op.append k)
      pure .device
  | _, _ => none

/-- The driver and the device. -/
def machine (Pid Buf : Type) [DecidableEq Pid] [DecidableEq Buf] :
    Machine (Agent Pid) (Op Buf) Res (State Pid Buf) (Label Buf) (Call Buf) (BitVec 8) where
  silent := fun _ => false
  exec := exec
  code := fun _ => code

/-- The state that `virtio_disk_init` leaves. -/
def initial (blockno : Buf → Nat) : State Pid Buf where
  lock := none
  desc := fun _ => ⟨.null, 0, 0, 0⟩
  avail := fun _ => 0
  availIdx := 0
  usedElems := fun _ => 0
  usedId := 0
  free := fun i => i < NUM
  usedIdx := 0
  info := fun _ => ⟨none, 0⟩
  disk := fun _ => false
  blockno := blockno
  bufLock := fun _ => none
  lastAvail := 0
  serving := []
  served := []
  requests := []
  taken := []
  completed := []
  cleared := []
  request := fun _ => none

/-- The disk when no process uses it yet. -/
def start (blockno : Buf → Nat) : Config (Agent Pid) (Op Buf) Res (State Pid Buf) (Label Buf) where
  state := initial blockno
  prog
    | .proc _ => .ret .out
    | .device => .ret .device
  panicked := none

end Xv6.Virtio
