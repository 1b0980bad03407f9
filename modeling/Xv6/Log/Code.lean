import Xv6.Param

/-!
# The redo log of `kernel/log.c`

The log's header block and the code that copies blocks between the cache, the log area and
their home locations: `writeHead`, `readHead`, `writeLog`, `installTrans`,
`recoverFromLog` and `commit`. The code is written once, against the operations of
`LogBuffers`, because it is run in two ways: alone against a disk that may stop between any two
writes (`Xv6.Log.Crash`), and interleaved with other processes over the buffer cache of
`kernel/bio.c` (`Xv6.Log.System`).
-/

namespace Xv6.Log

/-- `struct logheader`: the block numbers `block[0..n)`, which fit in its array. -/
structure LogHeader where
  block : List Nat
  fits : block.length ≤ LOGSIZE
  deriving DecidableEq

namespace LogHeader

/-- The header with `n = 0`. -/
def empty : LogHeader := ⟨[], Nat.zero_le _⟩

/-- Store a block number behind the last one, if the array has room for it. -/
def push (lh : LogHeader) (blockno : Nat) : Option LogHeader :=
  if h : lh.block.length < LOGSIZE then
    some ⟨lh.block ++ [blockno], by simp only [List.length_append, List.length_singleton]; omega⟩
  else none

/-- Store the block numbers `blocks` in the header block from index `i` on. -/
def putBlocks (b : Block) : Nat → List Nat → Block
  | _, [] => b
  | i, blockno :: blocks => putBlocks (b.writeLE 4 (4 + 4 * i) blockno) (i + 1) blocks

/-- Write `n` and `block[0..n)` over the start of a header block; the rest stays as it is. -/
def encode (lh : LogHeader) (b : Block) : Block :=
  putBlocks (b.writeLE 4 0 lh.block.length) 0 lh.block

/-- The field `n` of a header block. -/
def diskN (b : Block) : Int := int32 (b.readLE 4 0)

/-- Read `n` and `block[0..n)` from a header block, if they fit in `struct logheader`. -/
def decode (b : Block) : Option LogHeader :=
  if h : (diskN b).toNat ≤ LOGSIZE then
    some ⟨(List.range (diskN b).toNat).map fun i => b.readLE 4 (4 + 4 * i), by simpa using h⟩
  else none

end LogHeader

/-- What `log.c` is written against: the buffers of one device, and the in-memory `log.lh`.
`overrun` is what happens when an index leaves `lh.block`. -/
class LogBuffers (M : Type → Type) (Buf : outParam Type) where
  bread : Nat → M Buf
  data : Buf → M Block
  setData : Buf → Block → M Unit
  bwrite : Buf → M Unit
  brelse : Buf → M Unit
  bunpin : Buf → M Unit
  lh : M LogHeader
  setLh : LogHeader → M Unit
  overrun : M Unit

open LogBuffers List

variable {M : Type → Type} {Buf : Type} [Monad M] [LogBuffers M Buf]

/-- The loop of `install_trans` from index `tail` on. `fuel` bounds the rounds: `lh.block` has
`LOGSIZE` entries, so `LOGSIZE + 1` tests of the loop condition always suffice. -/
def installTransFrom (start : Nat) : (fuel tail : Nat) → M Unit
  | 0, _ => pure ()
  | fuel + 1, tail => do
      let header ← lh
      match header.block[tail]? with
      | none => pure ()
      | some home => do
          let lbuf ← bread (start + tail + 1)
          let dbuf ← bread home
          let contents ← data lbuf
          setData dbuf contents
          bwrite dbuf
          bunpin dbuf
          brelse lbuf
          brelse dbuf
          installTransFrom start fuel (tail + 1)

/-- Copy committed blocks from log to their home location. -/
def installTrans (start : Nat) : M Unit := installTransFrom start (LOGSIZE + 1) 0

/-- Read the log header from disk into the in-memory log header. -/
def readHead (start : Nat) : M Unit := do
  let buf ← bread start
  let contents ← data buf
  match LogHeader.decode contents with
  | some header => setLh header
  | none => overrun
  brelse buf

/-- Write in-memory log header to disk. -/
def writeHead (start : Nat) : M Unit := do
  let buf ← bread start
  let contents ← data buf
  let header ← lh
  setData buf (header.encode contents)
  bwrite buf
  brelse buf

/-- Replay a committed transaction after a crash, then clear the log. -/
def recoverFromLog (start : Nat) : M Unit := do
  readHead start
  installTrans start
  setLh .empty
  writeHead start

/-- The loop of `write_log` from index `tail` on. -/
def writeLogFrom (start : Nat) : (fuel tail : Nat) → M Unit
  | 0, _ => pure ()
  | fuel + 1, tail => do
      let header ← lh
      match header.block[tail]? with
      | none => pure ()
      | some home => do
          let toBuf ← bread (start + tail + 1)
          let fromBuf ← bread home
          let contents ← data fromBuf
          setData toBuf contents
          bwrite toBuf
          brelse fromBuf
          brelse toBuf
          writeLogFrom start fuel (tail + 1)

/-- Copy modified blocks from cache to log. -/
def writeLog (start : Nat) : M Unit := writeLogFrom start (LOGSIZE + 1) 0

/-- Commit the transaction in the in-memory header, if it logged anything. -/
def commit (start : Nat) : M Unit := do
  let header ← lh
  if 0 < header.block.length then
    writeLog start
    writeHead start
    installTrans start
    setLh .empty
    writeHead start
  else pure ()

namespace LogHeader

@[simp] theorem block_empty : empty.block = [] := rfl

theorem eq_empty {lh : LogHeader} (h : lh.block = []) : lh = empty := by
  obtain ⟨block, fits⟩ := lh
  subst h
  rfl

theorem LOGSIZE_words : 4 + 4 * LOGSIZE ≤ BSIZE := by decide

/-- A word of the header block below the stored numbers is untouched. -/
theorem readLE_putBlocks_before (b : Block) (i : Nat) (blocks : List Nat) {off : Nat}
    (h : off + 4 ≤ 4 + 4 * i) : (putBlocks b i blocks).readLE 4 off = b.readLE 4 off := by
  induction blocks generalizing b i with
  | nil => rfl
  | cons blockno blocks ih =>
    rw [putBlocks, ih _ _ (by omega)]
    exact Bytes.Buffer.readLE_writeLE_other b blockno (by omega)

theorem readLE_putBlocks_at (b : Block) (i : Nat) (blocks : List Nat)
    (hfits : i + blocks.length ≤ LOGSIZE) (hword : ∀ x ∈ blocks, x < 2 ^ 32) {j : Nat}
    (hj : j < blocks.length) :
    (putBlocks b i blocks).readLE 4 (4 + 4 * (i + j)) = blocks[j] := by
  induction blocks generalizing b i j with
  | nil => cases hj
  | cons blockno blocks ih =>
    simp only [length_cons] at hfits hj
    rw [putBlocks]
    cases j with
    | zero =>
      have hroom : 4 + 4 * i + 4 ≤ BSIZE := by
        have := LOGSIZE_words
        omega
      have hblock : blockno < 2 ^ 32 := hword blockno mem_cons_self
      rw [readLE_putBlocks_before _ _ _ (by omega), add_zero,
        Bytes.Buffer.readLE_writeLE_same b blockno hroom, getElem_cons_zero]
      omega
    | succ j =>
      have hrest := ih (b.writeLE 4 (4 + 4 * i) blockno) (i + 1) (by omega)
        (fun x hx => hword x (mem_cons_of_mem _ hx)) (j := j) (by omega)
      rw [show i + (j + 1) = i + 1 + j by omega, hrest]
      rfl

/-- The header block that `encode` writes holds the number of logged blocks. -/
theorem diskN_encode (lh : LogHeader) (b : Block) : diskN (lh.encode b) = lh.block.length := by
  have hfits := lh.fits
  have hsmall : LOGSIZE = 30 := rfl
  have hread : (b.writeLE 4 0 lh.block.length).readLE 4 0 = lh.block.length % 256 ^ 4 :=
    Bytes.Buffer.readLE_writeLE_same b _ (by decide)
  have hmod : lh.block.length % 256 ^ 4 = lh.block.length := Nat.mod_eq_of_lt (by omega)
  rw [diskN, encode, readLE_putBlocks_before _ _ _ (by omega), hread, hmod, int32_of_lt (by omega)]

theorem decode_encode (lh : LogHeader) (b : Block) (hword : ∀ x ∈ lh.block, x < 2 ^ 32) :
    decode (lh.encode b) = some lh := by
  have hn := diskN_encode lh b
  have hblock : (List.range (diskN (lh.encode b)).toNat).map
      (fun i => (lh.encode b).readLE 4 (4 + 4 * i)) = lh.block := by
    rw [hn, Int.toNat_natCast]
    apply ext_getElem
    · simp
    · intro j hj hj'
      have hat := readLE_putBlocks_at (b.writeLE 4 0 lh.block.length) 0 lh.block
        (by simpa using lh.fits) hword hj'
      simpa [encode] using hat
  have hfits : (diskN (lh.encode b)).toNat ≤ LOGSIZE := by
    rw [hn]
    exact lh.fits
  simp only [decode, dif_pos hfits, hblock]

theorem decode_of_diskN_eq_zero {b : Block} (h : diskN b = 0) : decode b = some empty := by
  simp [decode, h, empty]

end LogHeader

end Xv6.Log
