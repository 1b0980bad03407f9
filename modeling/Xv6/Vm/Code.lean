import Xv6.Vm.Layout
import Xv6.Interleave.Prog
import Mathlib.Data.List.FinRange

/-!
# Physical pages and page tables

The page allocator of `kernel/kalloc.c`, the page tables of `kernel/vm.c`, and the parts of
`kernel/proc.c` and `kernel/exec.c` that build, change and free the memory of a process. Memory is
used a page at a time, so it is given by the contents of the page at each page address; the free
list is linked through the first word of its pages, as the code has it.

An operation is one call of `kalloc` or `kfree`, whose critical sections are the only ones, or one
access to a page. Other processors allocate and free pages at the same time. What this can do to a
caller of `kalloc` is that it finds the list empty although it was not, so `short` says for the
following calls which of them find no page.
-/

namespace Xv6.Vm

open Interleave Bytes
open Prog (perform)

/-! ### State and operations -/

/-- Physical memory and the list of free pages. -/
structure Memory where
  page : Addr → Page
  /-- `kmem.freelist`. -/
  freelist : Addr
  short : List Bool

/-- `r->next`: the word at the start of a free page. -/
def Page.next (page : Page) : Addr := BitVec.ofNat 64 (page.readLE 8 0)

/-- Set `r->next`. -/
def Page.setNext (page : Page) (next : Addr) : Page := page.writeLE 8 0 next.toNat

namespace Memory

/-- Change the page at `pa`. -/
def setPage (s : Memory) (pa : Addr) (page : Page) : Memory :=
  { s with page := Function.update s.page pa page }

/-- Take the first page off the free list, if there is one. -/
def take (s : Memory) : Addr × Memory :=
  let r := s.freelist
  if r = 0 then (0, s)
  else (r, { s.setPage r (.fill 5) with freelist := (s.page r).next })

/-- Put a page onto the free list. -/
def put (s : Memory) (pa : Addr) : Memory :=
  { s.setPage pa ((Page.fill 1).setNext s.freelist) with freelist := pa }

end Memory

/-- The atomic operations. -/
inductive Op where
  | kalloc
  | kfree (pa : Addr)
  | read (pa : Addr)
  | modify (pa : Addr) (f : Page → Page)
  | panic (message : String)

/-- What each operation returns. -/
abbrev Res : Op → Type
  | .kalloc => Addr
  | .read _ => Page
  | .panic _ => Empty
  | _ => Unit

/-- Perform an operation. -/
def exec (K : Kernel) : (o : Op) → Memory → Outcome Memory (Res o)
  | .kalloc, s =>
    match s.short with
    | [] => .done s.take.1 s.take.2
    | false :: rest => .done s.take.1 { s.take.2 with short := rest }
    | true :: rest => .done (0 : Addr) { s with short := rest }
  | .kfree pa, s =>
    if Freeable K pa then .done () (s.put pa) else .panic "kfree"
  | .read pa, s => .done (s.page pa) s
  | .modify pa f, s => .done () (s.setPage pa (f (s.page pa)))
  | .panic message, _ => .panic message

/-- Kernel code that works on memory. -/
abbrev Code := Prog Op Res

/-- Stop the machine. -/
def stop {α : Type} (message : String) : Code α := .op (.panic message) nofun

/-! ### Pages -/

/-- Allocate one page of physical memory; 0 if there is none. -/
def kalloc : Code Addr := perform Op.kalloc

/-- Free the page of physical memory at `pa`. -/
def kfree (pa : Addr) : Code Unit := perform (Op.kfree pa)

/-- Set every byte of a page. -/
def memset (pa : Addr) (c : UInt8) : Code Unit := perform (Op.modify pa fun _ => Page.fill c)

/-- Copy a page. -/
def memmove (dst src : Addr) : Code Unit := do
  let page ← perform (Op.read src)
  perform (Op.modify dst fun _ => page)

/-- A pointer to an entry of a page-table page. -/
structure PtePtr where
  table : Addr
  index : Fin 512

/-- `*pte`. -/
def load (pte : PtePtr) : Code Pte := do
  let page ← perform (Op.read pte.table)
  pure (page.pte pte.index)

/-- Assign `*pte`. -/
def store (pte : PtePtr) (value : Pte) : Code Unit :=
  perform (Op.modify pte.table fun page => page.setPte pte.index value)

/-! ### Page tables -/

/-- The loop of `walk` from a page-table page of a level down. -/
def walkFrom (alloc : Bool) (va : Addr) : (level : Nat) → (pagetable : Addr) → Code (Option PtePtr)
  | 0, pagetable => pure (some ⟨pagetable, PX 0 va⟩)
  | level + 1, pagetable => do
      let pte ← load ⟨pagetable, PX (level + 1) va⟩
      if pte &&& PTE_V ≠ 0 then walkFrom alloc va level (PTE2PA pte)
      else if alloc then
        let page ← kalloc
        if page = 0 then pure none
        else
          memset page 0
          store ⟨pagetable, PX (level + 1) va⟩ (PA2PTE page ||| PTE_V)
          walkFrom alloc va level page
      else pure none

/-- The address of the entry for a virtual address; with `alloc`, missing tables are created. -/
def walk (pagetable va : Addr) (alloc : Bool) : Code (Option PtePtr) :=
  if va < MAXVA then walkFrom alloc va 2 pagetable else stop "walk"

/-- Look up a virtual address of user memory: the physical address, or 0 if it is not mapped. -/
def walkaddr (pagetable va : Addr) : Code Addr :=
  if va < MAXVA then do
    match ← walk pagetable va false with
    | none => pure 0
    | some ptr =>
      let pte ← load ptr
      if pte &&& PTE_V = 0 then pure 0
      else if pte &&& PTE_U = 0 then pure 0
      else pure (PTE2PA pte)
  else pure 0

/-- The loop of `mappages` from address `a` on. `fuel` bounds the rounds. -/
def mappagesFrom (pagetable last : Addr) (perm : Pte) : (fuel : Nat) → (a pa : Addr) → Code Int
  | 0, _, _ => pure 0
  | fuel + 1, a, pa => do
      match ← walk pagetable a true with
      | none => pure (-1)
      | some ptr =>
        let pte ← load ptr
        if pte &&& PTE_V ≠ 0 then stop "remap"
        else
          store ptr (PA2PTE pa ||| perm ||| PTE_V)
          if a = last then pure 0
          else mappagesFrom pagetable last perm fuel (a + 4096#64) (pa + 4096#64)

/-- The number of rounds of a loop over the pages from `a` to `last`. -/
def rounds (a last : Addr) : Nat := (last - a).toNat / PGSIZE + 1

/-- Create entries for the virtual addresses from `va` on that refer to the physical addresses from
`pa` on; -1 if a page-table page could not be allocated. -/
def mappages (pagetable va size pa : Addr) (perm : Pte) : Code Int :=
  let a := PGROUNDDOWN va
  let last := PGROUNDDOWN (va + size - 1#64)
  mappagesFrom pagetable last perm (rounds a last) a pa

/-- The loop of `uvmunmap` from address `a` on. -/
def uvmunmapFrom (pagetable last : Addr) (doFree : Bool) : (fuel : Nat) → (a : Addr) → Code Unit
  | 0, _ => pure ()
  | fuel + 1, a => do
      match ← walk pagetable a false with
      | none => stop "uvmunmap: walk"
      | some ptr =>
        let pte ← load ptr
        if pte &&& PTE_V = 0 then stop "uvmunmap: not mapped"
        else if PTE_FLAGS pte = PTE_V then stop "uvmunmap: not a leaf"
        else
          if doFree then kfree (PTE2PA pte) else pure ()
          store ptr 0
          if a = last then pure ()
          else uvmunmapFrom pagetable last doFree fuel (a + 4096#64)

/-- Remove mappings from a page table; they must exist. -/
def uvmunmap (pagetable va size : Addr) (doFree : Bool) : Code Unit :=
  let a := PGROUNDDOWN va
  let last := PGROUNDDOWN (va + size - 1#64)
  uvmunmapFrom pagetable last doFree (rounds a last) a

/-- Create an empty user page table. -/
def uvmcreate : Code Addr := do
  let pagetable ← kalloc
  if pagetable = 0 then stop "uvmcreate: out of memory"
  else
    memset pagetable 0
    pure pagetable

/-- The flags of user memory. -/
def userFlags : Pte := PTE_W ||| PTE_X ||| PTE_R ||| PTE_U

/-- Deallocate user pages to bring the process size from `oldsz` to `newsz`; the new size. -/
def uvmdealloc (pagetable oldsz newsz : Addr) : Code Addr :=
  if oldsz ≤ newsz then pure oldsz
  else do
    let newup := PGROUNDUP newsz
    if newup < PGROUNDUP oldsz then uvmunmap pagetable newup (oldsz - newup) true else pure ()
    pure newsz

/-- One round of the loop of `uvmalloc`: a zeroed page at address `a`. -/
def uvmallocPage (pagetable a : Addr) : Code Bool := do
  let mem ← kalloc
  if mem = 0 then pure false
  else
    memset mem 0
    let r ← mappages pagetable a 4096#64 mem userFlags
    if r ≠ 0 then
      kfree mem
      pure false
    else pure true

/-- The loop of `uvmalloc` from address `a` on, with the rounded old size `oldsz`. -/
def uvmallocFrom (pagetable oldsz newsz : Addr) : (fuel : Nat) → (a : Addr) → Code Addr
  | 0, _ => pure newsz
  | fuel + 1, a =>
    if a < newsz then do
      if ← uvmallocPage pagetable a then uvmallocFrom pagetable oldsz newsz fuel (a + 4096#64)
      else
        let _ ← uvmdealloc pagetable a oldsz
        pure 0
    else pure newsz

/-- Grow a process from `oldsz` to `newsz`: the new size, or 0 on error. -/
def uvmalloc (pagetable oldsz newsz : Addr) : Code Addr :=
  if newsz < oldsz then pure oldsz
  else
    uvmallocFrom pagetable (PGROUNDUP oldsz) newsz (newsz.toNat / PGSIZE + 2) (PGROUNDUP oldsz)

/-- Run `body` on each element in turn. -/
def forEach {β : Type} : List β → (β → Code Unit) → Code Unit
  | [], _ => pure ()
  | x :: rest, body => do
      body x
      forEach rest body

theorem forEach_nil {β : Type} (body : β → Code Unit) : forEach [] body = pure () := rfl

theorem forEach_cons {β : Type} (x : β) (rest : List β) (body : β → Code Unit) :
    forEach (x :: rest) body = (body x >>= fun _ => forEach rest body) := rfl

-- Loops over long lists are not to be run by unfolding.
attribute [irreducible] forEach

/-- A round of the loop of `freewalk`; `below` frees the table that an entry leads to. -/
def freewalkEntry (below : Addr → Code Unit) (pagetable : Addr) (i : Fin 512) : Code Unit := do
  let pte ← load ⟨pagetable, i⟩
  if pte &&& PTE_V ≠ 0 ∧ pte &&& (PTE_R ||| PTE_W ||| PTE_X) = 0 then
    below (PTE2PA pte)
    store ⟨pagetable, i⟩ 0
  else if pte &&& PTE_V ≠ 0 then stop "freewalk: leaf"
  else pure ()

/-- Free the page-table pages of a table and of the tables below it. `depth` bounds the levels of
the tables: `walk` makes no more than three. -/
def freewalk : (depth : Nat) → (pagetable : Addr) → Code Unit
  | 0, _ => stop "freewalk: depth"
  | depth + 1, pagetable => do
      forEach (List.finRange 512) (freewalkEntry (freewalk depth) pagetable)
      kfree pagetable

/-- Free user memory pages, then free page-table pages. -/
def uvmfree (pagetable sz : Addr) : Code Unit := do
  uvmunmap pagetable 0 sz true
  freewalk 4 pagetable

/-- One round of the loop of `uvmcopy`; `false` at its `goto err`. -/
def uvmcopyPage (old new i : Addr) : Code Bool := do
  match ← walk old i false with
  | none => stop "uvmcopy: pte should exist"
  | some ptr =>
    let pte ← load ptr
    if pte &&& PTE_V = 0 then stop "uvmcopy: page not present"
    else
      let mem ← kalloc
      if mem = 0 then pure false
      else
        memmove mem (PTE2PA pte)
        let r ← mappages new i 4096#64 mem (PTE_FLAGS pte)
        if r ≠ 0 then
          kfree mem
          pure false
        else pure true

/-- The loop of `uvmcopy` from address `i` on. -/
def uvmcopyFrom (old new sz : Addr) : (fuel : Nat) → (i : Addr) → Code Int
  | 0, _ => pure 0
  | fuel + 1, i =>
    if i < sz then do
      if ← uvmcopyPage old new i then uvmcopyFrom old new sz fuel (i + 4096#64)
      else
        uvmunmap new 0 i true
        pure (-1)
    else pure 0

/-- Copy a parent's memory into a child's page table. -/
def uvmcopy (old new sz : Addr) : Code Int := uvmcopyFrom old new sz (sz.toNat / PGSIZE + 2) 0

/-- Mark an entry invalid for user access. -/
def uvmclear (pagetable va : Addr) : Code Unit := do
  match ← walk pagetable va false with
  | none => stop "uvmclear"
  | some ptr =>
    let pte ← load ptr
    store ptr (pte &&& ~~~PTE_U)

/-- The loop of `copyout` with `done` of the `len` bytes copied. -/
def copyoutFrom (pagetable : Addr) (bytes : Nat → Nat) (len : Nat) :
    (fuel : Nat) → (dstva : Addr) → (done : Nat) → Code Bool
  | 0, _, _ => pure true
  | fuel + 1, dstva, done =>
    if done < len then do
      let va0 := PGROUNDDOWN dstva
      let pa0 ← walkaddr pagetable va0
      if pa0 = 0 then pure false
      else
        let off := (dstva - va0).toNat
        let n := min (PGSIZE - off) (len - done)
        perform (Op.modify pa0 fun page => page.splice off n fun k => bytes (done + k))
        copyoutFrom pagetable bytes len fuel (va0 + 4096#64) (done + n)
    else pure true

/-- Copy `len` bytes to a virtual address; whether it succeeded. -/
def copyout (pagetable dstva : Addr) (bytes : Nat → Nat) (len : Nat) : Code Bool :=
  copyoutFrom pagetable bytes len (len + 1) dstva 0

/-! ### The memory of a process -/

/-- The fields of `struct proc` that describe its memory. -/
structure Proc where
  pagetable : Addr
  sz : Addr
  /-- The page of the trap frame. -/
  tf : Addr

/-- Create a page table for a process, with no user pages but with the trampoline and the trap
frame. The results of `mappages` are not looked at. -/
def procPagetable (K : Kernel) (tf : Addr) : Code Addr := do
  let pagetable ← uvmcreate
  let _ ← mappages pagetable TRAMPOLINE 4096#64 K.trampoline (PTE_R ||| PTE_X)
  let _ ← mappages pagetable TRAPFRAME 4096#64 tf (PTE_R ||| PTE_W)
  pure pagetable

/-- Free a process's page table and the physical memory it refers to. -/
def procFreepagetable (pagetable sz : Addr) : Code Unit := do
  uvmunmap pagetable TRAMPOLINE 4096#64 false
  uvmunmap pagetable TRAPFRAME 4096#64 false
  if 0 < sz then uvmfree pagetable sz else pure ()

/-- The memory that `allocproc` gives to an unused entry of the process table, whose size is 0. -/
def allocproc (K : Kernel) : Code (Option Proc) := do
  let tf ← kalloc
  if tf = 0 then pure none
  else
    let pagetable ← procPagetable K tf
    pure (some ⟨pagetable, 0, tf⟩)

/-- Free the memory of a process. -/
def freeproc (p : Proc) : Code Unit := do
  kfree p.tf
  procFreepagetable p.pagetable p.sz

/-- Grow or shrink user memory by `n` bytes: the value returned, and the process with its new size.
Sizes are 32 bits wide here. -/
def growproc (p : Proc) (n : BitVec 32) : Code (Int × Proc) :=
  let sz : BitVec 32 := p.sz.setWidth 32
  if 0 < n.toInt then do
    let r ← uvmalloc p.pagetable (sz.setWidth 64) ((sz + n).setWidth 64)
    let sz : BitVec 32 := r.setWidth 32
    if sz = 0 then pure (-1, p) else pure (0, { p with sz := sz.setWidth 64 })
  else if n.toInt < 0 then do
    let r ← uvmdealloc p.pagetable (sz.setWidth 64) ((sz + n).setWidth 64)
    let sz : BitVec 32 := r.setWidth 32
    pure (0, { p with sz := sz.setWidth 64 })
  else pure (0, { p with sz := sz.setWidth 64 })

/-- The system call `sbrk`: the old break, or -1. -/
def sysSbrk (p : Proc) (n : BitVec 32) : Code (BitVec 64 × Proc) := do
  let addr : BitVec 32 := p.sz.setWidth 32
  let (r, p) ← growproc p n
  if r < 0 then pure (-1, p) else pure (addr.signExtend 64, p)

/-- The size of `struct trapframe`. -/
def trapframeSize : Nat := 288

/-- `*(np->tf) = *(p->tf)` and `np->tf->a0 = 0`. -/
def copyTrapframe (np p : Proc) : Code Unit := do
  let tf ← perform (Op.read p.tf)
  perform (Op.modify np.tf fun page => (page.splice 0 trapframeSize tf.byte).writeLE 8 112 0)

/-- The memory that `fork` gives to the child of `p`, if it succeeds. -/
def fork (K : Kernel) (p : Proc) : Code (Option Proc) := do
  match ← allocproc K with
  | none => pure none
  | some np =>
    let r ← uvmcopy p.pagetable np.pagetable p.sz
    if r < 0 then
      freeproc np
      pure none
    else
      copyTrapframe np p
      pure (some { np with sz := p.sz })

/-! ### exec -/

/-- The fields of `struct proghdr` that `exec` reads. -/
structure Proghdr where
  type : BitVec 32
  off : BitVec 64
  vaddr : BitVec 64
  filesz : BitVec 64
  memsz : BitVec 64

def ELF_PROG_LOAD : BitVec 32 := 1

/-- What a `readi` into memory does: whether it reads all, and the bytes it stores. -/
structure FileRead where
  ok : Bool
  stored : Nat
  bytes : Nat → Nat

/-- An executable file as `exec` sees it: the entry point and program headers, the last of which may
be cut off, and the results of reading at an offset. -/
structure Executable where
  entry : BitVec 64
  phdrs : List (Option Proghdr)
  read : BitVec 32 → BitVec 32 → FileRead

/-- The loop of `loadseg` from offset `i` on. -/
def loadsegFrom (pagetable va : Addr) (read : BitVec 32 → BitVec 32 → FileRead)
    (offset sz : BitVec 32) : (fuel : Nat) → (i : BitVec 32) → Code Bool
  | 0, _ => pure true
  | fuel + 1, i =>
    if i < sz then do
      let pa ← walkaddr pagetable (va + i.setWidth 64)
      if pa = 0 then stop "loadseg: address should exist"
      else
        let n := if sz - i < 4096#32 then sz - i else 4096#32
        let r := read (offset + i) n
        perform (Op.modify pa fun page => page.splice 0 (min r.stored n.toNat) r.bytes)
        if r.ok then loadsegFrom pagetable va read offset sz fuel (i + 4096#32)
        else pure false
    else pure true

/-- Load a program segment into a page table at a page-aligned virtual address. -/
def loadseg (pagetable va : Addr) (read : BitVec 32 → BitVec 32 → FileRead)
    (offset sz : BitVec 32) : Code Bool :=
  loadsegFrom pagetable va read offset sz (sz.toNat / PGSIZE + 2) 0

/-- The loop of `exec` over the program headers: the size of the image, or as an error the value of
`sz` at `goto bad`. -/
def execLoad (pagetable : Addr) (read : BitVec 32 → BitVec 32 → FileRead) :
    List (Option Proghdr) → (sz : Addr) → Code (Except Addr Addr)
  | [], sz => pure (.ok sz)
  | none :: _, sz => pure (.error sz)
  | some ph :: rest, sz =>
    if ph.type ≠ ELF_PROG_LOAD then execLoad pagetable read rest sz
    else if ph.memsz < ph.filesz then pure (.error sz)
    else if ph.vaddr + ph.memsz < ph.vaddr then pure (.error sz)
    else do
      let sz ← uvmalloc pagetable sz (ph.vaddr + ph.memsz)
      if sz = 0 then pure (.error 0)
      else if ph.vaddr.toNat % PGSIZE ≠ 0 then pure (.error sz)
      else if ← loadseg pagetable ph.vaddr read (ph.off.setWidth 32) (ph.filesz.setWidth 32) then
        execLoad pagetable read rest sz
      else pure (.error sz)

def MAXARG : Nat := 32

/-- The loop of `exec` that pushes the argument strings, with the addresses of those pushed already:
the stack pointer and all addresses. -/
def execArgs (pagetable stackbase : Addr) :
    (argv : List (List UInt8)) → (sp : Addr) → (ustack : List Addr) →
      Code (Option (Addr × List Addr))
  | [], sp, ustack => pure (some (sp, ustack))
  | arg :: rest, sp, ustack =>
    if MAXARG ≤ ustack.length then pure none
    else
      let sp := sp - BitVec.ofNat 64 (arg.length + 1)
      let sp := sp - BitVec.ofNat 64 (sp.toNat % 16)
      if sp < stackbase then pure none
      else do
        if ← copyout pagetable sp (fun k => (arg.getD k 0).toNat) (arg.length + 1) then
          execArgs pagetable stackbase rest sp (ustack ++ [sp])
        else pure none

/-- The part of `exec` that pushes the arguments and their addresses; the stack pointer. -/
def execStack (pagetable sz : Addr) (argv : List (List UInt8)) : Code (Option Addr) := do
  let stackbase := sz - 4096#64
  match ← execArgs pagetable stackbase argv sz [] with
  | none => pure none
  | some (sp, ustack) =>
    let sp := sp - BitVec.ofNat 64 ((ustack.length + 1) * 8)
    let sp := sp - BitVec.ofNat 64 (sp.toNat % 16)
    if sp < stackbase then pure none
    else
      let bytes := fun k => (ustack.getD (k / 8) 0).toNat / 256 ^ (k % 8)
      if ← copyout pagetable sp bytes ((ustack.length + 1) * 8) then pure (some sp)
      else pure none

/-- The part of `exec` that builds the image: its page table, its size and the stack pointer, or as
an error the page table and the value of `sz` at `goto bad`. -/
def execBuild (K : Kernel) (tf : Addr) (file : Executable) (argv : List (List UInt8)) :
    Code (Except (Addr × Addr) (Addr × Addr × Addr)) := do
  let pagetable ← procPagetable K tf
  match ← execLoad pagetable file.read file.phdrs 0 with
  | .error sz => pure (.error (pagetable, sz))
  | .ok sz =>
    -- Two pages at the next page boundary: the first one is made inaccessible, the second one is
    -- the user stack.
    let base := PGROUNDUP sz
    let sz ← uvmalloc pagetable base (base + 8192#64)
    if sz = 0 then pure (.error (pagetable, 0))
    else
      uvmclear pagetable (sz - 8192#64)
      match ← execStack pagetable sz argv with
      | none => pure (.error (pagetable, sz))
      | some sp => pure (.ok (pagetable, sz, sp))

/-- The part of `exec` that commits to the new image and frees the old one. -/
def execCommit (p : Proc) (entry : BitVec 64) (pagetable sz sp : Addr) : Code (Option Proc) := do
  perform (Op.modify p.tf fun tf =>
    ((tf.writeLE 8 120 sp.toNat).writeLE 8 24 entry.toNat).writeLE 8 48 sp.toNat)
  procFreepagetable p.pagetable p.sz
  pure (some { p with pagetable := pagetable, sz := sz })

/-- Replace the memory of a process by that of a program whose file header was found good. -/
def execImage (K : Kernel) (p : Proc) (file : Executable) (argv : List (List UInt8)) :
    Code (Option Proc) := do
  match ← execBuild K p.tf file argv with
  | .error (pagetable, sz) =>
    procFreepagetable pagetable sz
    pure none
  | .ok (pagetable, sz, sp) => execCommit p file.entry pagetable sz sp

end Xv6.Vm
