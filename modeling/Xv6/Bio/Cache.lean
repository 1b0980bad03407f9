import Xv6.Param
import Mathlib.Data.List.Basic

/-!
# The buffer cache of `kernel/bio.c`

The cache `bcache` as a value: its `NBUF` buffers and the list that links them, most recently
used first. `bget`, the second half of `brelse`, `bpin` and `bunpin` are the critical
sections under `bcache.lock`, each of them one function here. They compare labels only: the
type `Key` is that of `dev` and `blockno` together, or that of block numbers alone where one
device is mounted. `binit` leaves every buffer labelled with zero.

`Bcache.Ok` is what the cache owes to its users: a buffer in use is the one that a lookup
of its block finds, and its count is the number of references to it.
-/

namespace Xv6

open Function List Option

/-- A buffer, by its index in `bcache.buf`. -/
abbrev BufIdx := Fin NBUF

/-- `struct buf`. `lock` is the process that holds its sleep-lock. -/
structure Buf (Key Proc : Type) where
  blockno : Key
  valid : Bool
  data : Block
  refcnt : UInt32
  lock : Option Proc

/-- The cache: its buffers, and their order in the list from `head.next` on. -/
structure Bcache (Key Proc : Type) where
  buf : BufIdx → Buf Key Proc
  order : List BufIdx

variable {Key Proc : Type}

namespace Bcache

/-- `binit`: zeroed buffers, each linked in at the head of the list. -/
def init [Zero Key] : Bcache Key Proc where
  buf := fun _ => ⟨0, false, Bytes.Buffer.zeros, 0, none⟩
  order := (List.finRange NBUF).reverse

/-- Replace one buffer. -/
def modify (c : Bcache Key Proc) (i : BufIdx) (f : Buf Key Proc → Buf Key Proc) : Bcache Key Proc :=
  { c with buf := update c.buf i (f (c.buf i)) }

/-- The first buffer of the list that is labelled with the block. -/
def lookup [DecidableEq Key] (c : Bcache Key Proc) (blockno : Key) : Option BufIdx :=
  c.order.find? fun i => (c.buf i).blockno == blockno

/-- The least recently used buffer with no references. -/
def victim (c : Bcache Key Proc) : Option BufIdx :=
  c.order.reverse.find? fun i => (c.buf i).refcnt == 0

/-- The critical section of `bget`. It has no result where the source panics. -/
def bget [DecidableEq Key] (c : Bcache Key Proc) (blockno : Key) :
    Option (BufIdx × Bcache Key Proc) :=
  match c.lookup blockno with
  | some i => some (i, c.modify i fun b => { b with refcnt := b.refcnt + 1 })
  | none =>
    match c.victim with
    | some i =>
      some (i, c.modify i fun b => { b with blockno := blockno, valid := false, refcnt := 1 })
    | none => none

/-- The critical section of `brelse`: with the last reference, the buffer moves to the head. -/
def brelse (c : Bcache Key Proc) (i : BufIdx) : Bcache Key Proc :=
  let c' := c.modify i fun b => { b with refcnt := b.refcnt - 1 }
  if (c'.buf i).refcnt == 0 then { c' with order := i :: c'.order.erase i } else c'

/-- Keep a buffer in the cache. -/
def bpin (c : Bcache Key Proc) (i : BufIdx) : Bcache Key Proc :=
  c.modify i fun b => { b with refcnt := b.refcnt + 1 }

/-- Undo `bpin`. -/
def bunpin (c : Bcache Key Proc) (i : BufIdx) : Bcache Key Proc :=
  c.modify i fun b => { b with refcnt := b.refcnt - 1 }

section

variable (c : Bcache Key Proc)
include c

@[simp] theorem buf_modify_self (i : BufIdx) (f : Buf Key Proc → Buf Key Proc) :
    (c.modify i f).buf i = f (c.buf i) := by simp [modify]

theorem buf_modify_of_ne {i j : BufIdx} (f : Buf Key Proc → Buf Key Proc) (h : j ≠ i) :
    (c.modify i f).buf j = c.buf j := by simp [modify, h]

@[simp] theorem order_modify (i : BufIdx) (f : Buf Key Proc → Buf Key Proc) :
    (c.modify i f).order = c.order := rfl

end

end Bcache

/-- A buffer that `binit` left untouched stands for no block; every other one is in use. -/
def Buf.InUse (b : Buf Key Proc) : Prop := b.valid = true ∨ b.refcnt ≠ 0

instance (b : Buf Key Proc) : Decidable b.InUse := inferInstanceAs (Decidable (_ ∨ _))

/-- The cache is in order, and buffer `i` has `count i` references. -/
structure Bcache.Ok [DecidableEq Key] (c : Bcache Key Proc) (count : BufIdx → Nat) : Prop where
  complete : ∀ i, i ∈ c.order
  found : ∀ i, (c.buf i).InUse → c.lookup (c.buf i).blockno = some i
  exact : ∀ i, (c.buf i).refcnt.toNat = count i

/-- A search finds the same element when nothing before it starts to match. -/
theorem find?_eq_some_of_imp {α : Type} {p q : α → Bool} {l : List α} {a : α}
    (h : l.find? p = some a) (hq : q a = true) (himp : ∀ x ∈ l, q x = true → x = a ∨ p x = true) :
    l.find? q = some a := by
  induction l with
  | nil => cases h
  | cons x l ih =>
    by_cases hx : q x = true
    · rcases himp x mem_cons_self hx with rfl | hpx
      · simp [hx]
      · obtain rfl : x = a := by simpa [hpx] using h
        simp [hx]
    · have hpx : p x ≠ true := by
        intro hpx
        obtain rfl : x = a := by simpa [hpx] using h
        exact hx hq
      rw [find?_cons_of_neg hpx] at h
      rw [find?_cons_of_neg hx]
      exact ih h fun y hy => himp y (mem_cons_of_mem _ hy)

theorem find?_erase_of_neg {α : Type} [DecidableEq α] {p : α → Bool} {l : List α} {a : α}
    (h : p a = false) : (l.erase a).find? p = l.find? p := by
  induction l with
  | nil => rfl
  | cons x l ih =>
    by_cases hx : x = a
    · subst hx
      simp [h]
    · rw [erase_cons_tail (by simpa using hx), find?_cons, find?_cons, ih]

namespace Bcache

variable [DecidableEq Key] {c c' : Bcache Key Proc} {count : BufIdx → Nat} {i j : BufIdx}
  {blockno : Key}

theorem blockno_of_lookup (h : c.lookup blockno = some i) : (c.buf i).blockno = blockno := by
  simpa using find?_some h

theorem Ok.refcnt_eq_zero_iff (h : c.Ok count) (i : BufIdx) :
    (c.buf i).refcnt = 0 ↔ count i = 0 := by
  rw [← h.exact i, ← UInt32.toNat_inj]
  rfl

theorem Ok.inUse_of_pos (h : c.Ok count) (hpos : 0 < count i) : (c.buf i).InUse := by
  right
  rw [Ne, h.refcnt_eq_zero_iff]
  omega

theorem Ok.eq_of_blockno_eq (h : c.Ok count) (hi : (c.buf i).InUse) (hj : (c.buf j).InUse)
    (heq : (c.buf i).blockno = (c.buf j).blockno) : i = j := by
  have := h.found i hi
  rw [heq, h.found j hj] at this
  exact (some.inj this).symm

variable {f : Buf Key Proc → Buf Key Proc}

omit [DecidableEq Key] in
theorem blockno_modify (hlabel : (f (c.buf i)).blockno = (c.buf i).blockno)
    (j : BufIdx) : ((c.modify i f).buf j).blockno = (c.buf j).blockno := by
  by_cases hj : j = i
  · subst hj
    simpa using hlabel
  · rw [buf_modify_of_ne c f hj]

theorem lookup_modify (hlabel : (f (c.buf i)).blockno = (c.buf i).blockno)
    (blockno : Key) : (c.modify i f).lookup blockno = c.lookup blockno := by
  simp only [lookup, order_modify, blockno_modify hlabel]

variable {n : Nat}

/-- A buffer may change, and its count, as long as it keeps its label. -/
theorem Ok.modify (h : c.Ok count) (hi : c.lookup (c.buf i).blockno = some i)
    (hlabel : (f (c.buf i)).blockno = (c.buf i).blockno)
    (hn : (f (c.buf i)).refcnt.toNat = n) : (c.modify i f).Ok (update count i n) := by
  refine ⟨h.complete, ?_, ?_⟩
  · intro j hj
    rw [blockno_modify hlabel, lookup_modify hlabel]
    by_cases hji : j = i
    · subst hji
      exact hi
    · rw [buf_modify_of_ne c f hji] at hj
      exact h.found j hj
  · intro j
    by_cases hj : j = i
    · subst hj
      simpa using hn
    · simpa [buf_modify_of_ne c f hj, hj] using h.exact j

/-- An unreferenced buffer may get the label of a block that no buffer has. -/
theorem Ok.recycle (h : c.Ok count) (hmiss : c.lookup blockno = none)
    (hlabel : (f (c.buf i)).blockno = blockno) (hn : (f (c.buf i)).refcnt.toNat = n) :
    (c.modify i f).Ok (update count i n) := by
  have hnone : ∀ j, (c.buf j).blockno ≠ blockno := by
    intro j
    simpa using find?_eq_none.mp hmiss j (h.complete j)
  refine ⟨h.complete, ?_, ?_⟩
  · intro j hj
    by_cases hji : j = i
    · subst hji
      rw [buf_modify_self, hlabel, lookup, order_modify]
      obtain ⟨k, hk⟩ : ∃ k, c.order.find? (fun k => ((c.modify j f).buf k).blockno == blockno) =
          some k := by
        rw [← isSome_iff_exists, find?_isSome]
        exact ⟨j, h.complete j, by simpa using hlabel⟩
      rw [hk]
      by_contra hne
      have hkj : k ≠ j := fun heq => hne (by rw [heq])
      have := find?_some hk
      rw [buf_modify_of_ne c f hkj] at this
      exact hnone k (by simpa using this)
    · rw [buf_modify_of_ne c f hji] at hj ⊢
      apply find?_eq_some_of_imp (h.found j hj)
      · simp [buf_modify_of_ne c f hji]
      · intro k _ hk
        right
        have hki : k ≠ i := by
          rintro rfl
          rw [buf_modify_self, hlabel] at hk
          exact hnone j (beq_iff_eq.mp hk).symm
        rwa [buf_modify_of_ne c f hki] at hk
  · intro j
    by_cases hj : j = i
    · subst hj
      simpa using hn
    · simpa [buf_modify_of_ne c f hj, hj] using h.exact j

/-- What `bget` returns: one more reference to the buffer of the block, or to an unreferenced one,
now invalid. -/
theorem Ok.bget (h : c.Ok count) (hbound : ∀ j, c.lookup blockno = some j → count j + 1 < 2 ^ 32)
    (hget : c.bget blockno = some (i, c')) :
    c'.Ok (update count i (count i + 1)) ∧ (∀ j, j ≠ i → c'.buf j = c.buf j) ∧
      (((c.buf i).blockno = blockno ∧ c'.buf i = { c.buf i with refcnt := (c.buf i).refcnt + 1 }) ∨
        (count i = 0 ∧ (∀ j, (c.buf j).blockno ≠ blockno) ∧
          c'.buf i = { c.buf i with blockno := blockno, valid := false, refcnt := 1 })) := by
  unfold Bcache.bget at hget
  split at hget
  next k hlookup =>
    obtain ⟨rfl, rfl⟩ := Prod.mk.inj (some.inj hget)
    have hlabel := blockno_of_lookup hlookup
    refine ⟨h.modify (hlabel ▸ hlookup) rfl ?_, ?_, .inl ⟨hlabel, by simp⟩⟩
    · have := hbound k hlookup
      have hexact := h.exact k
      rw [UInt32.toNat_add, hexact]
      exact Nat.mod_eq_of_lt this
    · intro j hj
      exact buf_modify_of_ne c _ hj
  next hlookup =>
    split at hget
    next k hvictim =>
      obtain ⟨rfl, rfl⟩ := Prod.mk.inj (some.inj hget)
      have hzero : count k = 0 := by
        rw [← h.refcnt_eq_zero_iff]
        simpa using find?_some hvictim
      refine ⟨h.recycle hlookup rfl (by rw [hzero]; rfl), ?_, .inr ⟨hzero, ?_, by simp⟩⟩
      · intro j hj
        exact buf_modify_of_ne c _ hj
      · intro j
        simpa using find?_eq_none.mp hlookup j (h.complete j)
    next => cases hget

omit [DecidableEq Key] in
/-- `brelse` changes no buffer but for the count of the one it releases. -/
theorem buf_brelse (c : Bcache Key Proc) (i : BufIdx) :
    (c.brelse i).buf = (c.modify i fun b => { b with refcnt := b.refcnt - 1 }).buf := by
  unfold brelse
  simp only
  split <;> rfl

theorem toNat_sub_one {x : UInt32} (h : x.toNat = n + 1) : (x - 1).toNat = n := by
  have hlt := x.toNat_lt
  rw [UInt32.toNat_sub, h]
  have : (1 : UInt32).toNat = 1 := rfl
  omega

section

variable (h : c.Ok count)
include h

/-- Moving a buffer that is in use to the head of the list keeps the cache in order. -/
theorem Ok.toFront (hi : c.lookup (c.buf i).blockno = some i) :
    ({ c with order := i :: c.order.erase i } : Bcache Key Proc).Ok count := by
  refine ⟨?_, ?_, h.exact⟩
  · intro j
    by_cases hj : j = i
    · simp [hj]
    · exact mem_cons_of_mem _ ((mem_erase_of_ne hj).mpr (h.complete j))
  · intro j hj
    show (i :: c.order.erase i).find? _ = _
    by_cases hji : j = i
    · subst hji
      simp
    · have hne : ((c.buf i).blockno == (c.buf j).blockno) = false := by
        rw [beq_eq_false_iff_ne]
        intro heq
        rw [heq, h.found j hj] at hi
        exact hji (some.inj hi)
      rw [find?_cons_of_neg (by simp [hne])]
      exact (find?_erase_of_neg (p := fun k => (c.buf k).blockno == (c.buf j).blockno) hne).trans
        (h.found j hj)

theorem Ok.brelse (hn : count i = n + 1) : (c.brelse i).Ok (update count i n) := by
  have hfound := h.found i (h.inUse_of_pos (by omega))
  have hdec : (c.modify i fun b => { b with refcnt := b.refcnt - 1 }).Ok (update count i n) :=
    h.modify hfound rfl (toNat_sub_one (by rw [h.exact, hn]))
  unfold Bcache.brelse
  simp only
  split
  · apply hdec.toFront
    rwa [blockno_modify rfl, lookup_modify rfl]
  · exact hdec

theorem Ok.bpin (hi : (c.buf i).InUse) (hbound : count i + 1 < 2 ^ 32) :
    (c.bpin i).Ok (update count i (count i + 1)) := by
  apply h.modify (h.found i hi) rfl
  rw [UInt32.toNat_add, h.exact]
  exact Nat.mod_eq_of_lt hbound

theorem Ok.bunpin (hn : count i = n + 1) : (c.bunpin i).Ok (update count i n) :=
  h.modify (h.found i (h.inUse_of_pos (by omega))) rfl (toNat_sub_one (by rw [h.exact, hn]))

end

theorem ok_init [Zero Key] : (init : Bcache Key Proc).Ok fun _ => 0 := by
  refine ⟨by simp [init], ?_, fun _ => rfl⟩
  intro i hi
  simp [Buf.InUse, init] at hi

theorem Ok.count_victim (h : c.Ok count) (hvictim : c.victim = some i) : count i = 0 := by
  rw [← h.refcnt_eq_zero_iff]
  simpa using find?_some hvictim

end Bcache

end Xv6
