import Xv6.Bio.Cache
import Xv6.Interleave.Counting

/-!
# Who refers to which buffer

Every reference that `bget` hands out is in the hands of one process, which first waits for
the buffer's sleep-lock, then fills the buffer and holds it, and gives it back in two steps.
`Shares` ties these hands, and the pins, to the cache: the count of a buffer is the number of
hands on it plus the number of its pins. Each critical section of `bio.c` keeps it, for the
process that runs it and for all others.
-/

namespace Xv6

open Function List Option

/-- How far a process is with the reference it is taking or giving back. -/
inductive Stage where
  | waiting
  | locked
  | released
  deriving DecidableEq

/-- A reference that is being taken or given back. -/
structure Moving (Key : Type) where
  idx : BufIdx
  blockno : Key
  stage : Stage

/-- A process's references: the buffers it holds, with their blocks, and the one it takes or gives
back. -/
structure Hands (Key : Type) where
  held : List (BufIdx × Key)
  moving : Option (Moving Key)

variable {Key Proc : Type}

namespace Hands

/-- A process without references. -/
def none : Hands Key := ⟨[], .none⟩

/-- The number of references to a buffer. -/
def refs (h : Hands Key) (i : BufIdx) : Nat :=
  (h.held.map Prod.fst).count i + if h.moving.map Moving.idx = some i then 1 else 0

variable {h : Hands Key}

theorem refs_pos_of_held {i : BufIdx} {b : Key} (hmem : (i, b) ∈ h.held) : 0 < h.refs i := by
  have : 0 < (h.held.map Prod.fst).count i := count_pos_iff.mpr (mem_map.mpr ⟨(i, b), hmem, rfl⟩)
  unfold refs
  omega

theorem refs_pos_of_moving {m : Moving Key} (hm : h.moving = some m) : 0 < h.refs m.idx := by
  simp [refs, hm]

end Hands

/-- What a process may rely on: the buffers it holds are locked by it, valid, and stand for the
blocks it asked for; a buffer it is about to fill is locked by it and not one of those. -/
structure HandsOk (c : Bcache Key Proc) (p : Proc) (h : Hands Key) : Prop where
  nodup : (h.held.map Prod.fst).Nodup
  held : ∀ i b, (i, b) ∈ h.held →
    (c.buf i).lock = some p ∧ (c.buf i).blockno = b ∧ (c.buf i).valid = true
  moving : ∀ m, h.moving = some m → (c.buf m.idx).blockno = m.blockno ∧
    (m.stage = .locked → (c.buf m.idx).lock = some p ∧ m.idx ∉ h.held.map Prod.fst)

/-- A process that has references to a buffer keeps what it relies on as long as the buffer keeps
its label, stays valid, and stays locked by that process if it is. -/
theorem HandsOk.frame {c c' : Bcache Key Proc} {p : Proc} {h : Hands Key} (hok : HandsOk c p h)
    (hkeep : ∀ i, 0 < h.refs i → (c'.buf i).blockno = (c.buf i).blockno ∧
      ((c.buf i).valid = true → (c'.buf i).valid = true) ∧
      ((c.buf i).lock = some p → (c'.buf i).lock = some p)) : HandsOk c' p h := by
  refine ⟨hok.nodup, ?_, ?_⟩
  · intro i b hmem
    obtain ⟨hlabel, hvalid, hlock⟩ := hkeep i (Hands.refs_pos_of_held hmem)
    obtain ⟨hl, hb, hv⟩ := hok.held i b hmem
    exact ⟨hlock hl, hlabel.trans hb, hvalid hv⟩
  · intro m hm
    obtain ⟨hlabel, -, hlock⟩ := hkeep m.idx (Hands.refs_pos_of_moving hm)
    obtain ⟨hb, hstage⟩ := hok.moving m hm
    exact ⟨hlabel.trans hb, fun hs => ⟨hlock (hstage hs).1, (hstage hs).2⟩⟩

variable {c : Bcache Key Proc}

theorem HandsOk.refs_le {p : Proc} {h : Hands Key} (hok : HandsOk c p h)
    (i : BufIdx) : h.refs i ≤ 2 := by
  have := nodup_iff_count_le_one.mp hok.nodup i
  unfold Hands.refs
  split <;> omega

theorem Bcache.Ok.congr [DecidableEq Key] {count count' : BufIdx → Nat}
    (h : c.Ok count) (heq : ∀ i, count' i = count i) : c.Ok count' := by
  rwa [funext heq]

/-- Every buffer that is valid in `c'` was so in `c`, for the same block and with the same
data. -/
def Bcache.Keeps (c c' : Bcache Key Proc) : Prop :=
  ∀ i, (c'.buf i).valid = true → (c.buf i).valid = true ∧
    (c'.buf i).blockno = (c.buf i).blockno ∧ (c'.buf i).data = (c.buf i).data

theorem Bcache.modify_refcnt_same (c : Bcache Key Proc) (i : BufIdx) (f : UInt32 → UInt32)
    (j : BufIdx) : ∃ n, (c.modify i fun b => { b with refcnt := f b.refcnt }).buf j =
      { c.buf j with refcnt := n } := by
  by_cases hj : j = i
  · subst hj
    exact ⟨f (c.buf j).refcnt, by simp⟩
  · exact ⟨(c.buf j).refcnt, by simp [Bcache.buf_modify_of_ne c _ hj]⟩

variable [Fintype Proc]

/-- The references of all processes to a buffer. -/
def totalRefs (hands : Proc → Hands Key) (i : BufIdx) : Nat := ∑ p, (hands p).refs i

/-- The cache agrees with what all processes have in hand and with the pins. -/
structure Shares [DecidableEq Key] (c : Bcache Key Proc) (pins : BufIdx → Nat)
    (hands : Proc → Hands Key) : Prop where
  cache : c.Ok fun i => totalRefs hands i + pins i
  hands : ∀ p, HandsOk c p (hands p)

theorem refs_le_totalRefs [DecidableEq Proc] (hands : Proc → Hands Key) (p : Proc) (i : BufIdx) :
    (hands p).refs i ≤ totalRefs hands i :=
  Interleave.le_sum (fun q => (hands q).refs i) p

theorem totalRefs_update [DecidableEq Proc] (hands : Proc → Hands Key) (p : Proc) (h : Hands Key)
    (i : BufIdx) : totalRefs (update hands p h) i + (hands p).refs i =
      totalRefs hands i + h.refs i := by
  exact Interleave.sum_update (fun h : Hands Key => h.refs i) hands p h

namespace Shares

variable [DecidableEq Key] {c c' : Bcache Key Proc} {pins : BufIdx → Nat}
  {hands : Proc → Hands Key} {p : Proc} {i : BufIdx} {b : Key}

/-- Where only counts change, hands are judged by the old cache. -/
theorem recount {pins' : BufIdx → Nat} {hands' : Proc → Hands Key}
    (hsame : ∀ j, ∃ n, c'.buf j = { c.buf j with refcnt := n })
    (hok : c'.Ok fun j => totalRefs hands' j + pins' j) (hhands : ∀ q, HandsOk c q (hands' q)) :
    Shares c' pins' hands' := by
  refine ⟨hok, fun q => ?_⟩
  apply (hhands q).frame
  intro j _
  obtain ⟨n, hj⟩ := hsame j
  simp [hj]

theorem bpin (h : Shares c pins hands) (huse : (c.buf i).InUse)
    (hsmall : totalRefs hands i + pins i + 1 < 2 ^ 32) :
    Shares (c.bpin i) (update pins i (pins i + 1)) hands := by
  apply recount (c.modify_refcnt_same i fun n => n + 1)
  · apply (h.cache.bpin huse hsmall).congr
    intro j
    by_cases hj : j = i
    · subst hj
      rw [update_self, update_self]
      omega
    · rw [update_of_ne hj, update_of_ne hj]
  · exact h.hands

theorem bunpin {n : Nat} (h : Shares c pins hands) (hn : pins i = n + 1) :
    Shares (c.bunpin i) (update pins i n) hands := by
  apply recount (c := c) (c.modify_refcnt_same i fun n => n - 1)
  · apply (h.cache.bunpin (i := i) (n := totalRefs hands i + n) (by omega)).congr
    intro j
    by_cases hj : j = i
    · subst hj
      rw [update_self, update_self]
    · rw [update_of_ne hj, update_of_ne hj]
  · exact h.hands

theorem init [Zero Key] : Shares (.init : Bcache Key Proc) (fun _ => 0) fun _ => .none := by
  constructor
  · apply Bcache.ok_init.congr
    intro i
    simp [totalRefs, Hands.refs, Hands.none]
  · intro p
    exact ⟨by simp [Hands.none], by simp [Hands.none], by simp [Hands.none]⟩

variable [DecidableEq Proc]

section

variable (h : Shares c pins hands)
include h

theorem inUse (hpos : 0 < (hands p).refs i) : (c.buf i).InUse := by
  apply h.cache.inUse_of_pos
  have := refs_le_totalRefs hands p i
  omega

variable {f : Buf Key Proc → Buf Key Proc}

/-- Changing a buffer that some process refers to, but neither its label nor its count, keeps
the cache in order. The buffer may only become valid when no process can be surprised by it. -/
theorem modify {next : Hands Key}
    (hpos : 0 < (hands p).refs i) (hlabel : (f (c.buf i)).blockno = (c.buf i).blockno)
    (hcount : (f (c.buf i)).refcnt = (c.buf i).refcnt)
    (hvalid : (c.buf i).valid = true → (f (c.buf i)).valid = true)
    (hlock : ∀ q, q ≠ p → (c.buf i).lock = some q → (f (c.buf i)).lock = some q)
    (hrefs : ∀ j, next.refs j = (hands p).refs j) (hnext : HandsOk (c.modify i f) p next) :
    Shares (c.modify i f) pins (update hands p next) := by
  have huse := h.inUse hpos
  have htotal : ∀ j, totalRefs (update hands p next) j = totalRefs hands j := by
    intro j
    have := totalRefs_update hands p next j
    rw [hrefs j] at this
    omega
  constructor
  · have := h.cache.modify (h.cache.found i huse) hlabel (by rw [hcount, h.cache.exact])
    apply this.congr
    intro j
    rw [update_eq_self, htotal]
  · intro q
    by_cases hq : q = p
    · subst hq
      simpa using hnext
    · rw [update_of_ne hq]
      apply (h.hands q).frame
      intro j _
      by_cases hj : j = i
      · subst hj
        simpa [hlabel] using ⟨hvalid, hlock q hq⟩
      · rw [Bcache.buf_modify_of_ne c f hj]
        exact ⟨rfl, id, id⟩

/-- `bget` puts a new reference in its caller's hands and keeps the buffers that have references. -/
theorem bget (hfree : (hands p).moving = none)
    (hsmall : ∀ j, c.lookup b = some j → totalRefs hands j + pins j + 1 < 2 ^ 32)
    (hget : c.bget b = some (i, c')) :
    Shares c' pins (update hands p ⟨(hands p).held, some ⟨i, b, .waiting⟩⟩) ∧
      c.Keeps c' ∧ (∀ j, (c'.buf j).lock = (c.buf j).lock) ∧ ∀ j, 0 < totalRefs hands j + pins j →
          (c'.buf j).blockno = (c.buf j).blockno ∧ (c'.buf j).valid = (c.buf j).valid := by
  obtain ⟨hok, hother, hcase⟩ := h.cache.bget hsmall hget
  let next : Hands Key := ⟨(hands p).held, some ⟨i, b, .waiting⟩⟩
  have hrefs : ∀ j, next.refs j = (hands p).refs j + if i = j then 1 else 0 := by
    intro j
    simp [Hands.refs, next, hfree]
  have hblock : (c'.buf i).blockno = b := by
    rcases hcase with ⟨hlabel, heq⟩ | ⟨-, -, heq⟩
    · rwa [heq]
    · rw [heq]
  have hlock : ∀ j, (c'.buf j).lock = (c.buf j).lock := by
    intro j
    by_cases hj : j = i
    · subst hj
      rcases hcase with ⟨-, heq⟩ | ⟨-, -, heq⟩
      · rw [heq]
      · rw [heq]
    · rw [hother j hj]
  -- a recycled buffer was in nobody's hands and not pinned
  have hkeep : ∀ j, 0 < totalRefs hands j + pins j →
      (c'.buf j).blockno = (c.buf j).blockno ∧ (c'.buf j).valid = (c.buf j).valid := by
    intro j hpos
    by_cases hj : j = i
    · subst hj
      rcases hcase with ⟨-, heq⟩ | ⟨hzero, -, -⟩
      · simp [heq]
      · omega
    · simp [hother j hj]
  refine ⟨⟨?_, ?_⟩, ?_, hlock, hkeep⟩
  · apply hok.congr
    intro j
    have := totalRefs_update hands p next j
    have hj := hrefs j
    show totalRefs (update hands p next) j + pins j = _
    by_cases hji : j = i
    · subst hji
      rw [if_pos rfl] at hj
      rw [update_self]
      omega
    · rw [if_neg (Ne.symm hji)] at hj
      rw [update_of_ne hji]
      omega
  · intro q
    have hframe : HandsOk c' q (hands q) := by
      apply (h.hands q).frame
      intro j hj
      have := refs_le_totalRefs hands q j
      obtain ⟨hlabel, hvalid⟩ := hkeep j (by omega)
      exact ⟨hlabel, by rw [hvalid]; exact id, by rw [hlock j]; exact id⟩
    by_cases hq : q = p
    · subst hq
      rw [update_self]
      refine ⟨hframe.nodup, hframe.held, ?_⟩
      rintro m ⟨⟩
      exact ⟨hblock, nofun⟩
    · rwa [update_of_ne hq]
  · intro j hvalid
    by_cases hj : j = i
    · subst hj
      rcases hcase with ⟨-, heq⟩ | ⟨-, -, heq⟩
      · rw [heq] at hvalid ⊢
        exact ⟨hvalid, rfl, rfl⟩
      · simp [heq] at hvalid
    · rw [hother j hj] at hvalid ⊢
      exact ⟨hvalid, rfl, rfl⟩

/-- `acquiresleep` locks the buffer that the process waited for. -/
theorem acquiresleep
    (hmoving : (hands p).moving = some ⟨i, b, .waiting⟩) (hlock : (c.buf i).lock = none) :
    Shares (c.modify i fun b => { b with lock := some p }) pins
      (update hands p ⟨(hands p).held, some ⟨i, b, .locked⟩⟩) := by
  have hok := h.hands p
  have hnot : i ∉ (hands p).held.map Prod.fst := by
    intro hmem
    obtain ⟨⟨j, b⟩, hheld, rfl⟩ := mem_map.mp hmem
    rw [(hok.held j b hheld).1] at hlock
    cases hlock
  apply h.modify (by simp [Hands.refs, hmoving]) rfl rfl id
  · intro q _ hq
    rw [hlock] at hq
    cases hq
  · intro j
    simp [Hands.refs, hmoving]
  · refine ⟨hok.nodup, ?_, ?_⟩
    · intro j b hmem
      have hj : j ≠ i := fun heq => hnot (mem_map.mpr ⟨(j, b), hmem, heq⟩)
      rw [Bcache.buf_modify_of_ne c _ hj]
      exact hok.held j b hmem
    · rintro m ⟨⟩
      exact ⟨by simpa using (hok.moving _ hmoving).1, fun _ => ⟨by simp, hnot⟩⟩

/-- Filling the buffer that a process has locked puts it among those it holds. -/
theorem fill (hmoving : (hands p).moving = some ⟨i, b, .locked⟩)
    (hlabel : (f (c.buf i)).blockno = (c.buf i).blockno)
    (hcount : (f (c.buf i)).refcnt = (c.buf i).refcnt)
    (hlock : (f (c.buf i)).lock = (c.buf i).lock) (hvalid : (f (c.buf i)).valid = true) :
    Shares (c.modify i f) pins (update hands p ⟨(i, b) :: (hands p).held, none⟩) := by
  have hok := h.hands p
  obtain ⟨hblock, hstage⟩ := hok.moving _ hmoving
  obtain ⟨hlocked, hnot⟩ := hstage rfl
  apply h.modify (by simp [Hands.refs, hmoving]) hlabel hcount (fun _ => hvalid)
  · intro q _ hq
    rwa [hlock]
  · intro j
    simp only [Hands.refs, hmoving, map_cons, count_cons]
    simp [beq_iff_eq]
  · refine ⟨nodup_cons.mpr ⟨hnot, hok.nodup⟩, ?_, by simp⟩
    intro j b hmem
    rcases mem_cons.mp hmem with heq | hmem
    · cases heq
      simp [hlock, hlocked, hlabel, hblock, hvalid]
    · have hj : j ≠ i := fun heq => hnot (mem_map.mpr ⟨(j, b), hmem, heq⟩)
      rw [Bcache.buf_modify_of_ne c _ hj]
      exact hok.held j b hmem

/-- Changing the data of a buffer that a process holds concerns nobody's references. -/
theorem setData (hheld : (i, b) ∈ (hands p).held) (block : Block) :
    Shares (c.modify i fun b => { b with data := block }) pins hands := by
  have hkeep : update hands p (hands p) = hands := update_eq_self p hands
  rw [← hkeep]
  apply h.modify (Hands.refs_pos_of_held hheld) rfl rfl id (fun _ _ => id) fun _ => rfl
  apply (h.hands p).frame
  intro j _
  by_cases hj : j = i
  · subst hj
    simp
  · simp [Bcache.buf_modify_of_ne c _ hj]

theorem releasesleep (hheld : (i, b) ∈ (hands p).held) (hfree : (hands p).moving = none) :
    Shares (c.modify i fun b => { b with lock := none }) pins
      (update hands p ⟨(hands p).held.erase (i, b), some ⟨i, b, .released⟩⟩) := by
  have hok := h.hands p
  obtain ⟨hlock, hblock, -⟩ := hok.held i b hheld
  have hperm : (hands p).held.Perm ((i, b) :: (hands p).held.erase (i, b)) := perm_cons_erase hheld
  have hnodup : (((i, b) :: (hands p).held.erase (i, b)).map Prod.fst).Nodup :=
    (hperm.map Prod.fst).nodup_iff.mp hok.nodup
  simp only [map_cons, nodup_cons] at hnodup
  apply h.modify (Hands.refs_pos_of_held hheld) rfl rfl id
  · intro q hq hlockq
    rw [hlock] at hlockq
    exact absurd (some.inj hlockq).symm hq
  · intro j
    have hcount := (hperm.map Prod.fst).count_eq j
    simp only [map_cons, count_cons, beq_iff_eq] at hcount
    simp [Hands.refs, hfree, hcount]
  · refine ⟨hnodup.2, ?_, ?_⟩
    · intro j b' hmem
      have hj : j ≠ i := fun heq => hnodup.1 (mem_map.mpr ⟨(j, b'), hmem, heq⟩)
      rw [Bcache.buf_modify_of_ne c _ hj]
      exact hok.held j b' (mem_of_mem_erase hmem)
    · rintro m ⟨⟩
      exact ⟨by simpa using hblock, nofun⟩

/-- The second half of `brelse` takes the last hand off a released buffer. -/
theorem bput (hmoving : (hands p).moving = some ⟨i, b, .released⟩) :
    Shares (c.brelse i) pins (update hands p ⟨(hands p).held, none⟩) := by
  have hok := h.hands p
  let next : Hands Key := ⟨(hands p).held, none⟩
  have hrefs : ∀ j, (hands p).refs j = next.refs j + if i = j then 1 else 0 := by
    intro j
    simp [Hands.refs, hmoving, next]
  have hself := hrefs i
  rw [if_pos rfl] at hself
  have htotal := totalRefs_update hands p next i
  have hrelse : (c.brelse i).Ok _ :=
    h.cache.brelse (i := i) (n := totalRefs (update hands p next) i + pins i) (by omega)
  apply recount (c := c)
  · intro j
    rw [Bcache.buf_brelse]
    exact c.modify_refcnt_same i (fun n => n - 1) j
  · apply hrelse.congr
    intro j
    by_cases hj : j = i
    · subst hj
      simp [next]
    · have htotal := totalRefs_update hands p next j
      have hj' := hrefs j
      rw [if_neg (Ne.symm hj)] at hj'
      rw [update_of_ne hj]
      show totalRefs (update hands p next) j + _ = _
      omega
  · intro q
    by_cases hq : q = p
    · subst hq
      rw [update_self]
      exact ⟨hok.nodup, hok.held, by simp⟩
    · rw [update_of_ne hq]
      exact h.hands q

end

end Shares

end Xv6
