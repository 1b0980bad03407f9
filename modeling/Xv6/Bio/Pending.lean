import Xv6.Bio.References

/-!
# References and the pins of the log

The log pins the buffer of every block that is waiting to be installed. `RefsOk` is `Shares` for
these pins, with blocks labelled by their numbers and with the processes of the process table; the
log keeps a valid buffer for each pending block.
-/

namespace Xv6

open Function Finset List

/-- A valid buffer is pinned while its block is pending. -/
def pin (c : Bcache Nat Pid) (pending : List Nat) (i : BufIdx) : Nat :=
  if (c.buf i).valid = true ∧ (c.buf i).blockno ∈ pending then 1 else 0

/-- The cache agrees with what all processes have in hand and with the pending blocks. -/
structure RefsOk (c : Bcache Nat Pid) (pending : List Nat) (hands : Pid → Hands Nat) : Prop
    extends Shares c (pin c pending) hands where
  pinned : ∀ b ∈ pending, ∃ i, (c.buf i).blockno = b ∧ (c.buf i).valid = true

theorem totalRefs_le {hands : Pid → Hands Nat} {i : BufIdx} (hok : ∀ q, (hands q).refs i ≤ 2) :
    totalRefs hands i ≤ 2 * NPROC := by
  have := sum_le_card_nsmul Finset.univ (fun q => (hands q).refs i) 2 fun q _ => hok q
  unfold totalRefs
  simpa [Nat.mul_comm] using this

theorem pin_le_one (c : Bcache Nat Pid) (pending : List Nat) (i : BufIdx) :
    pin c pending i ≤ 1 := by
  unfold pin
  split <;> omega

/-- Adding or removing the block of one buffer in use changes the pin of no other buffer. -/
theorem Bcache.Ok.pin_other {c : Bcache Nat Pid} {count : BufIdx → Nat} (h : c.Ok count)
    {i j : BufIdx} {b : Nat} (hi : (c.buf i).InUse) (hblock : (c.buf i).blockno = b) (hj : j ≠ i)
    {pending pending' : List Nat} (hsame : ∀ b', b' ≠ b → (b' ∈ pending ↔ b' ∈ pending')) :
    pin c pending j = pin c pending' j := by
  unfold pin
  by_cases hvalid : (c.buf j).valid = true
  · have hne : (c.buf j).blockno ≠ b := fun heq =>
      hj (h.eq_of_blockno_eq (.inl hvalid) hi (heq.trans hblock.symm))
    simp only [hsame _ hne]
  · simp [hvalid]

namespace RefsOk

variable {c c' : Bcache Nat Pid} {pending : List Nat} {hands hands' : Pid → Hands Nat} {p : Pid}
  {i : BufIdx} {b : Nat}

section

variable (h : RefsOk c pending hands)
include h

theorem count_small (i : BufIdx) : totalRefs hands i + pin c pending i + 1 < 2 ^ 32 := by
  have h1 := totalRefs_le fun q => (h.hands q).refs_le i
  have h2 := pin_le_one c pending i
  have h3 : NPROC = 10 := rfl
  omega

/-- The valid buffer of a pending block is the only one in use for it. -/
theorem valid_of_pending (hi : (c.buf i).InUse)
    (hmem : (c.buf i).blockno ∈ pending) : (c.buf i).valid = true := by
  obtain ⟨j, hj, hvalid⟩ := h.pinned _ hmem
  rwa [h.cache.eq_of_blockno_eq hi (.inl hvalid) hj.symm]

/-- A step that leaves the pinned buffers as they are, and makes no pending block valid. -/
theorem keep (hshares : Shares c' (pin c pending) hands') (hkeep : ∀ j, 0 < pin c pending j →
      (c'.buf j).blockno = (c.buf j).blockno ∧ (c'.buf j).valid = true)
    (hnew : ∀ j, (c'.buf j).valid = true → (c'.buf j).blockno ∈ pending → 0 < pin c pending j) :
    RefsOk c' pending hands' := by
  have hpos : ∀ j, (c.buf j).valid = true → (c.buf j).blockno ∈ pending → 0 < pin c pending j := by
    intro j hvalid hmem
    simp [pin, hvalid, hmem]
  have hpin : ∀ j, pin c' pending j = pin c pending j := by
    intro j
    rcases Nat.eq_zero_or_pos (pin c pending j) with hzero | hj
    · rw [hzero]
      refine if_neg fun hcase => ?_
      have := hnew j hcase.1 hcase.2
      omega
    · obtain ⟨hlabel, hvalid⟩ := hkeep j hj
      have hcase : (c.buf j).valid = true ∧ (c.buf j).blockno ∈ pending := by
        by_contra hnot
        rw [pin, if_neg hnot] at hj
        omega
      rw [pin, pin, if_pos hcase, if_pos ⟨hvalid, hlabel ▸ hcase.2⟩]
  refine ⟨⟨hshares.cache.congr fun j => by rw [hpin j], hshares.hands⟩, ?_⟩
  intro b hb
  obtain ⟨j, hj, hvalid⟩ := h.pinned b hb
  obtain ⟨hlabel, hvalid'⟩ := hkeep j (hpos j hvalid (hj ▸ hb))
  exact ⟨j, hlabel.trans hj, hvalid'⟩

variable {f : Buf Nat Pid → Buf Nat Pid}

/-- Changing a buffer that some process refers to, but not its label, and not making it
invalid. -/
theorem keep_modify
    (hpos : 0 < (hands p).refs i) (hlabel : (f (c.buf i)).blockno = (c.buf i).blockno)
    (hvalid : (c.buf i).valid = true → (f (c.buf i)).valid = true)
    (hshares : Shares (c.modify i f) (pin c pending) hands') :
    RefsOk (c.modify i f) pending hands' := by
  refine h.keep hshares ?_ ?_
  · intro j hj
    have hcase : (c.buf j).valid = true := by
      by_contra hnot
      rw [pin, if_neg fun hand => hnot hand.1] at hj
      omega
    refine ⟨Bcache.blockno_modify hlabel j, ?_⟩
    by_cases hji : j = i
    · subst hji
      rw [Bcache.buf_modify_self]
      exact hvalid hcase
    · rwa [Bcache.buf_modify_of_ne c f hji]
  · intro j hjv hmem
    rw [Bcache.blockno_modify hlabel] at hmem
    have hj : (c.buf j).valid = true := by
      by_cases hji : j = i
      · subst hji
        exact h.valid_of_pending (h.inUse hpos) hmem
      · rwa [Bcache.buf_modify_of_ne c f hji] at hjv
    simp [pin, hj, hmem]

/-- `bget` puts a new reference in the hands of the process that called it. -/
theorem bget (hfree : (hands p).moving = none) (hget : c.bget b = some (i, c')) :
    RefsOk c' pending (update hands p ⟨(hands p).held, some ⟨i, b, .waiting⟩⟩) ∧ c.Keeps c' := by
  obtain ⟨hshares, hkeeps, -, hsame⟩ := h.toShares.bget hfree (fun j _ => h.count_small j) hget
  refine ⟨h.keep hshares ?_ ?_, hkeeps⟩
  · intro j hj
    obtain ⟨hlabel, hvalid⟩ := hsame j (by omega)
    refine ⟨hlabel, hvalid.trans ?_⟩
    by_contra hnot
    rw [pin, if_neg fun hand => hnot hand.1] at hj
    omega
  · intro j hvalid hmem
    obtain ⟨hold, hlabel, -⟩ := hkeeps j hvalid
    simp [pin, hold, ← hlabel, hmem]

/-- `acquiresleep` locks the buffer that the process waited for. -/
theorem acquiresleep
    (hmoving : (hands p).moving = some ⟨i, b, .waiting⟩) (hlock : (c.buf i).lock = none) :
    RefsOk (c.modify i fun b => { b with lock := some p }) pending
      (update hands p ⟨(hands p).held, some ⟨i, b, .locked⟩⟩) :=
  h.keep_modify (Hands.refs_pos_of_moving hmoving) rfl id (h.toShares.acquiresleep hmoving hlock)

/-- Filling the buffer that a process has locked puts it among those it holds. -/
theorem fill (hmoving : (hands p).moving = some ⟨i, b, .locked⟩)
    (hlabel : (f (c.buf i)).blockno = (c.buf i).blockno)
    (hcount : (f (c.buf i)).refcnt = (c.buf i).refcnt)
    (hlock : (f (c.buf i)).lock = (c.buf i).lock) (hvalid : (f (c.buf i)).valid = true) :
    RefsOk (c.modify i f) pending (update hands p ⟨(i, b) :: (hands p).held, none⟩) :=
  h.keep_modify (Hands.refs_pos_of_moving hmoving) hlabel (fun _ => hvalid)
    (h.toShares.fill hmoving hlabel hcount hlock hvalid)

/-- Changing the data of a buffer that a process holds concerns nobody's references. -/
theorem setData (hheld : (i, b) ∈ (hands p).held) (block : Block) :
    RefsOk (c.modify i fun b => { b with data := block }) pending hands :=
  h.keep_modify (Hands.refs_pos_of_held hheld) rfl id (h.toShares.setData hheld block)

theorem releasesleep (hheld : (i, b) ∈ (hands p).held) (hfree : (hands p).moving = none) :
    RefsOk (c.modify i fun b => { b with lock := none }) pending
      (update hands p ⟨(hands p).held.erase (i, b), some ⟨i, b, .released⟩⟩) :=
  h.keep_modify (Hands.refs_pos_of_held hheld) rfl id (h.toShares.releasesleep hheld hfree)

end

theorem recount (hsame : ∀ j, ∃ n, c'.buf j = { c.buf j with refcnt := n })
    (hshares : Shares c' (pin c pending) hands')
    (hpinned : ∀ b ∈ pending, ∃ i, (c.buf i).blockno = b ∧ (c.buf i).valid = true) :
    RefsOk c' pending hands' := by
  have hpin : ∀ j, pin c' pending j = pin c pending j := by
    intro j
    obtain ⟨n, hj⟩ := hsame j
    simp [pin, hj]
  refine ⟨⟨hshares.cache.congr fun j => by rw [hpin j], hshares.hands⟩, ?_⟩
  intro b hb
  obtain ⟨j, hblock, hvalid⟩ := hpinned b hb
  obtain ⟨n, hj⟩ := hsame j
  exact ⟨j, by simpa [hj] using ⟨hblock, hvalid⟩⟩

/-- The second half of `brelse` takes the last hand off a released buffer. -/
theorem bput (h : RefsOk c pending hands) (hmoving : (hands p).moving = some ⟨i, b, .released⟩) :
    RefsOk (c.brelse i) pending (update hands p ⟨(hands p).held, none⟩) := by
  refine recount ?_ (h.toShares.bput hmoving) h.pinned
  intro j
  rw [Bcache.buf_brelse]
  exact c.modify_refcnt_same i (fun n => n - 1) j

/-- `bpin` in `log_write`: the block of a held buffer becomes pending. -/
theorem bpin (h : RefsOk c pending hands) (hheld : (i, b) ∈ (hands p).held) (hnew : b ∉ pending) :
    RefsOk (c.bpin i) (pending ++ [b]) hands := by
  obtain ⟨-, hblock, hvalid⟩ := (h.hands p).held i b hheld
  have huse : (c.buf i).InUse := .inl hvalid
  have hshares := h.toShares.bpin huse (h.count_small i)
  have hpins : update (pin c pending) i (pin c pending i + 1) = pin c (pending ++ [b]) := by
    funext j
    by_cases hj : j = i
    · subst hj
      rw [update_self]
      simp [pin, hvalid, hblock, hnew]
    · rw [update_of_ne hj]
      exact h.cache.pin_other huse hblock hj fun b' hb' => by simp [hb']
  rw [hpins] at hshares
  refine recount (c.modify_refcnt_same i fun n => n + 1) hshares ?_
  intro b' hb'
  rcases List.mem_append.mp hb' with hb' | hb'
  · exact h.pinned b' hb'
  · obtain rfl := List.mem_singleton.mp hb'
    exact ⟨i, hblock, hvalid⟩

/-- `bunpin` in `install_trans`: the block of a held buffer is no longer pending. -/
theorem bunpin (h : RefsOk c (b :: pending) hands) (hheld : (i, b) ∈ (hands p).held)
    (hold : b ∉ pending) : RefsOk (c.bunpin i) pending hands := by
  obtain ⟨-, hblock, hvalid⟩ := (h.hands p).held i b hheld
  have huse : (c.buf i).InUse := .inl hvalid
  have hpin : pin c (b :: pending) i = 0 + 1 := by simp [pin, hvalid, hblock]
  have hshares := h.toShares.bunpin hpin
  have hpins : update (pin c (b :: pending)) i 0 = pin c pending := by
    funext j
    by_cases hj : j = i
    · subst hj
      rw [update_self]
      simp [pin, hblock, hold]
    · rw [update_of_ne hj]
      exact h.cache.pin_other huse hblock hj fun b' hb' => by simp [hb']
  rw [hpins] at hshares
  refine recount (c.modify_refcnt_same i fun n => n - 1) hshares ?_
  intro b' hb'
  exact h.pinned b' (mem_cons_of_mem _ hb')

/-- The pending blocks have distinct valid buffers: with one that is not theirs, they are fewer than
`NBUF`. -/
theorem length_pending_lt (h : RefsOk c pending hands) (hnodup : pending.Nodup)
    (hi : (c.buf i).valid = true → (c.buf i).blockno ∉ pending) : pending.length < NBUF := by
  have hsub : pending.toFinset ⊆ (Finset.univ.erase i).image fun j => (c.buf j).blockno := by
    intro b hb
    rw [mem_toFinset] at hb
    obtain ⟨j, hj, hvalid⟩ := h.pinned b hb
    refine mem_image.mpr ⟨j, mem_erase.mpr ⟨?_, mem_univ j⟩, hj⟩
    rintro rfl
    exact hi hvalid (hj ▸ hb)
  have hcard := (card_le_card hsub).trans card_image_le
  rw [toFinset_card_of_nodup hnodup, card_erase_of_mem (mem_univ i),
    card_univ, Fintype.card_fin] at hcard
  have : 0 < NBUF := by decide
  omega

theorem init : RefsOk .init [] fun _ => .none := by
  have hpins : pin (.init : Bcache Nat Pid) [] = fun _ => 0 := by
    funext i
    simp [pin]
  refine ⟨?_, by simp⟩
  rw [hpins]
  exact Shares.init

end RefsOk

end Xv6
